/-
  PatchPresence.Proofs.Folding.Control — nodes whose children start from the environment of the node.

  Operands, branches, cases and handlers are visited from the environment of their node, whatever runs
  before them. What may have run is what a child is exposed to, so it is enough that every child that is
  executed is followed apart from that. The argument follows the way control takes through a node: its
  leading children first, then a branch, the cases of a switch, or a guarded body with what is behind it.
  The value of a node is the one it folds to when the audit found that running gives it.

  Main result:
    * `Overseen.followed` — such a node is followed when its children are.
-/
import PatchPresence.Proofs.Folding.Agreement

namespace PatchPresence

namespace Term

/-! ## §1. Which children are executed. -/

/-- Whether any child of a node may be executed, not only the leading ones. -/
def runsAll (node : Term) : Bool :=
  match node.kind with
  | .ifStmt | .conditional | .switch | .tryStmt => true
  | _ => false

/-- A leading child is exposed to all that the children before it write. -/
theorem mem_exposure_of_leading {node child : Term} {front : List Term} {name : String}
    (hfront : front.length < node.leadCount) (hname : name ∈ writtenAll front) :
    name ∈ node.exposure .operands front child := by
  cases front with
  | nil => simp [writtenAll] at hname
  | cons first rest =>
    -- a second leading child rules out branches and guarded bodies
    rw [List.length_cons] at hfront
    cases node with
    | node id kind children =>
      cases kind with
      | ifStmt | conditional | switch | tryStmt =>
        simp only [leadCount, Term.kind] at hfront
        omega
      | _ => exact hname

/-- A case is exposed to the selector and to the cases that control fell through from. -/
theorem mem_exposure_of_fallThrough {node child : Term} {front back : List Term} {skipped : Nat}
    {name : String} (hkind : node.kind = .switch)
    (hcases : node.children.drop (skipped + 1) = front ++ child :: back)
    (hfront : ∀ term ∈ front, term.completes = true)
    (hname : name ∈ writtenAll (node.children.take 1) ++ writtenAll front) :
    name ∈ node.exposure .operands (node.children.take (skipped + 1) ++ front) child := by
  cases hchildren : node.children with
  | nil => simp [hchildren] at hcases
  | cons selector rest =>
    have hexposure : node.exposure .operands ((selector :: rest).take (skipped + 1) ++ front) child
        = writtenAll (selector :: (fallThrough (rest.take skipped) ++ front)) := by
      simp [exposure, hkind, fallThrough_append hfront]
    rw [hchildren] at hname
    rw [hexposure, mem_writtenAll]
    rcases List.mem_append.1 hname with hselector | hbefore
    · refine ⟨selector, List.mem_cons_self, ?_⟩
      simpa [writtenAll] using hselector
    · obtain ⟨term, hterm, hwritten⟩ := mem_writtenAll.1 hbefore
      exact ⟨term, List.mem_cons_of_mem _ (List.mem_append_right _ hterm), hwritten⟩

/-- A part behind a guarded body is exposed to the body, to every handler and to the parts before it. -/
theorem mem_exposure_of_finally {node body child : Term} {front : List Term} {name : String}
    (hkind : node.kind = .tryStmt) (hcatch : child.isCatch = false)
    (hname : name ∈ writtenAll (body :: front ++ node.children.filter isCatch)) :
    name ∈ node.exposure .operands (body :: front) child := by
  simpa [exposure, hkind, hcatch] using hname

end Term

namespace Execution

variable {runtime : Runtime} {node : Term} {records : List (Nat × Option Folded)}
variable {folds : List (Option Folded)} {matched : Bool} {env : Env} {stale : List String}
variable {past history : History}

/-- The children of a node that may be executed are followed from its environment, apart from what they
    are exposed to, and what they fold to is known by their places. -/
structure Overseen (runtime : Runtime) (node : Term) (records : List (Nat × Option Folded))
    (folds : List (Option Folded)) (matched : Bool) (env : Env) (stale : List String) : Prop where
  child : ∀ front child back, node.children = front ++ child :: back →
    node.runsAll = true ∨ front.length < node.leadCount →
    Followed runtime child records (folds[front.length]?).join matched env
      (stale ++ node.exposure .operands front child)
  leading_le : node.leading.length ≤ folds.length
  le_children : folds.length ≤ node.children.length
  all : node.runsAll = true → folds.length = node.children.length

theorem Followed.unvalued {folded : Option Folded} {other : Bool}
    (h : Followed runtime node records folded matched env stale) :
    Followed runtime node records none other env stale := by
  intro past ending history hexec hagrees
  refine ⟨(h past ending history hexec hagrees).1, fun value _ _ constant hnone => ?_⟩
  cases hnone

namespace Overseen

/-! ## §2. Leading children. -/

/-- Leading children are tracked, and each gives the value that it folds to. -/
theorem leading {count : Nat} {ending : Ending} (h : Overseen runtime node records folds matched env stale)
    (hcount : count ≤ node.leadCount)
    (hexec : Exec runtime (.turns (node.children.take count)) past ending history)
    (hagrees : Agrees env stale past) :
    Tracked records past history
      ∧ ∀ values, ending = .all values →
          Aligned (node.children.take count) (fun index => (folds[index]?).join) matched values := by
  have hsplit : ∀ front child back, node.children.take count = front ++ child :: back →
      front.length < node.leadCount
        ∧ node.children = front ++ child :: (back ++ node.children.drop count) := by
    intro front child back htake
    constructor
    · have hlength := congrArg List.length htake
      simp only [List.length_take, List.length_append, List.length_cons] at hlength
      omega
    · have hall := List.take_append_drop count node.children
      rw [htake] at hall
      simpa using hall.symm
  refine @tracked_turns runtime records env stale [] _ (fun index => (folds[index]?).join) matched
    (fun front child => node.exposure .operands front child) ending past history ?_ ?_ hexec
    (by rwa [List.append_nil])
  · intro front child back htake
    obtain ⟨hfront, hchildren⟩ := hsplit front child back htake
    exact h.child front child _ hchildren (.inr hfront)
  · intro front child back htake _ name hname
    obtain ⟨hfront, -⟩ := hsplit front child back htake
    exact Term.mem_exposure_of_leading hfront hname

/-! ## §3. Branches. -/

/-- A branch is followed from where the first child ends. -/
theorem branch {back : List Term} {choice : Term} {ending : Ending}
    (h : Overseen runtime node records folds matched env stale) (front : List Term)
    (hchoice : node.isChoice = true)
    (hchildren : node.children = front ++ choice :: back) (hfront : front ≠ [])
    (hexec : Exec runtime (.term choice) past ending history)
    (hagrees : Agrees env (stale ++ Term.writtenAll (node.children.take 1)) past) :
    Tracked records past history
      ∧ ∀ value, ending = .done value → matched = true →
          Yields (((folds[front.length]?).join).map Folded.value) value := by
  have hkind := Term.kind_of_isChoice hchoice
  have hruns : node.runsAll = true := by
    rcases hkind with hkind | hkind <;> simp [Term.runsAll, hkind]
  have hexposure : node.exposure .operands front choice = Term.writtenAll (node.children.take 1) := by
    obtain ⟨first, rest, rfl⟩ := List.exists_cons_of_ne_nil hfront
    rw [hchildren]
    rcases hkind with hkind | hkind <;> simp [Term.exposure, hkind]
  have hfollowed := h.child front choice back hchildren (.inl hruns)
  rw [hexposure] at hfollowed
  exact hfollowed past ending history hexec hagrees

/-- Whichever branch is taken, it is tracked. -/
theorem tracked_choice {choice : Term} {values : List Value} {ending : Ending}
    (h : Overseen runtime node records folds matched env stale) (hchoice : node.isChoice = true)
    (hmem : choice ∈ node.alternatives values)
    (hexec : Exec runtime (.term choice) past ending history)
    (hagrees : Agrees env (stale ++ Term.writtenAll (node.children.take 1)) past) :
    Tracked records past history := by
  have hdrop := Term.mem_drop_of_mem_alternatives hmem
  cases hchildren : node.children with
  | nil => simp [hchildren] at hdrop
  | cons first rest =>
    rw [hchildren] at hdrop
    obtain ⟨front, back, hrest⟩ := List.append_of_mem hdrop
    replace hrest : rest = front ++ choice :: back := hrest
    have hsplit : node.children = (first :: front) ++ choice :: back := by rw [hchildren, hrest]; rfl
    exact (h.branch _ hchoice hsplit (List.cons_ne_nil _ _) hexec hagrees).1

/-! ## §4. Switches. -/

/-- The cases that a switch falls through are tracked. -/
theorem tracked_switch {skipped : Nat} {ending : Ending}
    (h : Overseen runtime node records folds matched env stale) (hkind : node.kind = .switch)
    (hexec : Exec runtime (.turns (node.children.drop (skipped + 1))) past ending history)
    (hagrees : Agrees env (stale ++ Term.writtenAll (node.children.take 1)) past) :
    Tracked records past history := by
  have hruns : node.runsAll = true := by simp [Term.runsAll, hkind]
  -- the cases before the entry were skipped, but the audit counts them among those that control may have
  -- fallen through from
  refine (@tracked_turns runtime records env stale (Term.writtenAll (node.children.take 1)) _
    (fun index => (folds[(node.children.take (skipped + 1)).length + index]?).join) matched
    (fun front child => node.exposure .operands (node.children.take (skipped + 1) ++ front) child)
    ending past history ?_ ?_ hexec hagrees).1
  · intro front child back hcases
    have hsplit : node.children = (node.children.take (skipped + 1) ++ front) ++ child :: back := by
      rw [List.append_assoc, ← hcases, List.take_append_drop]
    rw [← List.length_append]
    exact h.child _ child back hsplit (.inl hruns)
  · intro front child back hcases hfront name hname
    exact Term.mem_exposure_of_fallThrough hkind hcases hfront hname

/-! ## §5. Guarded bodies. -/

/-- The parts behind a guarded body that are no handlers are tracked, whether or not a handler ran. -/
theorem tracked_finally {body : Term} {clauses : List Term} {ending : Ending}
    (h : Overseen runtime node records folds matched env stale) (hkind : node.kind = .tryStmt)
    (hchildren : node.children = body :: clauses)
    (hexec : Exec runtime (.turns (clauses.filter (!·.isCatch))) past ending history)
    (hagrees : Agrees env (stale ++ Term.writtenAll (body :: clauses.filter Term.isCatch)) past) :
    Tracked records past history := by
  have hruns : node.runsAll = true := by simp [Term.runsAll, hkind]
  refine (@tracked_turns runtime records env stale _ _ (fun _ => none) matched
    (fun front _ => Term.writtenAll (body :: front ++ clauses.filter Term.isCatch))
    ending past history ?_ ?_ hexec hagrees).1
  · intro front child back hfilter
    obtain ⟨before, behind, hclauses, hbefore, hbehind⟩ := List.filter_eq_append_iff.1 hfilter
    obtain ⟨between, others, hothers, hbetween, hchild, -⟩ := List.filter_eq_cons_iff.1 hbehind
    have hcatch : child.isCatch = false := by simpa using hchild
    have hsplit : node.children = (body :: (before ++ between)) ++ child :: others := by
      rw [hchildren, hclauses, hothers]
      simp
    -- the filtered parts before the child are some of the parts before it
    have hsome : ∀ term ∈ front, term ∈ before ++ between := fun term hterm =>
      List.mem_append_left _ (List.mem_filter.1 (hbefore ▸ hterm)).1
    refine ((h.child _ child others hsplit (.inl hruns)).mono (fun _ hrecord => hrecord) id
      fun _ hbase => hbase.mono fun name hname => ?_).unvalued
    rcases List.mem_append.1 hname with hstale | hwritten
    · exact List.mem_append_left _ hstale
    · refine List.mem_append_right _ (Term.mem_exposure_of_finally hkind hcatch ?_)
      obtain ⟨term, hterm, hterm'⟩ := Term.mem_writtenAll.1 hwritten
      refine Term.mem_writtenAll.2 ⟨term, ?_, hterm'⟩
      simp only [List.cons_append, List.mem_cons, List.mem_append, List.mem_filter] at hterm ⊢
      rcases hterm with rfl | hfront | ⟨hclause, hcaught⟩
      · exact .inl rfl
      · exact .inr (.inl (List.mem_append.1 (hsome term hfront)))
      · exact .inr (.inr ⟨hchildren ▸ List.mem_cons_of_mem _ hclause, hcaught⟩)
  · intro front child back _ _ name hname
    rw [Term.mem_writtenAll]
    rcases List.mem_append.1 hname with hexecuted | hfront
    · obtain ⟨term, hterm, hwritten⟩ := Term.mem_writtenAll.1 hexecuted
      refine ⟨term, ?_, hwritten⟩
      rcases List.mem_cons.1 hterm with rfl | hhandler
      · exact List.mem_cons_self
      · exact List.mem_append_right _ hhandler
    · obtain ⟨term, hterm, hwritten⟩ := Term.mem_writtenAll.1 hfront
      exact ⟨term, List.mem_append_left _ (List.mem_cons_of_mem _ hterm), hwritten⟩

/-- A guarded body runs first. -/
theorem agrees_of_guarded (hkind : node.kind = .tryStmt)
    (hagrees : Agrees env (stale ++ Term.writtenAll node.leading) past) : Agrees env stale past := by
  have hleading : node.leading = [] := by simp [Term.leading, Term.leadCount, hkind]
  rwa [hleading, Term.writtenAll, List.append_nil] at hagrees

/-- A guarded body is followed from the environment of its statement. -/
theorem tracked_body {body : Term} {clauses : List Term} {ending : Ending}
    (h : Overseen runtime node records folds matched env stale) (hkind : node.kind = .tryStmt)
    (hchildren : node.children = body :: clauses)
    (hexec : Exec runtime (.term body) past ending history) (hagrees : Agrees env stale past) :
    Tracked records past history := by
  have hruns : node.runsAll = true := by simp [Term.runsAll, hkind]
  have hexposure : node.exposure .operands [] body = [] := by simp [Term.exposure, hkind]
  have hfollowed := h.child [] body clauses hchildren (.inl hruns)
  rw [hexposure, List.append_nil] at hfollowed
  exact (hfollowed past ending history hexec hagrees).1

/-- A handler is followed from wherever the guarded body was abandoned. -/
theorem tracked_handler {body clause : Term} {clauses : List Term} {ending : Ending}
    (h : Overseen runtime node records folds matched env stale) (hkind : node.kind = .tryStmt)
    (hchildren : node.children = body :: clauses) (hmem : clause ∈ clauses)
    (hcatch : clause.isCatch = true) (hexec : Exec runtime (.term clause) past ending history)
    (hagrees : Agrees env (stale ++ Term.writtenAll [body]) past) : Tracked records past history := by
  have hruns : node.runsAll = true := by simp [Term.runsAll, hkind]
  obtain ⟨front, back, rfl⟩ := List.append_of_mem hmem
  have hexposure : node.exposure .operands (body :: front) clause = Term.writtenAll [body] := by
    simp [Term.exposure, hkind, hcatch]
  have hfollowed := h.child (body :: front) clause back hchildren (.inl hruns)
  rw [hexposure] at hfollowed
  exact (hfollowed past ending history hexec hagrees).1

/-! ## §6. Behind the leading children. -/

/-- What a node does behind its leading children is tracked. -/
theorem tracked_rest {start : History} {values : List Value} {ending : Ending}
    (h : Overseen runtime node records folds matched env stale) (hloop : ∀ kind, node.kind ≠ .loop kind)
    (hread : ∀ name, node.kind ≠ .localRead name)
    (hexec : Exec runtime (.rest start node values) past ending history)
    (hagrees : Agrees env (stale ++ Term.writtenAll node.leading) past) :
    Tracked records past history := by
  cases hexec with
  | abandon | plain | leave | pass => exact .start
  | read hkind => exact absurd hkind (hread _)
  | store | step => exact .write .start
  | choose hchoice hmem hbranch _ =>
    rw [Term.leading_of_isChoice hchoice] at hagrees
    exact h.tracked_choice hchoice hmem hbranch hagrees
  | switch hkind hcases =>
    have hleading : node.leading = node.children.take 1 := by
      simp [Term.leading, Term.leadCount, hkind]
    rw [hleading] at hagrees
    exact h.tracked_switch hkind hcases hagrees
  | loop hkind => exact absurd hkind (hloop _)
  | @guarded _ _ between _ _ body clauses _ _ _ hkind hchildren hbody hfinally =>
    -- whatever the ending of the body, the part behind it sees what the body wrote
    have hstart := agrees_of_guarded hkind hagrees
    refine (h.tracked_body hkind hchildren hbody hstart).trans
      (h.tracked_finally hkind hchildren hfinally ?_)
    exact (hstart.exec hbody).mono fun name hname => by
      simp only [Term.writtenAll, Task.nodes, List.mem_append, List.append_nil] at hname ⊢
      exact hname.imp_right .inl
  | @handled _ _ _ _ _ _ body clause clauses _ _ _ hkind hchildren hbody hmem hcatch hhandler hfinally =>
    -- the handler starts in the middle of the body, and the part behind both sees what either wrote
    have hstart := agrees_of_guarded hkind hagrees
    have hcaught := hstart.exec hbody
    refine ((h.tracked_body hkind hchildren hbody hstart).trans
      (h.tracked_handler hkind hchildren hmem hcatch hhandler hcaught)).trans
      (h.tracked_finally hkind hchildren hfinally ?_)
    refine (hcaught.exec hhandler).mono fun name hname => ?_
    simp only [Term.writtenAll, Task.nodes, List.mem_append, List.append_nil] at hname ⊢
    rcases hname with (hstale | hbody) | hclause
    · exact .inl hstale
    · exact .inr (.inl hbody)
    · exact .inr (.inr (Term.mem_writtenAll.2 ⟨clause, List.mem_filter.2 ⟨hmem, hcatch⟩, hclause⟩))

/-! ## §7. Values. -/

/-- What a visit knows of the leading children of a node, running gives. -/
theorem refines {values : List Value} (h : Overseen runtime node records folds matched env stale)
    (haligned : Aligned node.leading (fun index => (folds[index]?).join) matched values)
    (hmatched : matched = true) :
    Runtime.Refines ((folds.take node.leadCount).map (Option.map Folded.value)) (contents values) := by
  obtain ⟨hlength, hvalues⟩ := haligned
  have hlead : node.leading.length = min node.leadCount node.children.length := by
    rw [Term.leading, List.length_take]
  have hleading := h.leading_le
  have hchildren := h.le_children
  refine ⟨?_, fun index constant hknown => ?_⟩
  · rw [List.length_map, List.length_take, contents, List.length_map]
    omega
  · rw [List.getElem?_map, List.getElem?_take, Option.join_eq_some_iff] at hknown
    obtain ⟨fold, hfold, hconstant⟩ := Option.map_eq_some_iff.1 hknown
    obtain ⟨folded, rfl, rfl⟩ := Option.map_eq_some_iff.1 hconstant
    split at hfold
    · have hindex : index < folds.length := (List.getElem?_eq_some_iff.1 hfold).1
      exact hvalues hmatched index folded (by omega) (congrArg Option.join hfold)
    · cases hfold

/-- A condition that was evaluated has the value that it folds to. -/
theorem decision {values : List Value} {condition : Folded}
    (h : Overseen runtime node records folds matched env stale) (hcount : node.leadCount = 1)
    (haligned : Aligned node.leading (fun index => (folds[index]?).join) matched values)
    (hmatched : matched = true) (hcondition : (folds[0]?).join = some condition) :
    values = [.constant condition.value] := by
  have hfolds : 0 < folds.length := by
    rcases Nat.eq_zero_or_pos folds.length with hzero | hpositive
    · rw [List.length_eq_zero_iff.1 hzero] at hcondition
      cases hcondition
    · exact hpositive
  have hone : node.leading.length = 1 := by
    have hchildren := h.le_children
    rw [Term.leading, List.length_take, hcount]
    omega
  obtain ⟨hlength, hvalues⟩ := haligned
  have hvalue := hvalues hmatched 0 condition (by omega) hcondition
  obtain ⟨value, rfl⟩ := List.length_eq_one_iff.1 (hlength.trans hone)
  cases value with
  | constant content => rw [Option.some.inj hvalue]
  | other => cases hvalue

/-- Of the branches of a conditional expression the one is taken whose value it folds to. -/
theorem value_of_conditional {choice : Term} {values : List Value} {value : Value} {folded : Folded}
    (h : Overseen runtime node records folds matched env stale) (hkind : node.kind = .conditional)
    (haligned : Aligned node.leading (fun index => (folds[index]?).join) matched values)
    (hmatched : matched = true) (hfolded : foldConditional folds = some folded)
    (hmem : choice ∈ node.alternatives values)
    (hexec : Exec runtime (.term choice) past (.done value) history)
    (hagrees : Agrees env (stale ++ Term.writtenAll (node.children.take 1)) past) :
    value = .constant folded.value := by
  have hchoice : node.isChoice = true := by simp [Term.isChoice, hkind]
  unfold foldConditional at hfolded
  split at hfolded
  · next condition yes no =>
    split at hfolded
    · next flag hflag =>
      obtain rfl := Option.some.inj hfolded
      have hthree : 3 = node.children.length := h.all (by simp [Term.runsAll, hkind])
      obtain ⟨first, second, third, hchildren⟩ : ∃ first second third,
          node.children = [first, second, third] := by
        rcases hchildren : node.children with _ | ⟨first, _ | ⟨second, _ | ⟨third, _ | ⟨fourth, rest⟩⟩⟩⟩
        all_goals simp [hchildren] at hthree
        exact ⟨first, second, third, rfl⟩
      -- the condition has the value that it folds to, which leaves one alternative
      have hdecision := h.decision (by simp [Term.leadCount, hkind]) haligned hmatched rfl
      have halternatives : node.alternatives values = [if flag then second else third] := by
        simp [Term.alternatives, hkind, hchildren, hdecision, hflag]
      rw [halternatives, List.mem_singleton] at hmem
      cases flag with
      | true =>
        obtain rfl : choice = second := hmem
        obtain ⟨-, hyields⟩ := h.branch [first] hchoice hchildren (by simp) hexec hagrees
        exact hyields value rfl hmatched _ rfl
      | false =>
        obtain rfl : choice = third := hmem
        obtain ⟨-, hyields⟩ := h.branch [first, second] hchoice hchildren (by simp) hexec hagrees
        exact hyields value rfl hmatched _ rfl
    · cases hfolded
  · cases hfolded

/-- Behind its leading children a node comes to the value that it folds to, when running gives it. -/
theorem value_rest {start : History} {values : List Value} {ending : Ending} {value : Value}
    {folded : Folded} (h : Overseen runtime node records folds matched env stale)
    (hread : ∀ name, node.kind ≠ .localRead name)
    (haligned : Aligned node.leading (fun index => (folds[index]?).join) matched values)
    (hmatched : matched = true)
    (hgives : node.gives runtime ((folds.take node.leadCount).map (Option.map Folded.value)) folded.value
      = true)
    (hfolded : foldKind runtime.context env node.kind node.children folds = some folded)
    (hexec : Exec runtime (.rest start node values) past ending history)
    (hagrees : Agrees env (stale ++ Term.writtenAll node.leading) past)
    (hdone : ending = .done value) : value = .constant folded.value := by
  have hrefines := h.refines haligned hmatched
  unfold Term.gives at hgives
  cases hexec with
  | abandon => cases hdone
  | read hkind => exact absurd hkind (hread _)
  | store htarget hvalue =>
    obtain rfl := Ending.done.inj hdone
    rcases Term.kind_of_target htarget with ⟨type, isFinal, hkind⟩ | ⟨op, hkind⟩
    · rw [hkind] at hfolded
      cases hfolded
    · rw [hkind] at hgives
      exact hvalue _ (Runtime.stored_of_refines (fun _ hnone => by cases hnone) hrefines
        (of_decide_eq_true hgives))
  | step hstep =>
    obtain ⟨hkind, hop, -⟩ := Term.kind_of_stepped hstep
    rw [hkind] at hfolded
    simp [foldKind, hop] at hfolded
  | plain hplain hvalue =>
    obtain rfl := Ending.done.inj hdone
    refine hvalue _ (Runtime.operate_of_refines hrefines ?_)
    split at hgives
    · next hkind => exact absurd hkind (hread _)
    · next hkind => simp [Term.isPlain, Term.target?, Term.isChoice, hkind] at hplain
    · next hkind => simp [Term.isPlain, Term.target?, hkind] at hplain
    · exact of_decide_eq_true hgives
  | leave hexit =>
    have habrupt := Term.isAbrupt_of_exit? hexit
    rw [hdone] at habrupt
    cases habrupt
  | choose hchoice hmem hbranch hpasses =>
    subst hdone
    rw [Term.leading_of_isChoice hchoice] at hagrees
    rcases Term.kind_of_isChoice hchoice with hkind | hkind
    · rw [hkind] at hfolded
      cases hfolded
    · rw [hkind] at hfolded hgives
      cases hpasses with
      | done hyields =>
        refine hyields _ ?_
        rw [h.value_of_conditional hkind haligned hmatched hfolded hmem hbranch hagrees]
        exact of_decide_eq_true hgives
      | abrupt habrupt => cases habrupt
  | pass hchoice hfew =>
    rcases Term.kind_of_isChoice hchoice with hkind | hkind
    · rw [hkind] at hfolded
      cases hfolded
    · -- a conditional expression folds from three parts only
      have hall := h.all (by simp [Term.runsAll, hkind])
      rw [hkind] at hfolded
      replace hfolded : foldConditional folds = some folded := hfolded
      unfold foldConditional at hfolded
      split at hfolded
      · simp only [List.length_cons, List.length_nil] at hall
        omega
      · cases hfolded
  | switch hkind | loop hkind | guarded hkind | handled hkind =>
    rw [hkind] at hfolded
    cases hfolded

/-- Where the left operand decides, it is the value of the operator. -/
theorem binary_of_decides {op : BinaryOp} {left right result : Constant}
    (hdecides : Decides op (.constant left)) (h : Constant.binary op left right = some result) :
    result = left := by
  rcases hdecides with ⟨rfl, hleft⟩ | ⟨rfl, hleft⟩
  · obtain rfl := Value.constant.inj hleft
    cases right with
    | bool flag => simpa [Constant.binary, BinaryOp.onBool] using h.symm
    | _ => simp [Constant.binary, Number.ofConstant?] at h
  · obtain rfl := Value.constant.inj hleft
    cases right with
    | bool flag => simpa [Constant.binary, BinaryOp.onBool] using h.symm
    | _ => simp [Constant.binary, Number.ofConstant?] at h

/-- A logical operator whose right operand is left alone has the value that it folds to. -/
theorem value_short {op : BinaryOp} {value : Value} {folded : Folded} (hkind : node.kind = .binary op)
    (haligned : Aligned (node.children.take 1) (fun index => (folds[index]?).join) matched [value])
    (hmatched : matched = true) (hdecides : Decides op value)
    (hfolded : foldKind runtime.context env node.kind node.children folds = some folded) :
    value = .constant folded.value := by
  rw [hkind] at hfolded
  simp only [foldKind, Option.bind_eq_bind, Option.bind_eq_some_iff] at hfolded
  obtain ⟨left, hleft, right, _, result, hresult, hpure⟩ := hfolded
  obtain rfl := Option.some.inj hpure
  obtain ⟨hlength, hvalues⟩ := haligned
  have hvalue : value = .constant left.value := by
    have hfirst := hvalues hmatched 0 left (by rw [← hlength]; exact Nat.one_pos) hleft
    cases value with
    | constant content => exact congrArg Value.constant (Option.some.inj hfirst)
    | other => cases hfirst
  subst hvalue
  rw [binary_of_decides hdecides hresult]

/-- A node whose children are overseen is followed, and it comes to the value that it folds to when running
    gives it. -/
theorem followed {folded : Option Folded} {own : Bool}
    (h : Overseen runtime node records folds matched env stale)
    (hloop : ∀ kind, node.kind ≠ .loop kind) (hread : ∀ name, node.kind ≠ .localRead name)
    (hfolded : ∀ value, folded = some value →
      foldKind runtime.context env node.kind node.children folds = some value)
    (hgives : own = true → ∀ value, folded = some value →
      node.gives runtime ((folds.take node.leadCount).map (Option.map Folded.value)) value.value = true) :
    Followed runtime node records folded (own && matched) env stale := by
  intro past ending history hexec hagrees
  cases hexec with
  | abandon => exact ⟨.start, fun value hdone => by cases hdone⟩
  | term hlead hrest =>
    obtain ⟨hfirst, hvalues⟩ := h.leading (Nat.le_refl _) hlead hagrees
    have haligned := hvalues _ rfl
    have hbetween := hagrees.exec hlead
    refine ⟨hfirst.trans (h.tracked_rest hloop hread hrest hbetween), ?_⟩
    intro value hdone hboth constant hconstant
    obtain ⟨hown, hmatched⟩ := Bool.and_eq_true_iff.1 hboth
    obtain ⟨known, hknown, rfl⟩ := Option.map_eq_some_iff.1 hconstant
    exact h.value_rest hread haligned hmatched (hgives hown known hknown) (hfolded known hknown) hrest
      hbetween hdone
  | stop hlead habrupt =>
    refine ⟨(h.leading (Nat.le_refl _) hlead hagrees).1, fun value hdone => ?_⟩
    rw [hdone] at habrupt
    cases habrupt
  | short hkind hlead hdecides =>
    have hcount : 1 ≤ node.leadCount := by simp [Term.leadCount, hkind]
    obtain ⟨hfirst, hvalues⟩ := h.leading hcount hlead hagrees
    refine ⟨hfirst, fun value hdone hboth constant hconstant => ?_⟩
    obtain rfl := Ending.done.inj hdone
    obtain ⟨known, hknown, rfl⟩ := Option.map_eq_some_iff.1 hconstant
    exact value_short hkind (hvalues _ rfl) (Bool.and_eq_true_iff.1 hboth).2 hdecides
      (hfolded known hknown)

end Overseen

end Execution

end PatchPresence
