/-
  PatchPresence.Proofs.Folding.Soundness — visits that pass the audit against executions.

  By induction on syntax trees. What is known where a node starts is handed to its children in one of four
  ways, and each has its own argument: children that start from the environment of the node, statements in
  sequence, loops, and declarations, whose children are not executed where they stand.

  Main result:
    * `sound_of_term` — every visit of a node that passes the audit is right about its executions.
-/
import Mathlib.Order.MinMax
import PatchPresence.Proofs.Folding.Control
import PatchPresence.Proofs.Folding.Records

namespace PatchPresence

/-! ## §1. Children that start from the environment of the node. -/

/-- Whether the children of a node of a kind are executed and start from the environment of the node, or
    from what is left of it. -/
def NodeKind.sharesEnv : NodeKind → Bool
  | .method .. | .lambda | .classDecl _ | .fieldDecl .. | .block | .exprStmt | .loop _ => false
  | _ => true

theorem Mode.role_ne_declaration {mode : Mode} {kind : NodeKind} (h : kind.isDeclaration = false) :
    mode.role kind ≠ .declaration := by
  unfold Mode.role
  cases mode with
  | declare | execute =>
    dsimp only
    rw [h, if_neg Bool.false_ne_true]
    split <;> simp
  | nest =>
    dsimp only
    split
    · simp
    · split <;> simp
  | evaluate =>
    dsimp only
    split <;> simp

theorem NodeKind.isDeclaration_of_sharesEnv {kind : NodeKind} (h : kind.sharesEnv = true) :
    kind.isDeclaration = false := by
  cases kind <;> first | rfl | cases h

namespace Term

variable {node : Term}

theorem role_of_sharesEnv (mode : Mode) (hkind : node.kind.sharesEnv = true) :
    mode.role node.kind ≠ .declaration :=
  Mode.role_ne_declaration (NodeKind.isDeclaration_of_sharesEnv hkind)

theorem start_of_sharesEnv (mode : Mode) (env : Env) (hkind : node.kind.sharesEnv = true) :
    (node.plan mode env).start = env := by
  have hrole := role_of_sharesEnv mode hkind
  unfold plan
  cases hmode : mode.role node.kind with
  | declaration => exact absurd hmode hrole
  | condition => rfl
  | statement =>
    cases node with
    | node id kind children => cases kind <;> first | rfl | cases hkind
  | expression =>
    cases node with
    | node id kind children => cases kind <;> first | rfl | cases hkind

/-- Environments are handed from child to child within synchronized statements only. -/
theorem discipline_of_sharesEnv (mode : Mode) (env : Env) (hkind : node.kind.sharesEnv = true) :
    (∀ mode', (node.plan mode env).discipline ≠ .sequence mode')
      ∧ ((node.plan mode env).discipline.carries = true → node.kind = .synchronizedStmt) := by
  have hrole := role_of_sharesEnv mode hkind
  unfold plan
  cases hmode : mode.role node.kind with
  | declaration => exact absurd hmode hrole
  | condition => simp [Plan.of, Discipline.carries]
  | statement =>
    generalize node.kind = kind at hkind
    cases kind <;> simp_all [Plan.of, Plan.statement, Discipline.carries, NodeKind.sharesEnv]
  | expression =>
    generalize node.kind = kind at hkind
    cases kind <;> simp_all [Plan.of, Plan.expression, Discipline.carries, NodeKind.sharesEnv]

/-- All children that are executed are visited. -/
theorem visitCount_of_sharesEnv (mode : Mode) (env : Env) (hkind : node.kind.sharesEnv = true) :
    node.leading.length ≤ node.visitCount mode env
      ∧ (node.runsAll = true → node.visitCount mode env = node.children.length) := by
  have hrole := role_of_sharesEnv mode hkind
  unfold visitCount plan leading
  rw [List.length_take]
  cases hmode : mode.role node.kind with
  | declaration => exact absurd hmode hrole
  | condition =>
    show min node.leadCount node.children.length ≤ node.children.length ∧ _
    exact ⟨by omega, fun _ => rfl⟩
  | statement =>
    unfold leadCount runsAll
    generalize node.kind = kind at hkind
    cases kind <;> simp_all [Plan.of, Plan.statement, NodeKind.sharesEnv]
  | expression =>
    unfold leadCount runsAll
    generalize node.kind = kind at hkind
    cases kind <;> simp_all [Plan.of, Plan.expression, NodeKind.sharesEnv]

end Term

namespace Execution

variable {runtime : Runtime} {mode : Mode} {env : Env} {stale : List String} {node : Term}
variable {past history : History}

theorem length_values_visitAll (context : FoldContext) (discipline : Discipline) (count : Nat) (env : Env)
    (children : List Term) :
    (visitAll context discipline count env children).values.length = min count children.length := by
  induction children generalizing discipline count env with
  | nil => simp [visitAll]
  | cons child rest ih =>
    cases count with
    | zero => simp [visitAll]
    | succ count =>
      rw [visitAll]
      simp [ih]

theorem within_of_sharesEnv (hkind : node.kind.sharesEnv = true) : runtime.within node = runtime :=
  Runtime.within_eq (by
    generalize node.kind = kind at hkind
    cases kind <;> first | rfl | cases hkind)

theorem staleWithin_of_sharesEnv (hkind : node.kind.sharesEnv = true) (start : Env) :
    node.staleWithin start stale = stale := by
  cases node with
  | node id kind children => cases kind <;> first | rfl | cases hkind

theorem exposure_eq_operands {discipline : Discipline} (h : ∀ mode, discipline ≠ .sequence mode)
    (earlier : List Term) (child : Term) :
    node.exposure discipline earlier child = node.exposure .operands earlier child := by
  cases discipline with
  | sequence mode => exact absurd rfl (h mode)
  | _ => rfl

/-- Children that start from the environment of a node are overseen when the audit passes. -/
theorem overseen_of_audit (ih : ∀ child ∈ node.children, Sound runtime child)
    (hkind : node.kind.sharesEnv = true)
    (hsound : (node.auditParts runtime mode env stale).sound = true) :
    Overseen runtime node (node.visit runtime.context mode env).records
      (node.visitParts runtime.context mode env).values (node.auditParts runtime mode env stale).matched
      env stale := by
  have hstart := Term.start_of_sharesEnv mode env hkind
  obtain ⟨hsequence, hcarries⟩ := Term.discipline_of_sharesEnv mode env hkind
  obtain ⟨hleading, hall⟩ := Term.visitCount_of_sharesEnv mode env hkind
  unfold Term.auditParts at hsound ⊢
  rw [hstart, staleWithin_of_sharesEnv hkind, within_of_sharesEnv hkind] at hsound ⊢
  have hparts : node.visitParts runtime.context mode env
      = visitAll runtime.context (node.plan mode env).discipline (node.visitCount mode env) env
          node.children := by
    rw [Term.visitParts, hstart]
  have hlength : (node.visitParts runtime.context mode env).values.length
      = min (node.visitCount mode env) node.children.length := length_values_visitAll ..
  have hlead : node.leading.length = min node.leadCount node.children.length := by
    rw [Term.leading, List.length_take]
  refine ⟨?_, by omega, by omega, fun hruns => ?_⟩
  · intro front child back hchildren hexecuted
    have hfront := congrArg List.length hchildren
    rw [List.length_append, List.length_cons] at hfront
    have hcount : front.length < node.visitCount mode env := by
      rcases hexecuted with hruns | hlt
      · rw [hall hruns]
        omega
      · omega
    have hcarried : (node.plan mode env).discipline.carries = true →
        ∀ before other behind, node.children = before ++ other :: behind →
          ∀ name ∈ Term.writtenAll before,
            name ∈ node.exposure (node.plan mode env).discipline ([] ++ before) other := by
      -- where environments are carried on, a child is exposed to all that runs before it
      intro hcarry before other behind _ name hname
      have hsynchronized := hcarries hcarry
      rw [exposure_eq_operands hsequence]
      simpa [Term.exposure, hsynchronized] using hname
    have hfollowed := followed_of_auditAll ih hsound hcarried
      (fun _ _ _ _ => Restricts.refl _ _ _) hchildren hcount
    rw [exposure_eq_operands hsequence, ← hparts] at hfollowed
    exact hfollowed.mono (fun record hrecord => Term.mem_records_visit hrecord) id fun _ h => h
  · rw [hlength, hall hruns, Nat.min_self]

/-! ## §2. Reads. -/

/-- What the environment knows of a variable is not stale where the variable is read. -/
theorem latest_of_isCurrent {name : String} {folded : Folded} {matched : Bool} (hkind : node.kind = .localRead name)
    (hcurrent : node.isCurrent runtime mode env stale matched = true) (hagrees : Agrees env stale past)
    (hvalue : (node.visit runtime.context mode env).value = some folded) :
    latest name past = some (.constant folded.value) := by
  have hfold := Term.foldKind_of_value hvalue
  rw [hkind] at hfold
  obtain ⟨known, hknown, rfl⟩ := Option.map_eq_some_iff.1 hfold
  refine hagrees name known ?_ hknown
  intro hstale
  simp [Term.isCurrent, hkind, hknown, hstale] at hcurrent

theorem followed_localRead {name : String} {matched own : Bool} (hkind : node.kind = .localRead name)
    (hcurrent : node.isCurrent runtime mode env stale matched = true) :
    Followed runtime node (node.visit runtime.context mode env).records
      (node.visit runtime.context mode env).value own env stale := by
  intro past ending history hexec hagrees
  have hleading : node.leading = [] := by simp [Term.leading, Term.leadCount, hkind]
  have hrole : mode.role node.kind = .expression := by
    rw [hkind]
    cases mode <;> rfl
  have hlatest : ∀ folded, (node.visit runtime.context mode env).value = some folded →
      latest name past = some (.constant folded.value) :=
    fun _ hvalue => latest_of_isCurrent hkind hcurrent hagrees hvalue
  cases hexec with
  | abandon => exact ⟨.start, fun value hdone => by cases hdone⟩
  | stop hlead habrupt =>
    rw [hleading] at hlead
    cases hlead with
    | abandon => exact ⟨.start, fun value hdone => by cases hdone⟩
    | turnsNil => cases habrupt
  | short hbinary =>
    rw [hkind] at hbinary
    cases hbinary
  | term hlead hrest =>
    rw [hleading] at hlead
    cases hlead
    cases hrest with
    | abandon => exact ⟨.start, fun value hdone => by cases hdone⟩
    | read hother hvalue =>
      rw [hkind] at hother
      obtain rfl := NodeKind.localRead.inj hother
      refine ⟨.read .start (Term.visit_of_expression hrole).2 hlatest, ?_⟩
      intro value hdone _ constant hconstant
      obtain rfl := Ending.done.inj hdone
      obtain ⟨folded, hfolded, rfl⟩ := Option.map_eq_some_iff.1 hconstant
      exact hvalue _ (hlatest folded hfolded)
    | store htarget => simp [Term.target?, hkind] at htarget
    | plain hplain => simp [Term.isPlain, hkind] at hplain
    | leave hexit => simp [Term.exit?, hkind] at hexit
    | choose hchoice | pass hchoice => simp [Term.isChoice, hkind] at hchoice
    | switch hother | loop hother | guarded hother | handled hother =>
      rw [hkind] at hother
      cases hother

/-! ## §3. Declarations and lambdas. -/

/-- Whether a node of a kind is evaluated without any of its children. -/
def isIdle : NodeKind → Bool
  | .method .. | .lambda | .classDecl _ | .fieldDecl .. => true
  | _ => false

/-- Behind the leading children of a plain node nothing happens. -/
theorem eq_of_rest_of_isPlain {start : History} {values : List Value} {ending : Ending}
    (hplain : node.isPlain = true) (hexec : Exec runtime (.rest start node values) past ending history) :
    history = past := by
  cases hexec with
  | abandon | plain | leave | pass => rfl
  | read hkind | switch hkind | loop hkind => simp [Term.isPlain, hkind] at hplain
  | store htarget =>
    cases node with
    | node id kind children => cases kind <;> simp_all [Term.isPlain, Term.target?, Term.kind]
  | step hstep =>
    cases node with
    | node id kind children => cases kind <;> simp_all [Term.isPlain, Term.stepped?, Term.kind]
  | choose hchoice =>
    cases node with
    | node id kind children => cases kind <;> simp_all [Term.isPlain, Term.isChoice, Term.kind]
  | guarded hkind hchildren | handled hkind hchildren =>
    simp [Term.isPlain, hkind, hchildren] at hplain

/-- Nothing is executed of an idle node. -/
theorem eq_of_isIdle {ending : Ending} (hkind : isIdle node.kind = true)
    (hexec : Exec runtime (.term node) past ending history) : history = past := by
  have hleading : node.leading = [] := by
    unfold Term.leading Term.leadCount
    generalize node.kind = kind at hkind
    cases kind <;> first | rfl | cases hkind
  have hplain : node.isPlain = true := by
    cases node with
    | node id kind children => cases kind <;> first | rfl | cases hkind
  cases hexec with
  | abandon => rfl
  | term hlead hrest =>
    rw [hleading] at hlead
    cases hlead
    exact eq_of_rest_of_isPlain hplain hrest
  | stop hlead habrupt =>
    rw [hleading] at hlead
    cases hlead with
    | abandon => rfl
    | turnsNil => cases habrupt
  | short hbinary =>
    rw [hbinary] at hkind
    cases hkind

/-! ## §4. Sequences of statements. -/

/-- Whether a node of a kind runs its children in turn, each from where the one before it ends. -/
def isSequence : NodeKind → Bool
  | .block | .exprStmt => true
  | _ => false

theorem plan_of_isSequence (hkind : isSequence node.kind = true) (mode : Mode) (env : Env) :
    node.plan mode env = ⟨.sequence .execute, none, env⟩ := by
  unfold Term.plan
  generalize node.kind = kind at hkind
  cases kind with
  | block | exprStmt => cases mode <;> rfl
  | _ => cases hkind

/-- Statements in sequence are tracked, and the visit agrees with what is behind them. -/
theorem tracked_of_isSequence {ending : Ending} (ih : ∀ child ∈ node.children, Sound runtime child)
    (hkind : isSequence node.kind = true)
    (hsound : (node.auditParts runtime mode env stale).sound = true)
    (hexec : Exec runtime (.term node) past ending history) (hagrees : Agrees env stale past) :
    Tracked (node.visitParts runtime.context mode env).records past history
      ∧ ∀ value, ending = .done value →
          Agrees (node.visitParts runtime.context mode env).env
            (node.auditParts runtime mode env stale).stale history := by
  have hplan := plan_of_isSequence hkind mode env
  have hcount : node.visitCount mode env = node.children.length := by
    rw [Term.visitCount, hplan]
    rfl
  have hleading : node.leading = node.children := by
    unfold Term.leading Term.leadCount
    generalize node.kind = kind at hkind
    cases kind <;> first | exact List.take_length | cases hkind
  have hwithin : node.staleWithin env stale = stale ∧ runtime.within node = runtime := by
    refine ⟨?_, Runtime.within_eq ?_⟩
    · unfold Term.staleWithin
      generalize node.kind = kind at hkind
      cases kind <;> first | rfl | cases hkind
    · generalize node.kind = kind at hkind
      cases kind <;> first | rfl | cases hkind
  have hexposure : ∀ earlier child, node.exposure (.sequence .execute) earlier child = [] := by
    intro earlier child
    unfold Term.exposure
    generalize node.kind = kind at hkind
    cases kind <;> first | rfl | cases hkind
  have hplain : node.isPlain = true := by
    cases node with
    | node id kind children => cases kind <;> first | rfl | cases hkind
  unfold Term.auditParts at hsound ⊢
  unfold Term.visitParts
  rw [hplan, hcount, hwithin.1, hwithin.2] at hsound ⊢
  have hsequence := fun ending history hexec => @tracked_sequence runtime node.children ih
    (node.exposure (.sequence .execute)) .execute env stale [] ending past history
    (fun _ _ _ _ => hexposure _ _) hsound hexec hagrees
  cases hexec with
  | abandon => exact ⟨.start, fun value hdone => by cases hdone⟩
  | term hlead hrest =>
    rw [hleading] at hlead
    obtain ⟨htracked, hbehind⟩ := hsequence _ _ hlead
    rw [eq_of_rest_of_isPlain hplain hrest]
    exact ⟨htracked, fun _ _ => hbehind _ rfl⟩
  | stop hlead habrupt =>
    rw [hleading] at hlead
    refine ⟨(hsequence _ _ hlead).1, fun value hdone => ?_⟩
    rw [hdone] at habrupt
    cases habrupt
  | short hbinary =>
    rw [hbinary] at hkind
    cases hkind

/-! ## §5. Loops. -/

theorem initialCount_le (node : Term) : node.initialCount ≤ node.children.length := by
  unfold Term.initialCount
  cases hfind : node.children.findIdx? fun child => child.kind = .condition with
  | none => exact Nat.zero_le _
  | some index =>
    rw [List.findIdx?_eq_some_iff_getElem] at hfind
    obtain ⟨hlt, -⟩ := hfind
    exact Nat.le_of_lt hlt

/-- Behind its initialisers a loop goes round, or it is abandoned there. -/
theorem rounds_of_rest {kind : LoopKind} {start : History} {values : List Value} {ending : Ending}
    (hkind : node.kind = .loop kind) (hexec : Exec runtime (.rest start node values) past ending history) :
    ∃ last, Exec runtime (.rounds node.repeated) past last history := by
  cases hexec with
  | abandon => exact ⟨_, .abandon⟩
  | loop _ hrounds => exact ⟨_, hrounds⟩
  | store htarget => simp [Term.target?, hkind] at htarget
  | step hstep => simp [Term.stepped?, hkind] at hstep
  | plain hplain => simp [Term.isPlain, hkind] at hplain
  | leave hexit => simp [Term.exit?, hkind] at hexit
  | choose hchoice | pass hchoice => simp [Term.isChoice, hkind] at hchoice
  | read hother | switch hother | guarded hother | handled hother =>
    rw [hkind] at hother
    cases hother

/-- Nothing is hidden from the initialisers of a loop; what is repeated is exposed to all of itself. -/
theorem exposure_of_loop {kind : LoopKind} (hkind : node.kind = .loop kind) (earlier : List Term)
    (child : Term) :
    node.exposure (.sequence .nest) earlier child
      = if earlier.length < node.initialCount then [] else Term.writtenAll node.repeated := by
  unfold Term.exposure
  rw [hkind]

/-- What is repeated is followed from what is known behind the initialisers and no round writes. -/
theorem followed_of_repeated {nodes earlier : List Term} {exposed : List Term → Term → List String}
    (ih : ∀ child ∈ nodes, Sound runtime child)
    (hexposed : ∀ front child, exposed (earlier ++ front) child = Term.writtenAll nodes)
    (hsound : (auditAll runtime exposed (.sequence mode) nodes.length env stale earlier nodes).sound
      = true) :
    ∀ child ∈ nodes, ∃ folded matched,
      Followed runtime child (visitAll runtime.context (.sequence mode) nodes.length env nodes).records folded
        matched env (stale ++ Term.writtenAll nodes) := by
  intro child hchild
  obtain ⟨front, back, hnodes⟩ := List.append_of_mem hchild
  have hlength := congrArg List.length hnodes
  rw [List.length_append, List.length_cons] at hlength
  have hfollowed := followed_of_auditAll ih hsound
    (by
      intro _ before other behind hsplit name hname
      obtain ⟨term, hterm, hwritten⟩ := Term.mem_writtenAll.1 hname
      rw [hexposed, Term.mem_writtenAll]
      exact ⟨term, hsplit ▸ List.mem_append_left _ hterm, hwritten⟩)
    (fun _ _ _ _ => Restricts.refl _ _ _) hnodes (by omega)
  rw [hexposed] at hfollowed
  exact ⟨_, _, hfollowed⟩

/-- The initialisers of a loop are tracked in step with the visit, and the rounds behind them from what is
    known there and no round writes. -/
theorem tracked_loop {kind : LoopKind} {ending : Ending} (ih : ∀ child ∈ node.children, Sound runtime child)
    (hkind : node.kind = .loop kind) (hsound : (node.auditParts runtime mode env stale).sound = true)
    (hexec : Exec runtime (.term node) past ending history) (hagrees : Agrees env stale past) :
    Tracked (node.visitParts runtime.context mode env).records past history := by
  have hplan : node.plan mode env = ⟨.sequence .nest, none, env.forget node.assigned⟩ := by
    unfold Term.plan
    rw [hkind]
    cases mode <;> rfl
  have hlead : node.leadCount = node.initialCount := by simp [Term.leadCount, hkind]
  have hinitial : node.leading.length = node.initialCount := by
    have hle := initialCount_le node
    rw [Term.leading, hlead, List.length_take]
    omega
  have hsplit : node.children = node.leading ++ node.repeated := by
    rw [Term.leading, Term.repeated, hlead, List.take_append_drop]
  have hcount : node.visitCount mode env = node.leading.length + node.repeated.length := by
    rw [← List.length_append, ← hsplit, Term.visitCount, hplan]
    rfl
  have hstale : ∀ start, node.staleWithin start stale = stale := by
    intro start
    simp [Term.staleWithin, hkind]
  have hwithin : runtime.within node = runtime := Runtime.within_eq (by rw [hkind]; rfl)
  have hstart : Agrees (env.forget node.assigned) stale past := by
    intro name known hname hget
    rw [Env.get?_forget] at hget
    split at hget
    · cases hget
    · exact hagrees name known hname hget
  unfold Term.auditParts at hsound
  unfold Term.visitParts
  rw [hplan, hcount, hstale, hwithin, hsplit] at hsound
  rw [hplan, hcount, hsplit, visitAll_append]
  dsimp only at hsound ⊢
  -- the visit and the audit of the children fall into those of the initialisers and of the rounds
  obtain ⟨hinitialisers, hrounds⟩ := sound_auditAll_append hsound
  have hfirst := fun ending history hexec => @tracked_sequence runtime node.leading
    (fun child hchild => ih child (Term.mem_children_of_mem_leading hchild))
    (node.exposure (.sequence .nest)) .nest (env.forget node.assigned) stale [] ending past history
    (by
      intro front child back hfront
      have hlength := congrArg List.length hfront
      rw [List.length_append, List.length_cons] at hlength
      rw [exposure_of_loop hkind, if_pos (by simp; omega)])
    hinitialisers hexec hstart
  have hexposure : ∀ front child,
      node.exposure (.sequence .nest) ([] ++ node.leading ++ front) child
        = Term.writtenAll node.repeated := by
    intro front child
    rw [exposure_of_loop hkind, if_neg (by simp; omega)]
  have hrepeated := fun child hchild => followed_of_repeated
    (fun child hchild => ih child (Term.mem_children_of_mem_repeated hchild)) hexposure hrounds child hchild
  cases hexec with
  | abandon => exact .start
  | term hlead hrest =>
    obtain ⟨htracked, hbehind⟩ := hfirst _ _ hlead
    obtain ⟨last, hround⟩ := rounds_of_rest hkind hrest
    refine (htracked.mono fun record hrecord => List.mem_append_left _ hrecord).trans ?_
    refine (tracked_rounds hrepeated hround ?_).mono fun record hrecord => List.mem_append_right _ hrecord
    exact (hbehind _ rfl).mono fun name hname => List.mem_append_left _ hname
  | stop hlead =>
    exact (hfirst _ _ hlead).1.mono fun record hrecord => List.mem_append_left _ hrecord
  | short hbinary =>
    rw [hkind] at hbinary
    cases hbinary

/-! ## §6. What is known behind a node. -/

/-- Behind a node, what is known of variables that it does not write is still right. -/
theorem agrees_written {ending : Ending} (hexec : Exec runtime (.term node) past ending history)
    (hagrees : Agrees env stale past) :
    Agrees (node.visit runtime.context mode env).env (stale ++ node.written) history := by
  refine hagrees.frame (fun name hname => ?_) fun name known hname hget => ?_
  · refine latest_of_exec hexec fun other hother => ?_
    rwa [List.mem_singleton.1 hother]
  · rwa [node.get?_env_visit runtime.context mode env hname] at hget

/-- A declaration or assignment that is done has stored its value last. -/
theorem store_of_exec {name : String} {value : Value} (htarget : node.target? = some name)
    (hexec : Exec runtime (.term node) past (.done value) history) :
    ∃ values between, Exec runtime (.turns node.leading) past (.all values) between
      ∧ Yields (runtime.stored ((latest name past).bind Value.constant?) node (contents values)) value
      ∧ history = .write name value :: between := by
  have hkind := Term.kind_of_target htarget
  generalize hdone : Ending.done value = ending at hexec
  cases hexec with
  | abandon => cases hdone
  | stop _ habrupt =>
    rw [← hdone] at habrupt
    cases habrupt
  | short hbinary => simp [hbinary] at hkind
  | term hlead hrest =>
    refine ⟨_, _, hlead, ?_⟩
    cases hrest with
    | abandon => cases hdone
    | store hother hvalue =>
      obtain rfl := Ending.done.inj hdone
      obtain rfl := Option.some.inj (htarget.symm.trans hother)
      exact ⟨hvalue, rfl⟩
    | read hother | switch hother | loop hother | guarded hother | handled hother =>
      simp [hother] at hkind
    | step hstep => rcases hkind with ⟨_, _, hkind⟩ | ⟨_, hkind⟩ <;> simp [Term.stepped?, hkind] at hstep
    | plain hplain =>
      rcases hkind with ⟨_, _, hkind⟩ | ⟨_, hkind⟩ <;> simp [Term.isPlain, Term.target?, hkind] at hplain
    | leave hexit => rcases hkind with ⟨_, _, hkind⟩ | ⟨_, hkind⟩ <;> simp [Term.exit?, hkind] at hexit
    | choose hchoice | pass hchoice =>
      rcases hkind with ⟨_, _, hkind⟩ | ⟨_, hkind⟩ <;> simp [Term.isChoice, hkind] at hchoice

/-- Declarations and assignments whose values are not wanted are statements. -/
theorem role_of_target {name : String} (hmode : mode ≠ .evaluate) (htarget : node.target? = some name) :
    mode.role node.kind = .statement := by
  rcases Term.kind_of_target htarget with ⟨type, isFinal, hkind⟩ | ⟨op, hkind⟩
  · rw [hkind]
    cases mode <;> rfl
  · rw [hkind]
    cases mode <;> first | rfl | exact absurd rfl hmode

/-- Environment behind a declaration or assignment among statements. -/
theorem env_visit_of_target {name : String} (hmode : mode ≠ .evaluate)
    (htarget : node.target? = some name) :
    (node.visit runtime.context mode env).env
      = statementEnv node.kind node.assigned env (node.visitParts runtime.context mode env).env
          (node.visitParts runtime.context mode env).values := by
  rw [Term.visit_eq, Visit.env_finish_of_statement (role_of_target hmode htarget), if_neg hmode]

/-- The operand of a declaration or assignment changes what is known of no other variable. -/
theorem get?_visitParts_of_target {name other : String} (hmode : mode ≠ .evaluate)
    (htarget : node.target? = some name) (hother : other ∉ Term.writtenAll (node.children.take 1)) :
    (node.visitParts runtime.context mode env).env.get? other = env.get? other := by
  have hplan : node.plan mode env = ⟨.operands, some 1, env⟩ := by
    unfold Term.plan
    rw [role_of_target hmode htarget]
    rcases Term.kind_of_target htarget with ⟨_, _, hkind⟩ | ⟨_, hkind⟩ <;> rw [hkind] <;> rfl
  unfold Term.visitParts Term.visitCount
  rw [hplan]
  exact Term.get?_env_visitAll (fun child _ mode env h => child.get?_env_visit runtime.context mode env h) hother

/-- Where something is known of its variable, a declaration or assignment stores it by the audit. -/
theorem stored_of_isCurrent {name : String} {matched : Bool} {known : LocalValue} (hmode : mode ≠ .evaluate)
    (htarget : node.target? = some name)
    (hcurrent : node.isCurrent runtime mode env stale matched = true)
    (hknown : (node.visit runtime.context mode env).env.get? name = some known) :
    matched = true
      ∧ runtime.stored (node.before? env stale name) node (node.leadContents runtime.context mode env)
          = some known.value := by
  unfold Term.isCurrent at hcurrent
  rcases Term.kind_of_target htarget with ⟨type, isFinal, hkind⟩ | ⟨op, hkind⟩
  · rw [hkind] at hcurrent
    simpa [hmode, hknown] using hcurrent
  · rw [hkind] at hcurrent
    simpa [hmode, hknown] using hcurrent

/-- What is known of a variable that is fresh is what it holds. -/
theorem latest_of_before? {name : String} {constant : Constant} (hagrees : Agrees env stale past)
    (h : node.before? env stale name = some constant) :
    (latest name past).bind Value.constant? = some constant := by
  unfold Term.before? at h
  split at h
  · cases h
  · next hfresh =>
    obtain ⟨known, hknown, rfl⟩ := Option.map_eq_some_iff.1 h
    have hstale : name ∉ stale := fun hmem => hfresh (by simp [hmem])
    rw [hagrees name known hstale hknown]
    rfl

/-- Behind a declaration or assignment its variable is known to be what was stored, and nothing else is
    known that was not. -/
theorem agrees_of_target {name : String} {value : Value}
    (ih : ∀ child ∈ node.children, Sound runtime child) (hmode : mode ≠ .evaluate)
    (htarget : node.target? = some name) (hsound : (node.audit runtime mode env stale).sound = true)
    (hexec : Exec runtime (.term node) past (.done value) history) (hagrees : Agrees env stale past) :
    Agrees (node.visit runtime.context mode env).env
      ((stale ++ Term.writtenAll (node.children.take 1)).filter (· ≠ name)) history := by
  obtain ⟨hcurrent, hparts⟩ := Term.sound_audit_iff.1 hsound
  have hkind := Term.kind_of_target htarget
  have hshares : node.kind.sharesEnv = true := by
    rcases hkind with ⟨_, _, hkind⟩ | ⟨_, hkind⟩ <;> rw [hkind] <;> rfl
  have hcount : node.leadCount = 1 := by
    rcases hkind with ⟨_, _, hkind⟩ | ⟨_, hkind⟩ <;> simp [Term.leadCount, hkind]
  have hoverseen := overseen_of_audit ih hshares hparts
  obtain ⟨values, between, hlead, hyields, rfl⟩ := store_of_exec htarget hexec
  have hleading : node.leading = node.children.take 1 := by rw [Term.leading, hcount]
  have hbetween : ∀ other, other ∉ Term.writtenAll (node.children.take 1) →
      latest other between = latest other past := by
    intro other hother
    refine latest_of_exec hlead fun child hchild hwritten => hother ?_
    rw [← hleading]
    exact Term.mem_writtenAll.2 ⟨child, hchild, hwritten⟩
  intro other known hother hget
  by_cases hname : other = name
  · -- the variable itself: its value comes from the operand and, under an operator, from the old value
    subst hname
    obtain ⟨hmatched, hstored⟩ := stored_of_isCurrent hmode htarget hcurrent hget
    obtain ⟨-, haligned⟩ := hoverseen.leading (Nat.le_refl _) hlead hagrees
    have hrefines := hoverseen.refines (haligned values rfl) hmatched
    have hresult := Runtime.stored_of_refines (fun _ hold => latest_of_before? hagrees hold) hrefines hstored
    rw [latest_write, if_pos rfl, hyields _ hresult]
  · -- any other variable: neither the operand nor the store changes it
    have hfresh : other ∉ stale ∧ other ∉ Term.writtenAll (node.children.take 1) := by
      simpa [hname] using hother
    have hkept : (node.visitParts runtime.context mode env).env.get? other = some known := by
      rw [env_visit_of_target hmode htarget] at hget
      rcases hkind with ⟨_, _, hkind⟩ | ⟨_, hkind⟩
      · rw [hkind] at hget
        simpa only [statementEnv, Env.get?_assign, if_neg hname] using hget
      · rw [hkind] at hget
        simpa only [statementEnv, Env.get?_assign, if_neg hname] using hget
    rw [get?_visitParts_of_target hmode htarget hfresh.2] at hkept
    rw [latest_write, if_neg (Ne.symm hname), hbetween other hfresh.2]
    exact hagrees other known hfresh.1 hkept

/-! ## §7. All nodes. -/

/-- A node without a value is followed when its executions are tracked. -/
theorem followed_of_unvalued
    {matched : Bool} (hnone : ∀ values, foldKind runtime.context env node.kind node.children values = none)
    (htracked : ∀ past ending history, Exec runtime (.term node) past ending history →
      Agrees env stale past → Tracked (node.visitParts runtime.context mode env).records past history) :
    Followed runtime node (node.visit runtime.context mode env).records
      (node.visit runtime.context mode env).value matched env stale := by
  intro past ending history hexec hagrees
  refine ⟨(htracked past ending history hexec hagrees).mono
    fun record hrecord => Term.mem_records_visit hrecord, fun value _ _ constant hconstant => ?_⟩
  obtain ⟨folded, hfolded, -⟩ := Option.map_eq_some_iff.1 hconstant
  have hfold := Term.foldKind_of_value hfolded
  rw [hnone] at hfold
  cases hfold

/-- A node is followed when every visit of its children that passes the audit is right. -/
theorem followed_of_audit (ih : ∀ child ∈ node.children, Sound runtime child)
    (hsound : (node.audit runtime mode env stale).sound = true) :
    Followed runtime node (node.visit runtime.context mode env).records
      (node.visit runtime.context mode env).value (node.audit runtime mode env stale).matched env stale := by
  obtain ⟨hcurrent, hparts⟩ := Term.sound_audit_iff.1 hsound
  cases hkind : node.kind with
  | method | lambda | classDecl | fieldDecl =>
    refine followed_of_unvalued (by rw [hkind]; intro _; rfl) fun past ending history hexec _ => ?_
    rw [eq_of_isIdle (by rw [hkind]; rfl) hexec]
    exact .start
  | localRead name => exact followed_localRead hkind hcurrent
  | block | exprStmt =>
    refine followed_of_unvalued (by rw [hkind]; intro _; rfl) fun past ending history hexec hagrees => ?_
    exact (tracked_of_isSequence ih (by rw [hkind]; rfl) hparts hexec hagrees).1
  | loop =>
    refine followed_of_unvalued (by rw [hkind]; intro _; rfl) fun past ending history hexec hagrees => ?_
    exact tracked_loop ih hkind hparts hexec hagrees
  | _ =>
    rw [Term.audit_eq]
    refine (overseen_of_audit ih (by rw [hkind]; rfl) hparts).followed ?_ ?_
      (fun value hvalue => Term.foldKind_of_value hvalue) ?_
    · simp [hkind]
    · simp [hkind]
    · intro hmatched value hvalue
      unfold Term.isMatched at hmatched
      rw [hvalue] at hmatched
      exact hmatched

/-- The environment behind a node agrees with the history behind it, apart from what is stale there. -/
theorem agrees_of_audit {value : Value} (ih : ∀ child ∈ node.children, Sound runtime child)
    (hsound : (node.audit runtime mode env stale).sound = true)
    (hexec : Exec runtime (.term node) past (.done value) history) (hagrees : Agrees env stale past) :
    Agrees (node.visit runtime.context mode env).env (node.audit runtime mode env stale).stale history := by
  have hparts := (Term.sound_audit_iff.1 hsound).2
  -- the cases are those of `staleBehind`
  rw [Term.stale_audit_eq]
  unfold Term.staleBehind
  split
  · next hrole =>
    have hdeclares : node.kind.isDeclaration = true := by
      cases hkind : node.kind.isDeclaration with
      | true => rfl
      | false => exact absurd hrole (Mode.role_ne_declaration hkind)
    have hidle : isIdle node.kind = true := by
      generalize node.kind = kind at hdeclares
      cases kind <;> first | rfl | cases hdeclares
    have henv : (node.visit runtime.context mode env).env = env := by
      rw [Term.visit_eq, Visit.finish, hrole]
    rw [eq_of_isIdle hidle hexec, henv]
    exact hagrees
  · split
    · exact agrees_written hexec hagrees
    · next hmode =>
      cases hkind : node.kind with
      | block | exprStmt =>
        have hsequence : isSequence node.kind = true := by rw [hkind]; rfl
        have henv : (node.visit runtime.context mode env).env = (node.visitParts runtime.context mode env).env := by
          have hrole : mode.role node.kind = .statement := by
            rw [hkind]
            cases mode <;> rfl
          rw [Term.visit_eq, Visit.env_finish_of_statement hrole, if_neg hmode, hkind]
          rfl
        rw [henv]
        exact (tracked_of_isSequence ih hsequence hparts hexec hagrees).2 value rfl
      | localDecl | assign =>
        exact agrees_of_target ih hmode (by rw [Term.target?, hkind]) hsound hexec hagrees
      | _ => exact agrees_written hexec hagrees

/-- Every visit of a node that passes the audit is right about the executions of the node. -/
theorem sound_of_term (runtime : Runtime) (node : Term) : Sound runtime node := by
  induction node using Term.induct with
  | hnode id kind children ih =>
    refine ⟨?_, ?_⟩
    · intro mode env stale hsound
      exact followed_of_audit ih hsound
    · intro mode env stale hsound past value history hexec hagrees
      exact agrees_of_audit ih hsound hexec hagrees

end Execution

end PatchPresence
