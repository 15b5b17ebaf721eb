/-
  PatchPresence.Proofs.Folding.Agreement — environments and records against executions.

  An environment agrees with a history when what it knows of variables that are not stale is what their
  latest writes stored. Reads are tracked by records when each has a record that is right. The lemmas here
  lead agreement through nodes that are executed in turn: in step with the visit where it threads its
  environment, and from the environment that all start from where it does not.

  Main results:
    * `followed_of_auditAll` — each child is followed from the environment of its parent, apart from what
      the child is exposed to.
    * `tracked_turns`, `tracked_sequence` — children in turn, with a common and with a threaded environment.
-/
import PatchPresence.Proofs.Folding.Audit

namespace PatchPresence

/-- Whether a child may start with what the one before it made known. -/
def Discipline.carries : Discipline → Bool
  | .sequence _ => true
  | .branches _ carry => carry
  | .each _ | .operands => false

namespace Execution

/-! ## §1. Agreement. -/

/-- What is known of variables that are not stale is what their latest writes stored. -/
def Agrees (env : Env) (stale : List String) (history : History) : Prop :=
  ∀ name known, name ∉ stale → env.get? name = some known →
    latest name history = some (.constant known.value)

namespace Agrees

variable {env narrow : Env} {stale more names : List String} {past history : History}

theorem mono (h : Agrees env stale history) (hsubset : ∀ name ∈ stale, name ∈ more) :
    Agrees env more history :=
  fun name known hname => h name known fun hstale => hname (hsubset name hstale)

/-- Agreement survives what changes only some variables, apart from these. -/
theorem frame (h : Agrees env stale past)
    (hlatest : ∀ name, name ∉ names → latest name history = latest name past)
    (hknown : ∀ name known, name ∉ names → narrow.get? name = some known → env.get? name = some known) :
    Agrees narrow (stale ++ names) history := by
  intro name known hname hget
  rw [List.mem_append, not_or] at hname
  rw [hlatest name hname.2]
  exact h name known hname.1 (hknown name known hname.2 hget)

/-- Agreement behind nodes that were executed, apart from what they write. -/
theorem exec {runtime : Runtime} {task : Task} {ending : Ending} (h : Agrees env stale past)
    (hexec : Exec runtime task past ending history) :
    Agrees env (stale ++ Term.writtenAll task.nodes) history := by
  refine h.frame (fun name hname => latest_of_exec hexec fun node hnode hwritten => ?_)
    fun _ _ _ hget => hget
  exact hname (Term.mem_writtenAll.2 ⟨node, hnode, hwritten⟩)

end Agrees

/-- Outside `apart`, what one environment knows freshly another one does too. -/
def Restricts (env : Env) (stale apart : List String) (narrow : Env) (more : List String) : Prop :=
  ∀ name known, name ∉ more → name ∉ apart → narrow.get? name = some known →
    name ∉ stale ∧ env.get? name = some known

namespace Restricts

variable {env narrow narrower : Env} {stale more most apart : List String} {history : History}

theorem refl (env : Env) (stale apart : List String) : Restricts env stale apart env stale :=
  fun _ _ hstale _ hget => ⟨hstale, hget⟩

theorem trans (h : Restricts env stale apart narrow more)
    (h' : Restricts narrow more apart narrower most) : Restricts env stale apart narrower most := by
  intro name known hmost hapart hget
  obtain ⟨hmore, hnarrow⟩ := h' name known hmost hapart hget
  exact h name known hmore hapart hnarrow

theorem agrees (h : Restricts env stale apart narrow more) (hagrees : Agrees env (stale ++ apart) history) :
    Agrees narrow (more ++ apart) history := by
  intro name known hname hget
  rw [List.mem_append, not_or] at hname
  obtain ⟨hstale, henv⟩ := h name known hname.1 hname.2 hget
  exact hagrees name known (by simp [hstale, hname.2]) henv

end Restricts

/-! ## §2. Tracked reads. -/

/-- Every read behind `past` has a record, and a constant on record is what the latest write stored. -/
inductive Tracked (records : List (Nat × Option Folded)) (past : History) : History → Prop
  | start : Tracked records past past
  | write {name : String} {value : Value} {history : History} (h : Tracked records past history) :
      Tracked records past (.write name value :: history)
  | read {id : Nat} {name : String} {result : Option Folded} {history : History}
      (h : Tracked records past history) (hrecord : (id, result) ∈ records)
      (hvalue : ∀ folded, result = some folded →
        latest name history = some (.constant folded.value)) :
      Tracked records past (.read id name :: history)

namespace Tracked

variable {records more : List (Nat × Option Folded)} {past between history : History}

theorem mono (h : Tracked records past history) (hsubset : ∀ record ∈ records, record ∈ more) :
    Tracked more past history := by
  induction h with
  | start => exact .start
  | write _ ih => exact .write ih
  | read _ hrecord hvalue ih => exact .read ih (hsubset _ hrecord) hvalue

theorem trans (h : Tracked records past between) (h' : Tracked records between history) :
    Tracked records past history := by
  induction h' with
  | start => exact h
  | write _ ih => exact .write ih
  | read _ hrecord hvalue ih => exact .read ih hrecord hvalue

/-- A read anywhere in a tracked history has a record that is right there. -/
theorem exists_record {later earlier : History} {id : Nat} {name : String}
    (h : Tracked records [] (later ++ .read id name :: earlier)) :
    ∃ result, (id, result) ∈ records
      ∧ ∀ folded, result = some folded → latest name earlier = some (.constant folded.value) := by
  induction later with
  | nil =>
    cases h with
    | read _ hrecord hvalue => exact ⟨_, hrecord, hvalue⟩
  | cons event later ih =>
    cases h with
    | write h => exact ih h
    | read h _ _ => exact ih h

end Tracked

/-- Executions of a node that start in agreement are tracked, and they end in the value that the node
    folds to, when `matched`: where folding is not what running does, the value is left out. -/
def Followed (runtime : Runtime) (node : Term) (records : List (Nat × Option Folded))
    (folded : Option Folded) (matched : Bool) (env : Env) (stale : List String) : Prop :=
  ∀ past ending history, Exec runtime (.term node) past ending history → Agrees env stale past →
    Tracked records past history
      ∧ ∀ value, ending = .done value → matched = true → Yields (folded.map Folded.value) value

/-- Every visit of a node that passes the audit is right about the executions of the node. -/
structure Sound (runtime : Runtime) (node : Term) : Prop where
  followed : ∀ mode env stale, (node.audit runtime mode env stale).sound = true →
    Followed runtime node (node.visit runtime.context mode env).records
      (node.visit runtime.context mode env).value (node.audit runtime mode env stale).matched env stale
  agrees : ∀ mode env stale, (node.audit runtime mode env stale).sound = true →
    ∀ past value history, Exec runtime (.term node) past (.done value) history →
      Agrees env stale past →
      Agrees (node.visit runtime.context mode env).env (node.audit runtime mode env stale).stale history

/-! ## §3. Children that start from a common environment. -/

theorem Followed.mono {runtime : Runtime} {node : Term} {records more : List (Nat × Option Folded)}
    {folded : Option Folded} {matched narrow : Bool} {env base : Env} {stale fresh : List String}
    (h : Followed runtime node records folded matched env stale)
    (hrecords : ∀ record ∈ records, record ∈ more) (hmatched : narrow = true → matched = true)
    (hagrees : ∀ history, Agrees base fresh history → Agrees env stale history) :
    Followed runtime node more folded narrow base fresh := by
  intro past ending history hexec hbase
  obtain ⟨htracked, hvalue⟩ := h past ending history hexec (hagrees past hbase)
  exact ⟨htracked.mono hrecords, fun value hdone hnarrow => hvalue value hdone (hmatched hnarrow)⟩

/-- The next child starts with no more knowledge than this one, apart from what this one writes where
    the visit carries environments on. -/
theorem restricts_after {runtime : Runtime} {node : Term} {discipline : Discipline} {mode : Mode}
    {env : Env} {stale more apart : List String}
    (hcarry : discipline.carries = true → ∀ name ∈ node.written, name ∈ apart) :
    Restricts env stale apart (discipline.after node env (node.visit runtime.context mode env).env)
      (discipline.staleAfter stale (node.audit runtime mode env (stale ++ more)).stale) := by
  intro name known hstale hapart hget
  cases discipline with
  | each => exact ⟨hstale, hget⟩
  | sequence =>
    have hname : name ∉ node.written := fun h => hapart (hcarry rfl name h)
    replace hget : (node.visit runtime.context mode env).env.get? name = some known := hget
    rw [node.get?_env_visit runtime.context mode env hname] at hget
    refine ⟨fun h => hstale ?_, hget⟩
    exact node.mem_stale_audit runtime mode env _ hname (List.mem_append_left _ h)
  | operands =>
    replace hget : (env.forget node.assigned).get? name = some known := hget
    rw [Env.get?_forget] at hget
    split at hget
    · cases hget
    · exact ⟨hstale, hget⟩
  | branches leading carry =>
    unfold Discipline.after at hget
    dsimp only at hget
    split at hget
    · next hcarried =>
      have hname : name ∉ node.written := fun h =>
        hapart (hcarry (by simp_all [Discipline.carries]) name h)
      rw [node.get?_env_visit runtime.context mode env hname] at hget
      exact ⟨hstale, hget⟩
    · exact ⟨hstale, hget⟩

/-- Each child is followed from the environment that the visit of the children starts with, apart from
    what the child is exposed to. -/
theorem followed_of_auditAll {runtime : Runtime} {children : List Term}
    (ih : ∀ child ∈ children, Sound runtime child) {exposed : List Term → Term → List String}
    {discipline : Discipline} {count : Nat} {env base : Env} {stale fresh : List String}
    {earlier : List Term}
    (hsound : (auditAll runtime exposed discipline count env stale earlier children).sound = true)
    (hcarry : discipline.carries = true → ∀ front child back, children = front ++ child :: back →
      ∀ name ∈ Term.writtenAll front, name ∈ exposed (earlier ++ front) child)
    (hbase : ∀ front child back, children = front ++ child :: back →
      Restricts base fresh (exposed (earlier ++ front) child) env stale)
    {front back : List Term} {child : Term} (hchildren : children = front ++ child :: back)
    (hcount : front.length < count) :
    Followed runtime child (visitAll runtime.context discipline count env children).records
      ((visitAll runtime.context discipline count env children).values[front.length]?).join
      (auditAll runtime exposed discipline count env stale earlier children).matched base
      (fresh ++ exposed (earlier ++ front) child) := by
  -- the invariant is `hbase`: wherever the visit has come to, it knows no more than `base` did, apart from
  -- what the child in question is exposed to
  induction children generalizing discipline count env stale earlier front with
  | nil => simp at hchildren
  | cons first rest ihrest =>
    cases count with
    | zero => cases hcount
    | succ count =>
      rw [auditAll] at hsound ⊢
      dsimp only at hsound
      rw [Bool.and_eq_true] at hsound
      rw [visitAll]
      cases front with
      | nil =>
        obtain ⟨rfl, rfl⟩ := List.cons.inj hchildren
        refine ((ih first List.mem_cons_self).followed _ _ _ hsound.1).mono
          (fun record hrecord => List.mem_append_left _ hrecord)
          (fun hmatched => (Bool.and_eq_true_iff.1 hmatched).1) fun history hagrees => ?_
        have hrestricts := hbase [] first rest rfl
        rw [List.append_nil] at hagrees hrestricts
        exact hrestricts.agrees hagrees
      | cons second front =>
        obtain ⟨rfl, hrest⟩ := List.cons.inj hchildren
        have hnext : discipline.next.carries = discipline.carries := by cases discipline <;> rfl
        have hfollowed := ihrest (fun other hother => ih other (List.mem_cons_of_mem _ hother)) hsound.2
          (by
            intro hcarries front child back hsplit name hname
            rw [List.append_assoc]
            refine hcarry (hnext ▸ hcarries) (first :: front) child back (by rw [hsplit]; rfl) name ?_
            exact List.mem_append_right _ hname)
          (by
            intro front child back hsplit
            rw [List.append_assoc]
            have hsplit' : first :: rest = (first :: front) ++ child :: back := by rw [hsplit]; rfl
            refine (hbase (first :: front) child back hsplit').trans
              (restricts_after fun hcarries name hname => ?_)
            exact hcarry hcarries (first :: front) child back hsplit' name (List.mem_append_left _ hname))
          hrest (by simpa using hcount)
        rw [List.append_assoc] at hfollowed
        exact hfollowed.mono (fun record hrecord => List.mem_append_right _ hrecord)
          (fun hmatched => (Bool.and_eq_true_iff.1 hmatched).2) fun _ h => h

/-- How an execution of nodes in turn goes: the first is abandoned or stops it, or the others follow. -/
theorem turns_cons_cases {runtime : Runtime} {node : Term} {nodes : List Term} {ending : Ending}
    {past history : History} (h : Exec runtime (.turns (node :: nodes)) past ending history) :
    (Exec runtime (.term node) past ending history ∧ ending.isAbrupt = true)
      ∨ ∃ value last between, Exec runtime (.term node) past (.done value) between
          ∧ Exec runtime (.turns nodes) between last history ∧ ending = last.prepend value := by
  cases h with
  | abandon => exact .inl ⟨.abandon, rfl⟩
  | turnsCons hfirst hothers => exact .inr ⟨_, _, _, hfirst, hothers, rfl⟩
  | turnsStop hfirst habrupt => exact .inl ⟨hfirst, habrupt⟩

/-- Values of nodes that were evaluated in turn are those that the nodes fold to, when `matched`. -/
def Aligned (nodes : List Term) (foldedAt : Nat → Option Folded) (matched : Bool) (values : List Value) :
    Prop :=
  values.length = nodes.length
    ∧ (matched = true → ∀ index folded, index < nodes.length → foldedAt index = some folded →
        ((contents values)[index]?).join = some folded.value)

/-- Nodes in turn are tracked when each is followed from a common environment, apart from what was
    written before it. -/
theorem tracked_turns {runtime : Runtime} {records : List (Nat × Option Folded)} {env : Env}
    {stale executed : List String} {nodes : List Term} {foldedAt : Nat → Option Folded} {matched : Bool}
    {apart : List Term → Term → List String} {ending : Ending} {past history : History}
    (hfollowed : ∀ front node back, nodes = front ++ node :: back →
      Followed runtime node records (foldedAt front.length) matched env (stale ++ apart front node))
    (hapart : ∀ front node back, nodes = front ++ node :: back →
      (∀ other ∈ front, other.completes = true) →
      ∀ name ∈ executed ++ Term.writtenAll front, name ∈ apart front node)
    (hexec : Exec runtime (.turns nodes) past ending history)
    (hagrees : Agrees env (stale ++ executed) past) :
    Tracked records past history
      ∧ ∀ values, ending = .all values → Aligned nodes foldedAt matched values := by
  -- from node to node `executed` grows by what was written, and the common environment stays as it is
  induction nodes generalizing past ending executed foldedAt apart with
  | nil =>
    cases hexec with
    | abandon => exact ⟨.start, fun values h => by cases h⟩
    | turnsNil =>
      refine ⟨.start, fun values h => ?_⟩
      obtain rfl := Ending.all.inj h
      exact ⟨rfl, fun _ index folded hindex => by cases hindex⟩
  | cons first rest ih =>
    have hfirst := hfollowed [] first rest rfl
    have hstart : Agrees env (stale ++ apart [] first) past := by
      refine hagrees.mono fun name hname => ?_
      rcases List.mem_append.1 hname with hstale | hexecuted
      · exact List.mem_append_left _ hstale
      · exact List.mem_append_right _ (hapart [] first rest rfl (by simp) name
          (List.mem_append_left _ hexecuted))
    rcases turns_cons_cases hexec with ⟨hstop, habrupt⟩ | ⟨value, last, between, hdone, hothers, rfl⟩
    · refine ⟨(hfirst past ending history hstop hstart).1, fun values h => ?_⟩
      subst h
      cases habrupt
    · obtain ⟨htracked, hvalue⟩ := hfirst past (.done value) between hdone hstart
      have hbetween := hagrees.exec hdone
      rw [List.append_assoc] at hbetween
      obtain ⟨hrest, haligned⟩ := @ih _ (fun index => foldedAt (index + 1))
        (fun front => apart (first :: front)) _ _
        (fun front node back hsplit => hfollowed (first :: front) node back (by rw [hsplit]; rfl))
        (fun front node back hsplit hcomplete name hname => by
          refine hapart (first :: front) node back (by rw [hsplit]; rfl) ?_ name ?_
          · intro other hother
            rcases List.mem_cons.1 hother with rfl | hother
            · exact completes_of_exec hdone rfl
            · exact hcomplete other hother
          · simpa [Term.writtenAll, Task.nodes] using hname)
        hothers hbetween
      refine ⟨htracked.trans hrest, fun values h => ?_⟩
      -- values are there only when all nodes were evaluated
      cases last with
      | all others =>
        obtain rfl := Ending.all.inj h
        obtain ⟨hlength, hvalues⟩ := haligned others rfl
        refine ⟨by simp [hlength], fun hmatched index folded hindex hfolded => ?_⟩
        cases index with
        | zero =>
          have hyields := hvalue value rfl hmatched folded.value
            (congrArg (Option.map Folded.value) hfolded)
          rw [hyields]
          rfl
        | succ index => exact hvalues hmatched index folded (by simpa using hindex) hfolded
      | _ => cases h

/-- Rounds of a loop are tracked when each of its nodes is followed, apart from all that they write. -/
theorem tracked_rounds {runtime : Runtime} {records : List (Nat × Option Folded)} {env : Env}
    {stale : List String} {nodes : List Term} {ending : Ending} {past history : History}
    (hfollowed : ∀ node ∈ nodes, ∃ folded matched,
      Followed runtime node records folded matched env (stale ++ Term.writtenAll nodes))
    (hexec : Exec runtime (.rounds nodes) past ending history)
    (hagrees : Agrees env (stale ++ Term.writtenAll nodes) past) : Tracked records past history := by
  generalize htask : Task.rounds nodes = task at hexec
  induction hexec with
  | abandon => exact .start
  | roundsEnd => exact .start
  | @roundsNext node others ending last past between history hmem hfirst _ _ _ ih =>
    obtain rfl := Task.rounds.inj htask
    obtain ⟨folded, matched, hnode⟩ := hfollowed node hmem
    refine ((hnode past ending between hfirst hagrees).1).trans (ih ?_ htask)
    -- what the round wrote is apart already
    refine (hagrees.exec hfirst).mono fun name hname => ?_
    rw [List.append_assoc, List.mem_append] at hname
    rcases hname with hstale | hwritten
    · exact List.mem_append_left _ hstale
    · refine List.mem_append_right _ ?_
      rcases List.mem_append.1 hwritten with h | h
      · exact h
      · obtain ⟨other, hother, hname⟩ := Term.mem_writtenAll.1 h
        obtain rfl := List.mem_singleton.1 hother
        exact Term.mem_writtenAll.2 ⟨other, hmem, hname⟩
  | @roundsStop node others ending past history hmem hfirst _ _ _ =>
    obtain rfl := Task.rounds.inj htask
    obtain ⟨folded, matched, hnode⟩ := hfollowed node hmem
    exact (hnode past ending history hfirst hagrees).1
  | _ => cases htask

/-! ## §4. Children that the environment is threaded through. -/

theorem visitAll_append (context : FoldContext) (mode : Mode) (env : Env) (front back : List Term)
    (count : Nat) :
    visitAll context (.sequence mode) (front.length + count) env (front ++ back)
      = let first := visitAll context (.sequence mode) front.length env front
        let others := visitAll context (.sequence mode) count first.env back
        ⟨first.records ++ others.records, others.env, first.values ++ others.values⟩ := by
  induction front generalizing env with
  | nil =>
    rw [List.nil_append, List.length_nil, Nat.zero_add, visitAll.eq_1]
    rfl
  | cons node front ih =>
    rw [List.cons_append, List.length_cons, Nat.add_right_comm, visitAll, visitAll]
    simp only [Discipline.next, Discipline.after]
    rw [ih]
    simp

theorem sound_auditAll_append {runtime : Runtime} {exposed : List Term → Term → List String}
    {mode : Mode} {env : Env} {stale : List String} {earlier front back : List Term} {count : Nat}
    (h : (auditAll runtime exposed (.sequence mode) (front.length + count) env stale earlier
      (front ++ back)).sound = true) :
    (auditAll runtime exposed (.sequence mode) front.length env stale earlier front).sound = true
      ∧ (auditAll runtime exposed (.sequence mode) count
          (visitAll runtime.context (.sequence mode) front.length env front).env
          (auditAll runtime exposed (.sequence mode) front.length env stale earlier front).stale
          (earlier ++ front) back).sound = true := by
  induction front generalizing env stale earlier with
  | nil =>
    rw [List.nil_append, List.length_nil, Nat.zero_add] at h
    rw [auditAll, visitAll, List.append_nil]
    exact ⟨rfl, h⟩
  | cons node front ih =>
    rw [List.cons_append, List.length_cons, Nat.add_right_comm, auditAll] at h
    simp only [Discipline.next, Discipline.after, Discipline.staleAfter, Bool.and_eq_true] at h
    obtain ⟨hnode, hothers⟩ := h
    obtain ⟨hfront, hback⟩ := ih hothers
    rw [List.append_assoc] at hback
    rw [List.length_cons, auditAll, visitAll]
    simp only [Discipline.next, Discipline.after, Discipline.staleAfter, Bool.and_eq_true]
    exact ⟨⟨hnode, hfront⟩, hback⟩

/-- Nodes in turn are tracked in step with the visit, and it agrees with what is behind them. -/
theorem tracked_sequence {runtime : Runtime} {nodes : List Term}
    (ih : ∀ node ∈ nodes, Sound runtime node) {exposed : List Term → Term → List String} {mode : Mode}
    {env : Env} {stale : List String} {earlier : List Term} {ending : Ending} {past history : History}
    (hexposed : ∀ front node back, nodes = front ++ node :: back → exposed (earlier ++ front) node = [])
    (hsound : (auditAll runtime exposed (.sequence mode) nodes.length env stale earlier nodes).sound
      = true)
    (hexec : Exec runtime (.turns nodes) past ending history) (hagrees : Agrees env stale past) :
    Tracked (visitAll runtime.context (.sequence mode) nodes.length env nodes).records past history
      ∧ ∀ values, ending = .all values →
          Agrees (visitAll runtime.context (.sequence mode) nodes.length env nodes).env
            (auditAll runtime exposed (.sequence mode) nodes.length env stale earlier nodes).stale
            history := by
  -- the visit and the execution go on together, so agreement itself is the invariant
  induction nodes generalizing env stale earlier past ending with
  | nil =>
    rw [visitAll, auditAll]
    cases hexec with
    | abandon => exact ⟨.start, fun values h => by cases h⟩
    | turnsNil => exact ⟨.start, fun _ _ => hagrees⟩
  | cons node nodes ihnodes =>
    have hnone := hexposed [] node nodes rfl
    rw [List.append_nil] at hnone
    rw [List.length_cons, auditAll] at hsound
    simp only [Discipline.next, Discipline.after, Discipline.staleAfter, Bool.and_eq_true, hnone,
      List.append_nil] at hsound
    have hnode := ih node List.mem_cons_self
    rw [List.length_cons, visitAll, auditAll]
    simp only [Discipline.next, Discipline.after, Discipline.staleAfter, hnone, List.append_nil]
    rcases turns_cons_cases hexec with ⟨hstop, habrupt⟩ | ⟨value, last, between, hdone, hothers, rfl⟩
    · refine ⟨?_, fun values h => by subst h; cases habrupt⟩
      exact ((hnode.followed _ _ _ hsound.1 past ending history hstop hagrees).1).mono
        fun record hrecord => List.mem_append_left _ hrecord
    · have hfirst := hnode.followed _ _ _ hsound.1 past _ between hdone hagrees
      have hbetween := hnode.agrees _ _ _ hsound.1 past value between hdone hagrees
      obtain ⟨htracked, hbehind⟩ := ihnodes (fun other hother => ih other (List.mem_cons_of_mem _ hother))
        (fun front other back hsplit => by
          rw [List.append_assoc]
          exact hexposed (node :: front) other back (by rw [hsplit]; rfl))
        hsound.2 hothers hbetween
      refine ⟨(hfirst.1.mono fun record hrecord => List.mem_append_left _ hrecord).trans
        (htracked.mono fun record hrecord => List.mem_append_right _ hrecord), fun values h => ?_⟩
      cases last with
      | all others => exact hbehind others rfl
      | _ => cases h

end Execution

end PatchPresence
