/-
  PatchPresence.Proofs.Folding.Forgotten — variables that nothing is known of behind control flow.

  What is assigned under a statement with control flow is forgotten when that statement ends. From there on a
  variable stays unknown until it is declared or assigned again: environments are copied, handed down and
  started afresh on the way, but only declarations and assignments put a variable into one.

  Main results:
    * `Term.staysUnknown_of_unset` — a visit that starts without a variable learns nothing of it.
    * `SyntaxTree.value?_behind_control` — reads behind a statement with control flow are not constant.
-/
import PatchPresence.Proofs.Folding.Visited
import PatchPresence.Proofs.KeyOrder

namespace PatchPresence

namespace Term

/-! ## §1. Variables that stay unknown. -/

/-- A variable is neither declared nor assigned at or below a node. -/
def Unset (name : String) (term : Term) : Prop := ∀ part : Term, part.Within term → part.target? ≠ some name

/-- A record about a node of a term, which gives no value to a read of a variable. -/
def Silent (name : String) (term : Term) (record : Nat × Option Folded) : Prop :=
  ∃ part : Term, part.Within term ∧ part.id = record.1 ∧ (part.kind = .localRead name → record.2 = none)

/-- A visit that starts without a variable ends without it, and gives no value to reads of it. -/
def StaysUnknown (context : FoldContext) (name : String) (term : Term) : Prop :=
  ∀ mode (env : Env), env.get? name = none →
    (term.visit context mode env).env.get? name = none
      ∧ ∀ record ∈ (term.visit context mode env).records, term.Silent name record

variable {context : FoldContext} {name : String}

/-- A variable that is neither declared nor assigned below a node stays unknown there. -/
theorem staysUnknown_of_unset (term : Term) (h : term.Unset name) : term.StaysUnknown context name := by
  intro mode env henv
  obtain ⟨hbehind, hstations⟩ := Station.meets_of_leadsTo term mode env (.of_none henv)
    fun station known hlead _ hstores => h station.node hlead.within hstores.target
  refine ⟨hbehind.get?_eq_none, fun record hrecord => ?_⟩
  obtain ⟨last, hlead, hid, hadds⟩ := Station.exists_adds_of_record term mode env record hrecord
  refine ⟨last.node, hlead.within, hid, fun hread => ?_⟩
  rw [hadds.known_of_localRead hread, (hstations last hlead).get?_eq_none, Option.map_none]

end Term

/-! ## §2. Blocks. -/

/-- Whether a node is a statement whose parts may or may not run, or run under a lock. -/
def NodeKind.isControl : NodeKind → Bool
  | .ifStmt | .loop _ | .switch | .tryStmt | .synchronizedStmt => true
  | _ => false

namespace Term

variable {context : FoldContext} {name : String}

/-- Behind a statement with control flow nothing is known of what it assigns. -/
theorem get?_env_of_isControl {control : Term} (hcontrol : control.kind.isControl = true)
    (hassigned : name ∈ control.assigned) (env : Env) :
    (control.visit context .execute env).env.get? name = none := by
  have henv : (control.visit context .execute env).env = env.forget control.assigned := by
    obtain ⟨id, kind, children⟩ := control
    rw [visit_node]
    dsimp only
    cases kind with
    | ifStmt | loop | switch | tryStmt | synchronizedStmt =>
      rw [Visit.env_finish_of_statement rfl]
      rfl
    | _ => cases hcontrol
  rw [henv, Env.get?_forget, if_pos hassigned]

/-- A block is a sequence of statements, whatever is wanted from it. -/
theorem records_visit_block {block : Term} (hblock : block.kind = .block) (mode : Mode) (env : Env) :
    (block.visit context mode env).records
      = (visitAll context (.sequence .execute) block.children.length env block.children).records := by
  obtain ⟨id, kind, children⟩ := block
  obtain rfl : kind = .block := hblock
  rw [visit_node]
  cases mode <;> rfl

/-- In a block, a read behind a statement with control flow has no value when the statement assigns the variable
    and nothing sets it again. -/
theorem silent_behind_control {block control later : Term} {front between behind : List Term}
    (hblock : block.kind = .block) (hchildren : block.children = front ++ control :: (between ++ later :: behind))
    (hcontrol : control.kind.isControl = true) (hassigned : name ∈ control.assigned)
    (hbetween : ∀ node ∈ between, node.Unset name) (hlater : later.Unset name) (hnodup : block.ids.Nodup)
    {mode : Mode} {env : Env} {record : Nat × Option Folded}
    (hrecord : record ∈ (block.visit context mode env).records) (hid : record.1 ∈ later.ids) :
    later.Silent name record := by
  have hsplit : block.children = (front ++ control :: between) ++ later :: behind := by
    rw [hchildren, List.append_assoc, List.cons_append]
  have hbelow : (idsAll block.children).Nodup := nodup_idsAll_children hnodup
  rw [records_visit_block hblock, hsplit] at hrecord
  rw [hsplit] at hbelow
  -- the statement with control flow forgets the variable, and nothing up to the later one sets it
  have hunknown : (visitAll context (.sequence .execute) (front ++ control :: between).length env
      (front ++ control :: between)).env.get? name = none := by
    rw [List.length_append, Execution.visitAll_append]
    dsimp only
    generalize (visitAll context (.sequence .execute) front.length env front).env = start
    rw [List.length_cons, visitAll]
    refine (Station.meets_visitAll (.of_none ?_) fun station hturn hmeets => .of_none ?_).1.get?_eq_none
    · exact get?_env_of_isControl hcontrol hassigned _
    · exact (staysUnknown_of_unset _ (hbetween _ hturn.mem) _ _ hmeets.get?_eq_none).1
  exact (staysUnknown_of_unset later hlater .execute _ hunknown).2 record
    (mem_records_of_sequence hbelow hid hrecord)

end Term

/-! ## §3. Trees. -/

/-- Whether a node declares or assigns a variable. -/
def NodeKind.sets (name : String) : NodeKind → Bool
  | .localDecl declared _ _ => declared = name
  | .assign target _ => target = name
  | _ => false

namespace SyntaxTree

variable {tree : SyntaxTree} {library : LibraryConstants}

/-- At and below a node a variable is neither declared nor assigned. -/
def Unset (tree : SyntaxTree) (name : String) (id : Nat) : Prop :=
  ∀ node ∈ tree.descendants id, tree.has (NodeKind.sets name) node = false

theorem IsForest.unset_term? (h : tree.IsForest) {name : String} {id : Nat} (hunset : tree.Unset name id)
    {term : Term} (hterm : tree.term? id = some term) : term.Unset name := by
  intro part hpart htarget
  obtain ⟨hbelow, hview⟩ := h.below_of_within hpart hterm
  have hnot := hunset part.id ((h.mem_descendants_iff (lt_of_term? hterm) _).2 hbelow)
  rw [has, (h.of_term? hview).2.1] at hnot
  rcases Term.kind_of_target htarget with ⟨type, isFinal, hkind⟩ | ⟨op, hkind⟩
  · simp [hkind, NodeKind.sets] at hnot
  · simp [hkind, NodeKind.sets] at hnot

/-- A read has no value when no visit of a node above it gives it one. -/
theorem value?_of_silent (hvalid : tree.validate = .ok ()) {top inner id : Nat} {whole part : Term}
    (hwhole : tree.term? top = some whole) (hpart : tree.term? inner = some part)
    (hinner : tree.Below top inner) (hid : tree.Below inner id) {name : String}
    (hread : tree.kind? id = some (.localRead name))
    (hsilent : whole.ids.Nodup → ∀ mode env,
      ∀ record ∈ (whole.visit (tree.foldContext library) mode env).records, record.1 ∈ part.ids →
        part.Silent name record) :
    (tree.propagate library).value? id = none := by
  have hforest : tree.IsForest := validate_eq_ok_iff.1 hvalid
  cases hvalue : (tree.propagate library).value? id with
  | none => rfl
  | some value =>
    obtain ⟨folded, hget, -⟩ := get?_of_value? hvalue
    -- the record was made when the node above was visited
    obtain ⟨mode, env, -, hnodup, hrecord⟩ := exists_visited_of_get? hvalid hwhole
      (hforest.mem_ids_term? (hinner.trans hid) hwhole) hget
    obtain ⟨node, hnode, heq, hnone⟩ := hsilent hnodup mode env _ hrecord
      (hforest.mem_ids_term? hid hpart)
    -- it is about the read itself, so it has no value
    have hkind := (hforest.of_term? (hforest.below_of_within hnode hpart).2).2.1
    rw [heq, hread] at hkind
    cases hnone (Option.some.inj hkind).symm

/-- In a block, no read of a variable is constant behind a statement with control flow that assigns the variable,
    as long as it is neither declared nor assigned again. -/
theorem value?_behind_control {tree : SyntaxTree} (hvalid : tree.validate = .ok ())
    (library : LibraryConstants) {block control later : Nat} {front between behind : List Nat}
    (hblock : tree.kind? block = some .block)
    (hchildren : tree.children block = front ++ control :: (between ++ later :: behind))
    (hcontrol : tree.has NodeKind.isControl control = true) {name : String}
    (hassigned : name ∈ tree.assignedLocals control)
    (hunset : ∀ child ∈ between ++ [later], tree.Unset name child) :
    ∀ id ∈ tree.descendants later, tree.kind? id = some (.localRead name) →
      (tree.propagate library).value? id = none := by
  intro id hid hread
  have hforest : tree.IsForest := validate_eq_ok_iff.1 hvalid
  have hcontrolMem : control ∈ tree.children block := by simp [hchildren]
  have hlaterMem : later ∈ tree.children block := by simp [hchildren]
  have hlaterLt : later < tree.size := hforest.lt_of_child hlaterMem
  obtain ⟨whole, hwhole⟩ := hforest.exists_term? (lt_size_of_mem_children hlaterMem)
  obtain ⟨first, hfirst⟩ := hforest.exists_term? (hforest.lt_of_child hcontrolMem)
  obtain ⟨last, hlast⟩ := hforest.exists_term? hlaterLt
  obtain ⟨-, hwholeKind, hwholeChildren⟩ := hforest.of_term? hwhole
  have hparts : whole.children = front.filterMap tree.term?
      ++ first :: (between.filterMap tree.term? ++ last :: behind.filterMap tree.term?) := by
    rw [hwholeChildren, hchildren, List.filterMap_append, List.filterMap_cons_some hfirst,
      List.filterMap_append, List.filterMap_cons_some hlast]
  have hkind : first.kind.isControl = true := by
    rwa [has, (hforest.of_term? hfirst).2.1] at hcontrol
  have hmem : name ∈ first.assigned := by
    rw [assignedLocals, hfirst] at hassigned
    exact (Ascending.mem_ofList _ _).1 hassigned
  have hbetween : ∀ node ∈ between.filterMap tree.term?, node.Unset name := by
    intro node hnode
    obtain ⟨child, hchild, hview⟩ := List.mem_filterMap.1 hnode
    exact hforest.unset_term? (hunset child (List.mem_append_left _ hchild)) hview
  have hlater : last.Unset name :=
    hforest.unset_term? (hunset later (List.mem_append_right _ List.mem_cons_self)) hlast
  refine value?_of_silent hvalid hwhole hlast (.child .self hlaterMem)
    ((hforest.mem_descendants_iff hlaterLt id).1 hid) hread fun hnodup mode env record => ?_
  exact Term.silent_behind_control (Option.some.inj (hwholeKind.symm.trans hblock)) hparts hkind hmem
    hbetween hlater hnodup

theorem IsForest.unset_of_closed (h : tree.IsForest) {name : String} {id : Nat} {nodes : List Nat}
    (hid : id < tree.size) (hmem : id ∈ nodes) (hclosed : ∀ a ∈ nodes, ∀ b ∈ tree.children a, b ∈ nodes)
    (hsets : ∀ a ∈ nodes, tree.has (NodeKind.sets name) a = false) : tree.Unset name id :=
  fun node hnode => hsets node (h.descendants_subset hid hmem hclosed hnode)

/-- A method with `int x = 1; use(x); if (flag) { x = 2; } x++; return x;`. -/
def guardedWrite : SyntaxTree := ofKinds [
  (none, .classDecl "Sample"), (some 0, .method "run" "()I" true), (some 1, .block),
  (some 2, .localDecl "x" "int" false), (some 3, .literal (.int 1)),
  (some 2, .exprStmt), (some 5, .invocation "Sample" "use" 1 false), (some 6, .localRead "x"),
  (some 2, .ifStmt), (some 8, .localRead "flag"), (some 8, .block), (some 10, .exprStmt),
  (some 11, .assign "x" none), (some 12, .literal (.int 2)),
  (some 2, .exprStmt), (some 14, .unary .postIncrement), (some 15, .localRead "x"),
  (some 2, .returnStmt), (some 17, .localRead "x")]

/-- The variable is known in front of the branch and not behind it. -/
theorem value?_behind_control_guardedWrite :
    guardedWrite.validate = .ok () ∧ guardedWrite.children 2 = [3, 5] ++ 8 :: ([14] ++ 17 :: [])
      ∧ (guardedWrite.propagate .empty).value? 7 = some (.int 1)
      ∧ (guardedWrite.propagate .empty).value? 18 = none := by
  have hvalid : guardedWrite.validate = .ok () := eq_ok_of_toOption (by decide +kernel)
  have hforest : guardedWrite.IsForest := validate_eq_ok_iff.1 hvalid
  have hchildren : guardedWrite.children 2 = [3, 5] ++ 8 :: ([14] ++ 17 :: []) := by decide +kernel
  have hunset : ∀ child ∈ [14] ++ [17], guardedWrite.Unset "x" child := by
    have hcounter : guardedWrite.Unset "x" 14 := hforest.unset_of_closed (by decide +kernel)
      (by decide : 14 ∈ [14, 15, 16]) (by decide +kernel) (by decide +kernel)
    have hresult : guardedWrite.Unset "x" 17 := hforest.unset_of_closed (by decide +kernel)
      (by decide : 17 ∈ [17, 18]) (by decide +kernel) (by decide +kernel)
    simpa using ⟨hcounter, hresult⟩
  have hread : 18 ∈ guardedWrite.descendants 17 :=
    (hforest.mem_descendants_iff (by decide +kernel) 18).2 (.child .self (by decide +kernel))
  exact ⟨hvalid, hchildren, by decide +kernel, value?_behind_control hvalid .empty (by decide +kernel) hchildren
    (by decide +kernel) (by decide +kernel) hunset 18 hread (by decide +kernel)⟩

end SyntaxTree

end PatchPresence
