/-
  PatchPresence.Proofs.Folding.Consistency — what is found for operations, against what is found for their operands.

  Every node is visited at most once, and the operands of an operation are evaluated with what is known in front of it.
  So what is found for an operation can be checked from what is found for its operands, without folding anything again.

  Main results:
    * `foldKind_operation` — an operation is folded from the constants of its operands.
    * `SyntaxTree.Visited.values_operation` — the values of the operands are what is found for them.
    * `SyntaxTree.consistent_propagate` — what is found for the nodes of a tree is consistent, and found once.
-/
import PatchPresence.Proofs.Folding.Assignments

namespace PatchPresence

/-! ## §1. Operations. -/

namespace NodeKind

/-- The operands of an operation among the children of its node; none for other kinds of nodes. -/
def operands? (kind : NodeKind) (children : List Nat) : Option (List Nat) :=
  match kind with
  | .binary _ => some (children.take 2)
  | .unary op => if op.isStep then none else some (children.take 1)
  | .cast _ => some (children.take 1)
  | .conditional => some children
  | _ => none

/-- Constant of an operation, when its operands have constants and the operation is defined on them. -/
def result? (kind : NodeKind) (values : List (Option Constant)) : Option Constant :=
  match kind, values with
  | .binary op, [some left, some right] => Constant.binary op left right
  | .unary op, [some operand] => Constant.unary op operand
  | .cast type, [some operand] => Constant.cast type operand
  | .conditional, [some (.bool flag), some yes, some no] => some (if flag then yes else no)
  | _, _ => none

end NodeKind

/-- Whether a compiler would inline what an expression folds to. -/
def Folded.isInlined (folded : Option Folded) : Bool := (folded.map Folded.compileTime).getD false

theorem foldConditional_eq (parts : List (Option Folded)) :
    foldConditional parts = (NodeKind.conditional.result? (parts.map (·.map Folded.value))).map
      (⟨·, parts.all Folded.isInlined⟩) := by
  rcases parts with _ | ⟨condition, _ | ⟨yes, _ | ⟨no, _ | ⟨more, rest⟩⟩⟩⟩
  case cons.cons.cons.nil =>
    cases condition with
    | none => rfl
    | some condition =>
      obtain ⟨value, inlined⟩ := condition
      -- only a truth value selects, and only when both alternatives are constant
      cases value <;> cases yes <;> cases no <;> simp [foldConditional, NodeKind.result?, Folded.isInlined,
        Bool.and_assoc]
  all_goals simp [foldConditional, NodeKind.result?]

/-- An operation is folded from the constants of its operands, and inlined when they all are. -/
theorem foldKind_operation {kind : NodeKind} {ids operands : List Nat} (hoperands : kind.operands? ids = some operands)
    (context : FoldContext) (env : Env) (children : List Term) (found : Nat → Option Folded) :
    foldKind context env kind children (operands.map found)
      = (kind.result? (operands.map fun operand => (found operand).map Folded.value)).map
          (⟨·, operands.all fun operand => Folded.isInlined (found operand)⟩) := by
  cases kind with
  | binary op =>
    cases hoperands
    rcases ids with _ | ⟨left, _ | ⟨right, rest⟩⟩
    · rfl
    · cases hleft : found left <;> simp [foldKind, NodeKind.result?, hleft]
    · rw [List.take_succ_cons, List.take_succ_cons, List.take_zero]
      simp only [List.map_cons, List.map_nil, List.all_cons, List.all_nil, Bool.and_true]
      cases found left with
      | none => rfl
      | some first =>
        cases found right with
        | none => rfl
        | some second => exact (Option.map_eq_bind ..).symm
  | unary op =>
    unfold NodeKind.operands? at hoperands
    dsimp only at hoperands
    split at hoperands
    · cases hoperands
    · next hstep =>
      cases hoperands
      rcases ids with _ | ⟨operand, rest⟩
      · simp [foldKind, NodeKind.result?]
      · rw [foldKind, if_neg hstep, List.take_succ_cons, List.take_zero]
        simp only [List.map_cons, List.map_nil, List.all_cons, List.all_nil, Bool.and_true]
        cases found operand with
        | none => rfl
        | some folded => exact (Option.map_eq_bind ..).symm
  | cast type =>
    cases hoperands
    rcases ids with _ | ⟨operand, rest⟩
    · rfl
    · rw [List.take_succ_cons, List.take_zero]
      simp only [List.map_cons, List.map_nil, List.all_cons, List.all_nil, Bool.and_true]
      cases found operand with
      | none => rfl
      | some folded => exact (Option.map_eq_bind ..).symm
  | conditional =>
    cases hoperands
    show foldConditional _ = _
    rw [foldConditional_eq, List.map_map, List.all_map]
    rfl
  | _ => cases hoperands

/-! ## §2. Operations that are visited. -/

theorem NodeKind.take_of_operands? {kind : NodeKind} {ids operands : List Nat}
    (h : kind.operands? ids = some operands) :
    operands = ids.take ((Plan.expression .empty kind).count.getD ids.length) := by
  cases kind with
  | unary op =>
    unfold operands? at h
    dsimp only at h
    split at h
    · cases h
    · exact (Option.some.inj h).symm
  | binary | cast => exact (Option.some.inj h).symm
  | conditional =>
    cases h
    exact List.take_length.symm
  | _ => cases h

/-- An operation is an expression, whatever is wanted from it, and its operands are evaluated where it stands. -/
theorem Term.plan_of_operation {node : Term} {ids operands : List Nat} (h : node.kind.operands? ids = some operands)
    (mode : Mode) (env : Env) :
    mode.role node.kind = .expression
      ∧ node.plan mode env = ⟨.each .evaluate, (Plan.expression .empty node.kind).count, env⟩ := by
  unfold plan
  generalize node.kind = kind at h
  cases kind with
  | binary | unary | cast | conditional => cases mode <;> exact ⟨rfl, rfl⟩
  | _ => cases h

/-- Nodes that start from the same environment are all visited with it. -/
theorem Station.Turn.each {context : FoldContext} {mode : Mode} {count : Nat} {env : Env} {nodes : List Term}
    {node : Term} (h : node ∈ nodes.take count) : Turn context (.each mode) count env nodes ⟨mode, env, node⟩ := by
  induction nodes generalizing count with
  | nil => simp at h
  | cons first rest ih =>
    cases count with
    | zero => simp at h
    | succ count =>
      rcases List.mem_cons.1 h with rfl | h
      · exact .first
      · exact .later (ih h)

namespace SyntaxTree

variable {tree : SyntaxTree} {library : LibraryConstants}

/-- What an operation finds for its operands is what the tree does. -/
theorem Visited.values_operation (hvalid : tree.validate = .ok ()) {mode : Mode} {env : Env} {node : Term}
    (h : tree.Visited library ⟨mode, env, node⟩) {operands : List Nat}
    (hoperands : node.kind.operands? (tree.children node.id) = some operands) :
    (node.visitParts (tree.foldContext library) mode env).values
      = operands.map fun operand => ((tree.propagate library).values.get? operand).join := by
  have hforest : tree.IsForest := validate_eq_ok_iff.1 hvalid
  have hplan := (Term.plan_of_operation hoperands mode env).2
  have hids := hforest.map_id_children (h.term? hforest)
  have hlength : node.children.length = (tree.children node.id).length := by rw [← hids, List.length_map]
  unfold Term.visitParts Term.visitCount
  rw [hplan, Term.values_visitAll_each, NodeKind.take_of_operands? hoperands, ← hlength, ← hids, ← List.map_take,
    List.map_map]
  refine List.map_congr_left fun child hchild => ?_
  refine Eq.symm (Visited.join_get?_evaluate hvalid (h.leadsTo (.child ?_ .self)))
  unfold Station.Child Term.visitCount
  dsimp only
  rw [hplan]
  exact .each hchild

/-- What is found for an operation is folded from what is found for its operands. -/
theorem join_get?_operation (hvalid : tree.validate = .ok ()) {id : Nat} {kind : NodeKind}
    (hkind : tree.kind? id = some kind) {operands : List Nat}
    (hoperands : kind.operands? (tree.children id) = some operands)
    (hfound : ((tree.propagate library).values.get? id).isSome = true) :
    ((tree.propagate library).values.get? id).join
      = (kind.result? (operands.map (tree.propagate library).value?)).map
          (⟨·, operands.all (tree.propagate library).isCompileTime⟩) := by
  have hforest : tree.IsForest := validate_eq_ok_iff.1 hvalid
  obtain ⟨result, hget⟩ := Option.isSome_iff_exists.1 hfound
  obtain ⟨node, hnode, rfl, rfl⟩ := hforest.exists_term?_of_kind? hkind
  obtain ⟨mode, env, hvisited, hadds⟩ := exists_adds_of_get? hvalid hnode hget
  have hrole := (Term.plan_of_operation hoperands mode env).1
  rw [hget, Option.join_some, hadds.eq (Station.adds_of_expression hrole)]
  unfold Station.parts
  dsimp only
  rw [hvisited.values_operation hvalid hoperands, foldKind_operation hoperands]
  rfl

/-! ## §3. The whole tree. -/

/-- What is found for operations is what their operators make of what is found for their operands, and no mark stands at
    a node without a constant. -/
structure IsConsistent (tree : SyntaxTree) (binding : ConstantBinding) : Prop where
  value?_eq : ∀ id kind operands, tree.kind? id = some kind → kind.operands? (tree.children id) = some operands →
    (binding.values.get? id).isSome = true → binding.value? id = kind.result? (operands.map binding.value?)
  isCompileTime_iff : ∀ id kind operands, tree.kind? id = some kind →
    kind.operands? (tree.children id) = some operands → (binding.values.get? id).isSome = true →
    (binding.isCompileTime id = true
      ↔ (binding.value? id).isSome = true ∧ ∀ operand ∈ operands, binding.isCompileTime operand = true)
  isSome_of_isCompileTime : ∀ id, binding.isCompileTime id = true → (binding.value? id).isSome = true

/-- All that is put on record when a tree is folded, in order. -/
def records (tree : SyntaxTree) (library : LibraryConstants) : List (Nat × Option Folded) :=
  tree.forest.flatMap fun root => (root.visit (tree.foldContext library) .declare .empty).records

theorem nodup_records (hvalid : tree.validate = .ok ()) : ((tree.records library).map Prod.fst).Nodup := by
  unfold records
  rw [← records_visitAll_each]
  exact Term.nodup_records_visitAll (fun child _ => Term.nodup_records _ child) (tree.nodup_ids_forest hvalid)

theorem isSome_value?_of_isCompileTime {binding : ConstantBinding} {id : Nat}
    (h : binding.isCompileTime id = true) : (binding.value? id).isSome = true := by
  unfold ConstantBinding.isCompileTime at h
  unfold ConstantBinding.value?
  cases hfound : (binding.values.get? id).join with
  | none =>
    rw [hfound] at h
    cases h
  | some folded => rfl

/-- Folding a valid tree finds for every binary operation, every unary operation that is no step, every cast and every
    conditional expression what its operator makes of what is found for its operands, marks it just when it has a
    constant and all its operands are marked, marks no node without a constant, and puts no node on record twice. -/
theorem consistent_propagate {tree : SyntaxTree} (hvalid : tree.validate = .ok ()) (library : LibraryConstants) :
    tree.IsConsistent (tree.propagate library)
      ∧ tree.propagate library = ⟨.ofList (tree.records library)⟩
      ∧ ((tree.records library).map Prod.fst).Nodup := by
  refine ⟨⟨?_, ?_, fun _ => isSome_value?_of_isCompileTime⟩, rfl, nodup_records hvalid⟩
  · intro id kind operands hkind hoperands hfound
    have hjoin := join_get?_operation hvalid hkind hoperands hfound
    rw [ConstantBinding.value?, hjoin, Option.map_map]
    exact congrFun Option.map_id _
  · intro id kind operands hkind hoperands hfound
    have hjoin := join_get?_operation hvalid hkind hoperands hfound
    rw [ConstantBinding.isCompileTime, ConstantBinding.value?, hjoin]
    cases kind.result? (operands.map (tree.propagate library).value?) with
    | none => simp
    | some value => simp

/-- A method with `final int x = 3; return x < 4 ? -x : (long) x;`. -/
def selection : SyntaxTree := ofKinds [
  (none, .classDecl "Sample"), (some 0, .method "run" "()J" true), (some 1, .block),
  (some 2, .localDecl "x" "int" true), (some 3, .literal (.int 3)),
  (some 2, .returnStmt), (some 5, .conditional),
  (some 6, .binary .lt), (some 7, .localRead "x"), (some 7, .literal (.int 4)),
  (some 6, .unary .neg), (some 10, .localRead "x"),
  (some 6, .cast "long"), (some 12, .localRead "x")]

/-- The selected alternative is found for the conditional expression, and marked as all of its parts are. -/
theorem consistent_propagate_selection :
    (selection.propagate .empty).value? 7 = some (.bool true)
      ∧ (selection.propagate .empty).value? 10 = some (.int (-3))
      ∧ (selection.propagate .empty).value? 12 = some (.long 3)
      ∧ (selection.propagate .empty).value? 6 = some (.int (-3))
      ∧ (selection.propagate .empty).isCompileTime 6 = true
      ∧ ((selection.records .empty).map Prod.fst).Nodup := by
  have hvalid : selection.validate = .ok () := eq_ok_of_toOption (by decide +kernel)
  obtain ⟨hconsistent, -, hnodup⟩ := consistent_propagate hvalid .empty
  have hkind : selection.kind? 6 = some .conditional := by decide +kernel
  have hoperands : NodeKind.conditional.operands? (selection.children 6) = some [7, 10, 12] := by decide +kernel
  have hfound : ((selection.propagate .empty).values.get? 6).isSome = true := by decide +kernel
  have hvalues : [7, 10, 12].map (selection.propagate .empty).value?
      = [some (.bool true), some (.int (-3)), some (.long 3)] := by decide +kernel
  have hvalue := hconsistent.value?_eq 6 _ _ hkind hoperands hfound
  rw [hvalues] at hvalue
  simp only [List.map_cons, List.map_nil, List.cons.injEq] at hvalues
  refine ⟨hvalues.1, hvalues.2.1, hvalues.2.2.1, hvalue, ?_, hnodup⟩
  refine (hconsistent.isCompileTime_iff 6 _ _ hkind hoperands hfound).2 ⟨by rw [hvalue]; rfl, ?_⟩
  decide +kernel

end SyntaxTree

end PatchPresence
