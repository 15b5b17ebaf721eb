/-
  PatchPresence.Proofs.Folding.Assignments — assignments as statements and as expressions.

  A statement that assigns records what its operator makes of the known value and of the operand. The same assignment
  inside an expression records the operand alone. The two agree on plain assignments, and wherever the operand has no
  constant; a compound assignment whose operand has one must give that one back.

  Main results:
    * `SyntaxTree.Visited.join_get?_evaluate` — what is found for a node that is evaluated is its value.
    * `SyntaxTree.Visited.value?_assign`, `SyntaxTree.Visited.value?_assign_evaluate` — what the two record.
    * `SyntaxTree.value?_assignment_iff` — when the two agree.
    * `SyntaxTree.value?_assignment_addition` — an addition on which they do not.
-/
import PatchPresence.Proofs.Folding.Values
import PatchPresence.Proofs.Folding.Visited

namespace PatchPresence

/-! ## §1. Stations of assignments. -/

namespace Station

variable {context : FoldContext}

/-- Statements add no record of their own. -/
theorem not_adds_of_isStatement {station : Station} (h : station.node.kind.isStatement = true)
    (result : Option Folded) : ¬ station.Adds context result := by
  intro hadds
  have hrole : station.mode.role station.node.kind = .statement := by
    generalize station.node.kind = kind at h
    cases station.mode <;> cases kind <;> first | rfl | cases h
  have hrecords : (station.visit context).records = (station.parts context).records := by
    unfold visit
    rw [Term.visit_eq]
    unfold Visit.finish
    rw [hrole]
    dsimp only
    split
    · next hkind =>
      rw [hkind] at h
      cases h
    · rfl
  rw [Adds, hrecords] at hadds
  simp at hadds

/-- A statement that assigns adds the new value of its variable. -/
theorem adds_of_assign {station : Station} {target : String} {op : Option BinaryOp}
    (hkind : station.node.kind = .assign target op) (hmode : station.mode ≠ .evaluate) :
    station.Adds context ((assignedValue (station.parts context).env target op
      ((station.parts context).values[0]?).join).map (⟨·, false⟩)) := by
  obtain ⟨mode, env, node⟩ := station
  unfold Adds visit
  rw [Term.visit_eq, hkind]
  cases mode with
  | evaluate => exact absurd rfl hmode
  | _ => rfl

theorem Turn.mode_of_sequence {mode : Mode} {count : Nat} {env : Env} {nodes : List Term} {station : Station}
    (h : Turn context (.sequence mode) count env nodes station) : station.mode = mode := by
  generalize hdiscipline : Discipline.sequence mode = discipline at h
  induction h with
  | first =>
    subst hdiscipline
    rfl
  | later _ ih =>
    subst hdiscipline
    exact ih rfl

end Station

namespace Term

variable {context : FoldContext} {node : Term} {target : String} {op : Option BinaryOp}

theorem target?_of_assign (hkind : node.kind = .assign target op) : node.target? = some target := by
  rw [target?, hkind]

/-- As a statement, a declaration or assignment evaluates its operand and forgets what that assigns. -/
theorem visitParts_of_target (htarget : node.target? = some target) {mode : Mode} (hmode : mode ≠ .evaluate)
    (env : Env) : node.visitParts context mode env = visitAll context .operands 1 env node.children := by
  unfold visitParts visitCount plan
  rcases kind_of_target htarget with ⟨type, isFinal, hkind⟩ | ⟨op, hkind⟩
  · rw [hkind]
    cases mode <;> rfl
  · rw [hkind]
    cases mode with
    | evaluate => exact absurd rfl hmode
    | _ => rfl

/-- As an expression, an assignment evaluates its operand. -/
theorem visitParts_assign_evaluate (hkind : node.kind = .assign target op) (env : Env) :
    node.visitParts context .evaluate env = visitAll context (.each .evaluate) 1 env node.children := by
  unfold visitParts visitCount plan
  rw [hkind]
  rfl

theorem visitAll_one (discipline : Discipline) (env : Env) (first : Term) (rest : List Term) :
    visitAll context discipline 1 env (first :: rest)
      = let visited := first.visit context (discipline.mode first.kind) env
        ⟨visited.records, discipline.after first env visited.env, [visited.value]⟩ := by
  have hnone : ∀ (others : Discipline) (env : Env), visitAll context others 0 env rest = ⟨[], env, []⟩ := by
    intro others env
    cases rest <;> rw [visitAll]
  rw [visitAll, hnone]
  dsimp only
  rw [List.append_nil]

/-- The operand of a declaration or assignment is evaluated with what is known in front of it. -/
theorem child_operand_of_target (htarget : node.target? = some target) {operand : Term} {rest : List Term}
    (hchildren : node.children = operand :: rest) (mode : Mode) (env : Env) :
    Station.Child context ⟨mode, env, node⟩ ⟨.evaluate, env, operand⟩ := by
  unfold Station.Child visitCount plan
  dsimp only
  rw [hchildren]
  rcases kind_of_target htarget with ⟨type, isFinal, hkind⟩ | ⟨op, hkind⟩
  · rw [hkind]
    cases mode <;> exact .first
  · rw [hkind]
    cases mode <;> exact .first

end Term

namespace SyntaxTree

variable {tree : SyntaxTree} {library : LibraryConstants}

/-! ## §2. What is found at a station. -/

theorem Visited.get?_of_adds (hvalid : tree.validate = .ok ()) {station : Station}
    (h : tree.Visited library station) {result : Option Folded}
    (hadds : station.Adds (tree.foldContext library) result) :
    (tree.propagate library).values.get? station.node.id = some result := by
  refine h.get?_of_record hvalid ?_
  rw [hadds]
  exact List.mem_append_right _ List.mem_cons_self

theorem Visited.value?_of_adds (hvalid : tree.validate = .ok ()) {station : Station}
    (h : tree.Visited library station) {result : Option Folded}
    (hadds : station.Adds (tree.foldContext library) result) :
    (tree.propagate library).value? station.node.id = result.map Folded.value := by
  rw [ConstantBinding.value?, h.get?_of_adds hvalid hadds]
  rfl

/-- What is found for a node was added where the node was visited. -/
theorem exists_adds_of_get? (hvalid : tree.validate = .ok ()) {id : Nat} {node : Term}
    (hnode : tree.term? id = some node) {result : Option Folded}
    (hget : (tree.propagate library).values.get? id = some result) :
    ∃ mode env, tree.Visited library ⟨mode, env, node⟩
      ∧ Station.Adds (tree.foldContext library) ⟨mode, env, node⟩ result := by
  have hforest : tree.IsForest := validate_eq_ok_iff.1 hvalid
  obtain rfl := (hforest.of_term? hnode).1
  obtain ⟨mode, env, hvisited, -, hrecord⟩ := exists_visited_of_get? hvalid hnode node.id_mem_ids hget
  obtain ⟨⟨last, start, other⟩, hlead, hid, hadds⟩ := Station.exists_adds_of_record node _ _ _ hrecord
  -- the record is about the node itself, so it was added there
  have hview := (hvisited.leadsTo hlead).term? hforest
  rw [hid, hnode] at hview
  obtain rfl := Option.some.inj hview
  exact ⟨last, start, hvisited.leadsTo hlead, hadds⟩

/-- What is found for a node that is evaluated is its value; nothing is found for a statement. -/
theorem Visited.join_get?_evaluate (hvalid : tree.validate = .ok ()) {env : Env} {node : Term}
    (h : tree.Visited library ⟨.evaluate, env, node⟩) :
    ((tree.propagate library).values.get? node.id).join
      = (node.visit (tree.foldContext library) .evaluate env).value := by
  cases hstatement : node.kind.isStatement with
  | false =>
    have hrole : Mode.evaluate.role node.kind = .expression := by simp [Mode.role, hstatement]
    rw [(Term.visit_of_expression hrole).1, h.get?_of_adds hvalid (Station.adds_of_expression hrole)]
    rfl
  | true =>
    rw [Term.value_evaluate, if_pos hstatement]
    cases hget : (tree.propagate library).values.get? node.id with
    | none => rfl
    | some result =>
      obtain ⟨mode, start, -, hadds⟩ :=
        exists_adds_of_get? hvalid (h.term? (validate_eq_ok_iff.1 hvalid)) hget
      exact absurd hadds (Station.not_adds_of_isStatement hstatement result)

theorem Visited.value?_evaluate (hvalid : tree.validate = .ok ()) {env : Env} {node : Term}
    (h : tree.Visited library ⟨.evaluate, env, node⟩) :
    (tree.propagate library).value? node.id
      = (node.visit (tree.foldContext library) .evaluate env).value.map Folded.value := by
  rw [ConstantBinding.value?, h.join_get?_evaluate hvalid]

/-- A child is visited when its parent is, and in no other way. -/
theorem Visited.exists_parent (hforest : tree.IsForest) {station : Station} (h : tree.Visited library station)
    {owner : Nat} (howner : station.node.id ∈ tree.children owner) :
    ∃ parent, tree.Visited library parent ∧ parent.node.id = owner
      ∧ parent.Child (tree.foldContext library) station := by
  obtain ⟨root, hroot, hlead⟩ := h
  rcases hlead.cases_last with rfl | ⟨parent, hparent, hchild⟩
  · obtain ⟨top, htop, hview⟩ := List.mem_flatMap.1 hroot
    rw [← toList_term? (hforest.lt_of_root htop), Option.mem_toList] at hview
    have hnone := hforest.rootParent top htop
    rw [← (hforest.of_term? hview).1, hforest.parent_of_child howner] at hnone
    cases hnone
  · have hvisited : tree.Visited library parent := ⟨root, hroot, hparent⟩
    refine ⟨parent, hvisited, ?_, hchild⟩
    have hmem : station.node ∈ (tree.children parent.node.id).filterMap tree.term? := by
      rw [← (hforest.of_term? (hvisited.term? hforest)).2.2]
      exact hchild.mem
    obtain ⟨id, hid, hview⟩ := List.mem_filterMap.1 hmem
    rw [← (hforest.of_term? hview).1] at hid
    exact Option.some.inj ((hforest.parent_of_child hid).symm.trans (hforest.parent_of_child howner))

/-- The view of what is visited has the children of the node at its position. -/
theorem Visited.children_cases (hforest : tree.IsForest) {station : Station} (h : tree.Visited library station) :
    (tree.children station.node.id = [] ∧ station.node.children = [])
      ∨ ∃ first rest view, tree.children station.node.id = first :: rest ∧ tree.term? first = some view
          ∧ station.node.children = view :: rest.filterMap tree.term? := by
  have hchildren := (hforest.of_term? (h.term? hforest)).2.2
  cases hids : tree.children station.node.id with
  | nil => exact .inl ⟨rfl, by rw [hchildren, hids, List.filterMap_nil]⟩
  | cons first rest =>
    have hlt : first < tree.size := hforest.lt_of_child (by simp [hids] : first ∈ tree.children station.node.id)
    obtain ⟨view, hview⟩ := hforest.exists_term? hlt
    exact .inr ⟨first, rest, view, rfl, hview, by rw [hchildren, hids, List.filterMap_cons_some hview]⟩

/-- What is below an expression statement is executed. -/
theorem Visited.mode_of_exprStmt (hforest : tree.IsForest) {station : Station} (h : tree.Visited library station)
    {owner : Nat} (howner : tree.kind? owner = some .exprStmt) (hid : station.node.id ∈ tree.children owner) :
    station.mode = .execute := by
  obtain ⟨parent, hparent, hparentId, hchild⟩ := h.exists_parent hforest hid
  have hkind : parent.node.kind = .exprStmt := hforest.kind_of_term? (hparent.term? hforest) (hparentId ▸ howner)
  unfold Station.Child at hchild
  rw [Term.plan_of_block (.inr hkind)] at hchild
  exact hchild.mode_of_sequence

/-! ## §3. Assignments. -/

section Assignment

variable {mode : Mode} {env : Env} {node : Term} {target : String} {op : Option BinaryOp}

/-- What is found for the operand of a declaration or assignment is its value with what is known in front. -/
theorem Visited.value?_operand (hvalid : tree.validate = .ok ()) (h : tree.Visited library ⟨mode, env, node⟩)
    (htarget : node.target? = some target) {operand : Nat} {view : Term} {rest : List Term}
    (hview : tree.term? operand = some view) (hchildren : node.children = view :: rest) :
    (tree.propagate library).value? operand
      = (view.visit (tree.foldContext library) .evaluate env).value.map Folded.value := by
  have hvisited := h.leadsTo (.child (Term.child_operand_of_target htarget hchildren mode env) .self)
  rw [← hvisited.value?_evaluate hvalid, ((validate_eq_ok_iff.1 hvalid).of_term? hview).1]

theorem Visited.bind_value?_operand (hvalid : tree.validate = .ok ()) (h : tree.Visited library ⟨mode, env, node⟩)
    (htarget : node.target? = some target) :
    (tree.children node.id).head?.bind (tree.propagate library).value?
      = node.children.head?.bind fun view =>
          (view.visit (tree.foldContext library) .evaluate env).value.map Folded.value := by
  rcases h.children_cases (validate_eq_ok_iff.1 hvalid) with
    ⟨hids, hchildren⟩ | ⟨operand, rest, view, hids, hview, hchildren⟩
  · rw [hids, hchildren, List.head?_nil, List.head?_nil, Option.bind_none, Option.bind_none]
  · rw [hids, List.head?_cons, Option.bind_some, h.value?_operand hvalid htarget hview hchildren, hchildren,
      List.head?_cons, Option.bind_some]

/-- Inside an expression, an assignment has the value of its operand, whatever its target and its operator. -/
theorem Visited.value?_assign_evaluate (hvalid : tree.validate = .ok ())
    (h : tree.Visited library ⟨.evaluate, env, node⟩) (hkind : node.kind = .assign target op) :
    (tree.propagate library).value? node.id
      = (tree.children node.id).head?.bind (tree.propagate library).value? := by
  have hrole : Mode.evaluate.role node.kind = .expression := by
    rw [hkind]
    rfl
  have hvalue := h.value?_of_adds hvalid (Station.adds_of_expression hrole)
  unfold Station.parts at hvalue
  dsimp only at hvalue
  rw [hkind, Term.visitParts_assign_evaluate hkind] at hvalue
  rw [hvalue, h.bind_value?_operand hvalid (Term.target?_of_assign hkind)]
  cases node.children with
  | nil =>
    rw [visitAll]
    rfl
  | cons view rest =>
    rw [Term.visitAll_one, List.head?_cons, Option.bind_some]
    unfold foldKind
    dsimp only [Discipline.mode, List.getElem?_cons_zero, Option.join_some]
    rw [Option.map_map]
    rfl

/-- What is found for an assignment that is a statement is the new value of its variable. -/
theorem Visited.value?_eq_assignedValue (hvalid : tree.validate = .ok ())
    (h : tree.Visited library ⟨mode, env, node⟩) (hmode : mode ≠ .evaluate) (hkind : node.kind = .assign target op) :
    (tree.propagate library).value? node.id
      = assignedValue (node.visitParts (tree.foldContext library) mode env).env target op
          ((node.visitParts (tree.foldContext library) mode env).values[0]?).join := by
  rw [h.value?_of_adds hvalid (Station.adds_of_assign hkind hmode), Option.map_map]
  exact congrFun Option.map_id _

/-- As a statement, an assignment has what its operator makes of the known value and of its operand. -/
theorem Visited.value?_assign (hvalid : tree.validate = .ok ()) (h : tree.Visited library ⟨mode, env, node⟩)
    (hmode : mode ≠ .evaluate) (hkind : node.kind = .assign target op) :
    (tree.propagate library).value? node.id = (tree.children node.id).head?.bind fun operand =>
      ((tree.propagate library).value? operand).bind fun value =>
        assignedValue (env.forget (tree.assignedLocals operand)) target op (some ⟨value, false⟩) := by
  rw [h.value?_eq_assignedValue hvalid hmode hkind, Term.visitParts_of_target (Term.target?_of_assign hkind) hmode]
  rcases h.children_cases (validate_eq_ok_iff.1 hvalid) with
    ⟨hids, hchildren⟩ | ⟨operand, rest, view, hids, hview, hchildren⟩
  · rw [hids, hchildren, visitAll]
    rfl
  · -- what the operand assigns is forgotten, in whatever order it is listed
    have hforget : (env.forget view.assigned).get? target
        = (env.forget (tree.assignedLocals operand)).get? target := by
      rw [Env.get?_forget, Env.get?_forget, assignedLocals, hview]
      simp only [Option.map_some, Option.getD_some, Ascending.mem_ofList]
    rw [hids, List.head?_cons, Option.bind_some,
      h.value?_operand hvalid (Term.target?_of_assign hkind) hview hchildren, hchildren, Term.visitAll_one]
    dsimp only [Discipline.mode, Discipline.after, List.getElem?_cons_zero, Option.join_some]
    cases (view.visit (tree.foldContext library) .evaluate env).value with
    | none => rfl
    | some folded =>
      cases op with
      | none => rfl
      | some op =>
        unfold assignedValue
        rw [hforget]
        rfl

/-- Assignments of one shape, with the same knowledge in front of them, have operands of one value. -/
theorem Visited.value?_operand_of_shape {other : SyntaxTree} (hvalid : tree.validate = .ok ())
    (hother : other.validate = .ok ()) (hfields : other.constantFields library = tree.constantFields library)
    (h : tree.Visited library ⟨mode, env, node⟩) (hkind : node.kind = .assign target op) {inner : Mode}
    {twin : Term} (htwin : other.Visited library ⟨inner, env, twin⟩) (hshape : twin.shape = node.shape) :
    twin.kind = .assign target op
      ∧ (other.children twin.id).head?.bind (other.propagate library).value?
        = (tree.children node.id).head?.bind (tree.propagate library).value? := by
  obtain ⟨htwinKind, hviews⟩ : twin.kind = .assign target op
      ∧ twin.children.map Term.shape = node.children.map Term.shape := by
    obtain ⟨own, kind, children⟩ := node
    obtain ⟨twinOwn, twinKind, twinChildren⟩ := twin
    obtain rfl : kind = .assign target op := hkind
    rw [Term.shape_node, Term.shape_node] at hshape
    injection hshape with _ hkinds hchildren
    subst hkinds
    exact ⟨rfl, hchildren⟩
  refine ⟨htwinKind, ?_⟩
  have hcontext : other.foldContext library = tree.foldContext library := by
    unfold foldContext
    rw [hfields]
  -- the value of an operand hangs on its shape
  have hvalue : ∀ nodes : List Term,
      (nodes.head?.bind fun view => (view.visit (tree.foldContext library) .evaluate env).value.map Folded.value)
        = (nodes.map Term.shape).head?.bind fun view =>
            (view.visit (tree.foldContext library) .evaluate env).value.map Folded.value := by
    intro nodes
    rw [List.head?_map, Option.bind_map]
    refine Option.bind_congr fun view _ => ?_
    rw [Function.comp_apply, Term.value_shape]
  rw [htwin.bind_value?_operand hother (Term.target?_of_assign htwinKind),
    h.bind_value?_operand hvalid (Term.target?_of_assign hkind), hcontext, hvalue, hviews, ← hvalue]

end Assignment

/-- The same assignment, with the same knowledge in front of it, has one value as a statement and one inside an
    expression, of this tree or of another one with the same constant fields. The two are equal just when the
    operator of a compound assignment gives back the constant of its operand: always for plain assignments, and where
    the operand has none. -/
theorem value?_assignment_iff {tree other : SyntaxTree} (hvalid : tree.validate = .ok ())
    (hother : other.validate = .ok ()) (library : LibraryConstants)
    (hfields : other.constantFields library = tree.constantFields library) {owner id place : Nat}
    (howner : tree.kind? owner = some .exprStmt) (hmem : id ∈ tree.children owner) {target : String}
    {op : Option BinaryOp} (hassign : tree.kind? id = some (.assign target op))
    (hshape : (other.term? place).map Term.shape = (tree.term? id).map Term.shape) {mode : Mode} {env : Env}
    (hstatement : tree.stationAt? library id = some (mode, env))
    (hexpression : other.stationAt? library place = some (.evaluate, env)) :
    (other.propagate library).value? place = (tree.propagate library).value? id
      ↔ ∀ compound ∈ op, ∀ operand ∈ (tree.children id).head?, ∀ value ∈ (tree.propagate library).value? operand,
          assignedValue (env.forget (tree.assignedLocals operand)) target (some compound) (some ⟨value, false⟩)
            = some value := by
  have hforest : tree.IsForest := validate_eq_ok_iff.1 hvalid
  obtain ⟨node, rfl, hvisited⟩ := exists_visited_of_stationAt? hstatement
  obtain ⟨twin, rfl, htwin⟩ := exists_visited_of_stationAt? hexpression
  have hnode := hvisited.term? hforest
  rw [htwin.term? (validate_eq_ok_iff.1 hother), hnode, Option.map_some, Option.map_some, Option.some.injEq] at hshape
  have hkind : node.kind = .assign target op := hforest.kind_of_term? hnode hassign
  obtain rfl : mode = .execute := hvisited.mode_of_exprStmt hforest howner hmem
  obtain ⟨htwinKind, hoperand⟩ := hvisited.value?_operand_of_shape hvalid hother hfields hkind htwin hshape
  rw [htwin.value?_assign_evaluate hother htwinKind, hoperand, hvisited.value?_assign hvalid nofun hkind]
  cases op with
  | none =>
    -- a plain assignment records the operand in both places
    refine iff_of_true ?_ fun compound hcompound => by cases hcompound
    refine Option.bind_congr fun operand _ => ?_
    cases (tree.propagate library).value? operand <;> rfl
  | some compound =>
    cases (tree.children node.id).head? with
    | none => simp
    | some operand =>
      rw [Option.bind_some, Option.bind_some]
      simp only [Option.mem_some_iff, forall_eq']
      cases (tree.propagate library).value? operand with
      | none => simp
      | some value =>
        rw [Option.bind_some]
        simp only [Option.mem_some_iff, forall_eq']
        exact eq_comm

/-- A method with `int x = 1;` and behind it a statement around an assignment of `2` to `x`. -/
def assignmentIn (kind : NodeKind) (op : Option BinaryOp) : SyntaxTree := ofKinds [
  (none, .classDecl "Sample"), (some 0, .method "run" "()V" true), (some 1, .block),
  (some 2, .localDecl "x" "int" false), (some 3, .literal (.int 1)),
  (some 2, kind), (some 5, .assign "x" op), (some 6, .literal (.int 2))]

theorem term?_assignmentIn {kind : NodeKind} {op : Option BinaryOp}
    (hvalid : (assignmentIn kind op).validate = .ok ()) :
    (assignmentIn kind op).term? 6 = some (.node 6 (.assign "x" op) [.node 7 (.literal (.int 2)) []]) := by
  have hforest := validate_eq_ok_iff.1 hvalid
  have hassign : (assignmentIn kind op).node? 6 = some ⟨.assign "x" op, ⟨1, 1⟩, [7], some 5⟩ := by rfl
  have hoperand : (assignmentIn kind op).node? 7 = some ⟨.literal (.int 2), ⟨1, 1⟩, [], some 6⟩ := by rfl
  rw [hforest.term?_eq hassign, List.filterMap_cons_some (hforest.term?_eq hoperand)]
  rfl

/-- What is known behind `int x = 1;`. -/
def knownOne : Env := Env.assign .empty "x" false (some (.int 1))

/-- `x *= 2` has the value of its operand as a statement too, since `x` is `1`. -/
theorem value?_assignment_iff_product :
    (assignmentIn .exprStmt (some .mul)).stationAt? .empty 6 = some (.execute, knownOne)
      ∧ (assignmentIn (.localDecl "y" "int" false) (some .mul)).stationAt? .empty 6 = some (.evaluate, knownOne)
      ∧ ((assignmentIn .exprStmt (some .mul)).propagate .empty).value? 6 = some (.int 2)
      ∧ ((assignmentIn (.localDecl "y" "int" false) (some .mul)).propagate .empty).value? 6
          = ((assignmentIn .exprStmt (some .mul)).propagate .empty).value? 6 := by
  have hvalid : (assignmentIn .exprStmt (some .mul)).validate = .ok () := eq_ok_of_toOption (by decide +kernel)
  have hother : (assignmentIn (.localDecl "y" "int" false) (some .mul)).validate = .ok () :=
    eq_ok_of_toOption (by decide +kernel)
  have hstatement : (assignmentIn .exprStmt (some .mul)).stationAt? .empty 6 = some (.execute, knownOne) := by
    decide +kernel
  have hexpression : (assignmentIn (.localDecl "y" "int" false) (some .mul)).stationAt? .empty 6
      = some (.evaluate, knownOne) := by decide +kernel
  have howner : (assignmentIn .exprStmt (some .mul)).kind? 5 = some .exprStmt := by decide +kernel
  have hassign : (assignmentIn .exprStmt (some .mul)).kind? 6 = some (.assign "x" (some .mul)) := by decide +kernel
  refine ⟨hstatement, hexpression, by decide +kernel, ?_⟩
  refine (value?_assignment_iff hvalid hother .empty (by decide +kernel) howner (by decide +kernel) hassign
    (by rw [term?_assignmentIn hvalid, term?_assignmentIn hother]) hstatement hexpression).2 ?_
  decide +kernel

/-- With the same knowledge in front of it, `x += 2` is `3` as a statement and `2` as an initialiser. -/
theorem value?_assignment_addition :
    (assignmentIn .exprStmt (some .add)).validate = .ok ()
      ∧ (assignmentIn (.localDecl "y" "int" false) (some .add)).validate = .ok ()
      ∧ (assignmentIn .exprStmt (some .add)).kind? 6 = some (.assign "x" (some .add))
      ∧ (assignmentIn (.localDecl "y" "int" false) (some .add)).term? 6
          = (assignmentIn .exprStmt (some .add)).term? 6
      ∧ (assignmentIn .exprStmt (some .add)).stationAt? .empty 6 = some (.execute, knownOne)
      ∧ (assignmentIn (.localDecl "y" "int" false) (some .add)).stationAt? .empty 6 = some (.evaluate, knownOne)
      ∧ ((assignmentIn .exprStmt (some .add)).propagate .empty).value? 6 = some (.int 3)
      ∧ ((assignmentIn (.localDecl "y" "int" false) (some .add)).propagate .empty).value? 6 = some (.int 2) := by
  have hvalid : (assignmentIn .exprStmt (some .add)).validate = .ok () := eq_ok_of_toOption (by decide +kernel)
  have hother : (assignmentIn (.localDecl "y" "int" false) (some .add)).validate = .ok () :=
    eq_ok_of_toOption (by decide +kernel)
  refine ⟨hvalid, hother, by decide +kernel, ?_, by decide +kernel, by decide +kernel, by decide +kernel,
    by decide +kernel⟩
  rw [term?_assignmentIn hvalid, term?_assignmentIn hother]

end SyntaxTree

end PatchPresence
