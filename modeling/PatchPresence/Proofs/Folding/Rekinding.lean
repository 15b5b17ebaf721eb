/-
  PatchPresence.Proofs.Folding.Rekinding — folding with another kind of statement at one node.

  When one statement is replaced by a statement of another kind, with the same children, no expression outside gets
  another value: fields keep their constants, and the visit comes to the statement with the same knowledge. What is
  found below it can differ only by what the two kinds make of their children.

  Main results:
    * `SyntaxTree.constantFields_withKind` — the constant fields of the tree are the same.
    * `SyntaxTree.get?_withKind` — what is found below the statement hangs on its own visit alone.
-/
import PatchPresence.Proofs.Folding.Fields
import PatchPresence.Proofs.Folding.Visited
import PatchPresence.Proofs.Source.Rekinding

namespace PatchPresence

/-! ## §1. Terms. -/

theorem NodeKind.isClass_of_isStatement {kind : NodeKind} (h : kind.isStatement = true) : kind.isClass = false := by
  cases kind with
  | classDecl => cases h
  | _ => rfl

namespace Term

/-- The node at a position, where it stands in the term, is a statement. -/
def StatementAt (id : Nat) (term : Term) : Prop :=
  ∀ part : Term, part.Within term → part.id = id → part.kind.isStatement = true

variable {id : Nat} {kind : NodeKind}

theorem StatementAt.child {term child : Term} (h : term.StatementAt id) (hchild : child ∈ term.children) :
    child.StatementAt id := by
  intro part hpart
  cases term with
  | node => exact h part (.deeper hchild hpart)

/-- A statement stays a statement, and nothing else changes its kind. -/
theorem kind_withKind_cases (hkind : kind.isStatement = true) {term : Term} (h : term.StatementAt id) :
    (term.withKind id kind).kind = term.kind
      ∨ (term.withKind id kind).kind.isStatement = true ∧ term.kind.isStatement = true := by
  rw [kind_withKind]
  split
  · next heq => exact .inr ⟨hkind, h term .self heq⟩
  · exact .inl rfl

theorem isStatement_withKind (hkind : kind.isStatement = true) {term : Term} (h : term.StatementAt id) :
    (term.withKind id kind).kind.isStatement = term.kind.isStatement := by
  rcases kind_withKind_cases hkind h with heq | ⟨hnew, hold⟩
  · rw [heq]
  · rw [hnew, hold]

theorem ownAssigned_of_isStatement {kind : NodeKind} (h : kind.isStatement = true) (children : List Term) :
    ownAssigned kind children = [] := by
  cases kind with
  | assign | unary => cases h
  | _ => rfl

theorem ownAssigned_unary_of_isStatement {child : Term} (h : child.kind.isStatement = true) (op : UnaryOp)
    (rest : List Term) : ownAssigned (.unary op) (child :: rest) = [] := by
  unfold ownAssigned
  dsimp only [List.head?_cons, Option.map_some]
  generalize child.kind = kind at h
  cases kind with
  | localRead => cases h
  | _ => exact ite_self []

/-- What a node itself assigns hangs on its operand only if that is a read. -/
theorem ownAssigned_map_withKind (hkind : kind.isStatement = true) (own : NodeKind) {children : List Term}
    (h : ∀ child ∈ children, child.StatementAt id) :
    ownAssigned own (children.map (withKind id kind)) = ownAssigned own children := by
  cases own with
  | unary op =>
    cases children with
    | nil => rfl
    | cons child rest =>
      rcases kind_withKind_cases hkind (h child List.mem_cons_self) with heq | ⟨hnew, hold⟩
      · unfold ownAssigned
        rw [List.map_cons, List.head?_cons, List.head?_cons, Option.map_some, Option.map_some, heq]
      · rw [List.map_cons, ownAssigned_unary_of_isStatement hnew, ownAssigned_unary_of_isStatement hold]
  | _ => rfl

theorem assignedAll_congr {f : Term → Term} {terms : List Term}
    (h : ∀ term ∈ terms, (f term).assigned = term.assigned) : assignedAll (terms.map f) = assignedAll terms := by
  induction terms with
  | nil => rfl
  | cons term rest ih =>
    rw [List.map_cons, assignedAll, assignedAll, h term List.mem_cons_self,
      ih fun other hother => h other (List.mem_cons_of_mem _ hother)]

/-- The same variables are assigned. -/
theorem assigned_withKind (hkind : kind.isStatement = true) (term : Term) :
    term.StatementAt id → (term.withKind id kind).assigned = term.assigned := by
  induction term using induct with
  | hnode own old children ih =>
    intro h
    have hbelow : assignedAll (children.map (withKind id kind)) = assignedAll children :=
      assignedAll_congr fun child hchild => ih child hchild (h.child hchild)
    have hown : ∀ own, ownAssigned own (children.map (withKind id kind)) = ownAssigned own children :=
      fun own => ownAssigned_map_withKind hkind own fun child hchild => h.child hchild
    rw [withKind, withKindAll_eq_map, assigned, assigned, hbelow, hown]
    split
    · next heq =>
      have hold : old.isStatement = true := h _ .self heq
      rw [ownAssigned_of_isStatement hkind, ownAssigned_of_isStatement hold]
    · rfl

theorem foldArrayLength_of_isStatement {array : Term} (h : array.kind.isStatement = true) :
    foldArrayLength (some array) = none := by
  obtain ⟨id, kind, elements⟩ := array
  replace h : kind.isStatement = true := h
  cases kind with
  | newArray => cases h
  | _ => rfl

theorem foldArrayLength_withKind (hkind : kind.isStatement = true) {array : Option Term}
    (h : ∀ term, array = some term → term.StatementAt id) :
    foldArrayLength (array.map (withKind id kind)) = foldArrayLength array := by
  cases array with
  | none => rfl
  | some array =>
    rcases kind_withKind_cases hkind (h array rfl) with heq | ⟨hnew, hold⟩
    · obtain ⟨own, old, elements⟩ := array
      rw [kind_withKind] at heq
      rw [Option.map_some, withKind, withKindAll_eq_map]
      replace heq : (if own = id then kind else old) = old := heq
      rw [heq]
      cases old with
      | newArray type isInitialised =>
        cases isInitialised with
        | true =>
          unfold foldArrayLength
          dsimp only
          rw [List.length_map]
        | false => rfl
      | _ => rfl
    · rw [Option.map_some, foldArrayLength_of_isStatement hnew, foldArrayLength_of_isStatement hold]

/-- Expressions keep their values: what a statement gives takes no part in them. -/
theorem value_withKind (hkind : kind.isStatement = true) (context : FoldContext) (term : Term) :
    ∀ env, term.StatementAt id →
      ((term.withKind id kind).visit context .evaluate env).value = (term.visit context .evaluate env).value := by
  induction term using induct with
  | hnode own old children ih =>
    intro env h
    rw [value_evaluate, value_evaluate, isStatement_withKind hkind h]
    cases hstatement : (Term.node own old children).kind.isStatement with
    | true => rfl
    | false =>
      have hsame : ((Term.node own old children).withKind id kind).kind = old := by
        rcases kind_withKind_cases hkind h with heq | ⟨-, hold⟩
        · exact heq
        · rw [hstatement] at hold
          cases hold
      have hoperands : ((Term.node own old children).withKind id kind).operands
          = (Term.node own old children).operands.map (withKind id kind) := by
        unfold operands
        rw [hsame, children_withKind, List.length_map, List.map_take]
        rfl
      have hvalues : ((Term.node own old children).operands.map (withKind id kind)).map
            (fun child => (child.visit context .evaluate env).value)
          = (Term.node own old children).operands.map fun child => (child.visit context .evaluate env).value := by
        rw [List.map_map]
        refine List.map_congr_left fun child hchild => ?_
        have hmem : child ∈ children := List.mem_of_mem_take hchild
        exact ih child hmem env (h.child hmem)
      rw [hsame, hoperands, hvalues, children_withKind]
      show foldKind context env old (children.map _) _ = foldKind context env old children _
      cases old with
      | arrayLength =>
        show foldArrayLength (children.map _).head? = foldArrayLength children.head?
        rw [List.head?_map]
        exact foldArrayLength_withKind hkind fun child hchild => h.child (List.mem_of_head? hchild)
      | _ => rfl

end Term

/-! ## §2. Stations. -/

namespace Station

variable {context : FoldContext} {id : Nat} {kind : NodeKind}

theorem mode_withKind (hkind : kind.isStatement = true) (discipline : Discipline) {node : Term}
    (h : node.StatementAt id) :
    discipline.mode (node.withKind id kind).kind = discipline.mode node.kind := by
  cases discipline with
  | branches leading carry =>
    unfold Discipline.mode Discipline.leads
    rw [Term.isStatement_withKind hkind h]
  | _ => rfl

/-- The visit comes to the child with the changed node as before: those in front of it are the same. -/
theorem Turn.withKind (hkind : kind.isStatement = true) {discipline : Discipline} {count : Nat} {env : Env}
    {nodes : List Term} {station : Station} (h : Turn context discipline count env nodes station)
    (hnodup : (Term.idsAll nodes).Nodup) (hid : id ∈ station.node.ids) (hold : station.node.StatementAt id) :
    Turn context discipline count env (nodes.map (Term.withKind id kind))
      { station with node := station.node.withKind id kind } := by
  induction h with
  | @first discipline count env node rest =>
    rw [List.map_cons, ← mode_withKind hkind discipline hold]
    exact .first
  | @later discipline count env node rest station h ih =>
    unfold Term.idsAll at hnodup
    obtain ⟨-, hrest, hdisjoint⟩ := List.nodup_append.1 hnodup
    -- what is visited before has other positions, so it leaves the same behind
    have hother : id ∉ node.ids :=
      fun hmem => hdisjoint _ hmem _ (Term.mem_idsAll.2 ⟨station.node, h.mem, hid⟩) rfl
    rw [List.map_cons, Term.withKind_of_notMem node hother]
    exact .later (ih hrest hid hold)

/-- The visit comes to the changed node with the same knowledge as before. -/
theorem LeadsTo.withKind (hkind : kind.isStatement = true) {station last : Station}
    (h : LeadsTo context station last) (hnodup : station.node.ids.Nodup) (hid : last.node.id = id)
    (hold : station.node.StatementAt id) :
    LeadsTo context { station with node := station.node.withKind id kind }
      { last with node := last.node.withKind id kind } := by
  induction h with
  | self => exact .self
  | @child station child last hchild h ih =>
    have hbelow := Term.nodup_idsAll_children hnodup
    have hmem : child.node ∈ station.node.children := hchild.mem
    have hidChild : id ∈ child.node.ids := h.within.ids_subset _ (hid ▸ last.node.id_mem_ids)
    -- the changed node is further down, so the plan of this one stays
    have hsame : (station.node.withKind id kind).kind = station.node.kind := by
      rw [Term.kind_withKind, if_neg]
      rintro rfl
      obtain ⟨mode, env, node⟩ := station
      cases node with
      | node own old children =>
        unfold Term.ids at hnodup
        exact (List.nodup_cons.1 hnodup).1 (Term.mem_idsAll.2 ⟨child.node, hmem, hidChild⟩)
    have hplan : (station.node.withKind id kind).plan station.mode station.env
        = station.node.plan station.mode station.env := by
      unfold Term.plan
      rw [hsame, Term.assigned_withKind hkind _ hold]
    refine .child ?_ (ih (Term.nodup_ids_of_mem hbelow hmem) hid (hold.child hmem))
    unfold Child Term.visitCount
    dsimp only
    rw [hplan, Term.children_withKind, List.length_map]
    exact hchild.withKind hkind hbelow hidChild (hold.child hmem)

end Station

/-! ## §3. Fields. -/

/-- Rounds give the same for fields with the same keys and values. -/
theorem resolveFields_map {library : LibraryConstants} {fields : List FinalField} {f : FinalField → FinalField}
    (hkey : ∀ field ∈ fields, (f field).key = field.key)
    (hvalue : ∀ field ∈ fields, ∀ context, (f field).value? context = field.value? context) :
    ∀ fuel known, resolveFields library (fields.map f) fuel known = resolveFields library fields fuel known := by
  have hround : ∀ known, resolveRound library (fields.map f) known = resolveRound library fields known := by
    intro known
    unfold resolveRound
    rw [List.foldl_map]
    -- a round looks at the key and the value of a field only
    refine List.foldl_ext _ _ known fun acc field hfield => ?_
    rw [hkey field hfield, hvalue field hfield]
  intro fuel
  induction fuel with
  | zero => exact fun _ => rfl
  | succ fuel ih =>
    intro known
    rw [resolveFields, resolveFields, hround, ih]

namespace SyntaxTree

variable {tree : SyntaxTree} {library : LibraryConstants} {id : Nat} {kind : NodeKind}

/-- In a valid tree only one node is at a position. -/
theorem IsForest.statementAt (h : tree.IsForest) (hold : tree.has NodeKind.isStatement id = true) {top : Nat}
    {term : Term} (hterm : tree.term? top = some term) : term.StatementAt id := by
  rintro part hpart rfl
  rwa [has, (h.of_term? (h.below_of_within hpart hterm).2).2.1] at hold

theorem finalFieldIn?_of_isStatement (h : tree.has NodeKind.isStatement id = true) (owner? : Option String) :
    tree.finalFieldIn? owner? id = none := by
  unfold finalFieldIn?
  rw [has] at h
  cases hkind : tree.kind? id with
  | none => rfl
  | some own =>
    rw [hkind] at h
    cases own with
    | fieldDecl => cases h
    | _ => rfl

theorem has_isStatement_withKind (hold : tree.has NodeKind.isStatement id = true)
    (hkind : kind.isStatement = true) : (tree.withKind id kind).has NodeKind.isStatement id = true := by
  rw [has] at hold ⊢
  rw [kind?_withKind, if_pos rfl]
  cases hknown : tree.kind? id with
  | none =>
    rw [hknown] at hold
    cases hold
  | some before => exact hkind

theorem finalFieldIn?_withKind (hold : tree.has NodeKind.isStatement id = true)
    (hkind : kind.isStatement = true) (owner? : Option String) (other : Nat) :
    (tree.withKind id kind).finalFieldIn? owner? other
      = (tree.finalFieldIn? owner? other).map
          fun field => { field with initializer := field.initializer.withKind id kind } := by
  by_cases heq : other = id
  · subst heq
    rw [finalFieldIn?_of_isStatement hold,
      finalFieldIn?_of_isStatement (has_isStatement_withKind hold hkind)]
    rfl
  · unfold finalFieldIn?
    rw [kind?_withKind, if_neg heq, children_withKind]
    cases tree.kind? other with
    | none => rfl
    | some own =>
      cases own with
      | fieldDecl name type isStatic isFinal =>
        cases isFinal with
        | false => rfl
        | true =>
          cases (tree.children other).head? with
          | none => rfl
          | some child =>
            simp only [Option.bind_eq_bind, Option.bind_some, term?_withKind]
            cases tree.term? child with
            | none => rfl
            | some initializer => cases owner? <;> rfl
      | _ => rfl

/-- The constant fields of the tree are the same. -/
theorem constantFields_withKind (h : tree.IsForest) (hold : tree.has NodeKind.isStatement id = true)
    (hkind : kind.isStatement = true) :
    (tree.withKind id kind).constantFields library = tree.constantFields library := by
  have hclass : tree.has NodeKind.isClass id = false := by
    rw [has] at hold ⊢
    cases hknown : tree.kind? id with
    | none => rfl
    | some before =>
      rw [hknown] at hold
      exact NodeKind.isClass_of_isStatement hold
  have hfields : (tree.withKind id kind).finalFields = tree.finalFields.map
      fun field => { field with initializer := field.initializer.withKind id kind } := by
    rw [finalFields_eq, finalFields_eq, size_withKind, List.map_filterMap]
    refine List.filterMap_congr fun other _ => ?_
    rw [className?_withKind hclass (NodeKind.isClass_of_isStatement hkind), finalFieldIn?_withKind hold hkind]
  have hvalue : ∀ field ∈ tree.finalFields, ∀ context,
      FinalField.value? { field with initializer := field.initializer.withKind id kind } context
        = field.value? context := by
    intro field hfield context
    -- the initialiser is the view of a node of the tree
    have hstatement : field.initializer.StatementAt id := by
      rw [finalFields_eq] at hfield
      obtain ⟨other, -, hfield⟩ := List.mem_filterMap.1 hfield
      unfold finalFieldIn? at hfield
      obtain ⟨own, -, hfield⟩ := Option.bind_eq_some_iff.1 hfield
      split at hfield
      · obtain ⟨child, -, hfield⟩ := Option.bind_eq_some_iff.1 hfield
        obtain ⟨initializer, hterm, hfield⟩ := Option.bind_eq_some_iff.1 hfield
        obtain ⟨owner, -, hfield⟩ := Option.bind_eq_some_iff.1 hfield
        rw [← Option.some.inj hfield]
        exact h.statementAt hold hterm
      · cases hfield
    unfold FinalField.value?
    rw [Term.value_withKind hkind context field.initializer .empty hstatement]
  have hkey : ∀ field ∈ tree.finalFields,
      FinalField.key { field with initializer := field.initializer.withKind id kind } = field.key := fun _ _ => rfl
  unfold constantFields
  dsimp only
  rw [hfields, List.length_map]
  exact resolveFields_map hkey hvalue _ _

theorem foldContext_withKind (h : tree.IsForest) (hold : tree.has NodeKind.isStatement id = true)
    (hkind : kind.isStatement = true) :
    (tree.withKind id kind).foldContext library = tree.foldContext library := by
  unfold foldContext
  rw [constantFields_withKind h hold hkind]

/-! ## §4. What is found. -/

/-- The changed node is visited as before. -/
theorem Visited.withKind (hvalid : tree.validate = .ok ()) (hold : tree.has NodeKind.isStatement id = true)
    (hkind : kind.isStatement = true) {station : Station} (h : tree.Visited library station)
    (hid : station.node.id = id) :
    (tree.withKind id kind).Visited library { station with node := station.node.withKind id kind } := by
  have hforest : tree.IsForest := validate_eq_ok_iff.1 hvalid
  obtain ⟨root, hroot, hlead⟩ := h
  have hstatement : root.StatementAt id := by
    obtain ⟨top, htop, hview⟩ := List.mem_flatMap.1 hroot
    rw [← toList_term? (hforest.lt_of_root htop), Option.mem_toList] at hview
    exact hforest.statementAt hold hview
  refine ⟨root.withKind id kind, ?_, ?_⟩
  · rw [forest_withKind]
    exact List.mem_map_of_mem hroot
  · rw [foldContext_withKind hforest hold hkind]
    exact hlead.withKind hkind (Term.nodup_ids_of_mem (tree.nodup_ids_forest hvalid) hroot) hid hstatement

theorem get?_withKind_of_get? (hvalid : tree.validate = .ok ())
    (hold : tree.has NodeKind.isStatement id = true) (hkind : kind.isStatement = true) {node : Term}
    (hnode : tree.term? id = some node) {below : Nat} (hbelow : below ∈ node.ids) {result : Option Folded}
    (hrecords : ∀ mode env, (below, result) ∈ (node.visit (tree.foldContext library) mode env).records →
      (below, result) ∈ ((node.withKind id kind).visit (tree.foldContext library) mode env).records)
    (hget : (tree.propagate library).values.get? below = some result) :
    ((tree.withKind id kind).propagate library).values.get? below = some result := by
  have hforest : tree.IsForest := validate_eq_ok_iff.1 hvalid
  obtain ⟨mode, env, hvisited, -, hrecord⟩ := exists_visited_of_get? hvalid hnode hbelow hget
  refine (hvisited.withKind hvalid hold hkind (hforest.of_term? hnode).1).get?_of_record
    (validate_eq_ok_iff.2 hforest.withKind) ?_
  rw [foldContext_withKind hforest hold hkind]
  exact hrecords mode env hrecord

/-- What is found for a node below the changed one is the same when the visits of the two have the same record of
    it. -/
theorem get?_withKind (hvalid : tree.validate = .ok ()) {old : NodeKind} (hknown : tree.kind? id = some old)
    (hold : old.isStatement = true) (hkind : kind.isStatement = true) {node : Term}
    (hnode : tree.term? id = some node) {below : Nat} (hbelow : below ∈ node.ids)
    (hrecords : ∀ mode env result,
      (below, result) ∈ ((node.withKind id kind).visit (tree.foldContext library) mode env).records
        ↔ (below, result) ∈ (node.visit (tree.foldContext library) mode env).records) :
    ((tree.withKind id kind).propagate library).values.get? below
      = (tree.propagate library).values.get? below := by
  have hforest : tree.IsForest := validate_eq_ok_iff.1 hvalid
  have hstatement : tree.has NodeKind.isStatement id = true := by
    rw [has, hknown]
    exact hold
  -- putting the old kind back is a change of the same sort
  have hback : (tree.withKind id kind).withKind id old = tree := withKind_withKind hknown
  have hnodeNew : (tree.withKind id kind).term? id = some (node.withKind id kind) := by
    rw [term?_withKind, hnode]
    rfl
  have hnodeBack : (node.withKind id kind).withKind id old = node := by
    have hterm : ((tree.withKind id kind).withKind id old).term? id
        = some ((node.withKind id kind).withKind id old) := by
      rw [term?_withKind, hnodeNew]
      rfl
    rw [hback, hnode] at hterm
    exact (Option.some.inj hterm).symm
  refine Option.ext fun result => ⟨fun hget => ?_, fun hget => ?_⟩
  · rw [← hback]
    refine get?_withKind_of_get? (validate_eq_ok_iff.2 hforest.withKind)
      (has_isStatement_withKind hstatement hkind) hold hnodeNew ((node.ids_withKind).symm ▸ hbelow) ?_ hget
    intro mode env
    rw [hnodeBack, foldContext_withKind hforest hstatement hkind]
    exact (hrecords mode env result).1
  · exact get?_withKind_of_get? hvalid hstatement hkind hnode hbelow (fun mode env => (hrecords mode env result).2)
      hget

end SyntaxTree

end PatchPresence
