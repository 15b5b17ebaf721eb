/-
  PatchPresence.Proofs.Source.Rekinding — syntax trees with the kind of one node replaced.

  The links of a tree do not depend on the kinds of its nodes, so a tree with another kind at one node is valid
  when the tree is, and its nested view differs at that node only.

  Main results:
    * `SyntaxTree.IsForest.withKind` — the links of the tree still form a forest.
    * `SyntaxTree.term?_withKind` — nested views differ in the kind of that node.
-/
import PatchPresence.Proofs.Source.Nesting

namespace PatchPresence

/-! ## §1. Terms. -/

namespace Term

mutual

/-- A term with the kind of the node at a position replaced. -/
def withKind (id : Nat) (kind : NodeKind) : Term → Term
  | .node own old children => .node own (if own = id then kind else old) (withKindAll id kind children)

/-- Several terms with the kind of the node at a position replaced. -/
def withKindAll (id : Nat) (kind : NodeKind) : List Term → List Term
  | [] => []
  | term :: rest => term.withKind id kind :: withKindAll id kind rest

end

variable {id : Nat} {kind : NodeKind}

theorem withKindAll_eq_map (terms : List Term) : withKindAll id kind terms = terms.map (withKind id kind) := by
  induction terms with
  | nil => rfl
  | cons term rest ih => rw [withKindAll, ih, List.map_cons]

@[simp] theorem id_withKind (term : Term) : (term.withKind id kind).id = term.id := by
  cases term with
  | node => rw [withKind, Term.id, Term.id]

@[simp] theorem kind_withKind (term : Term) :
    (term.withKind id kind).kind = if term.id = id then kind else term.kind := by
  cases term with
  | node => rw [withKind, Term.kind, Term.kind, Term.id]

@[simp] theorem children_withKind (term : Term) :
    (term.withKind id kind).children = term.children.map (withKind id kind) := by
  cases term with
  | node => rw [withKind, Term.children, Term.children, withKindAll_eq_map]

/-- The same positions stand in the term. -/
@[simp] theorem ids_withKind (term : Term) : (term.withKind id kind).ids = term.ids := by
  induction term using induct with
  | hnode own old children ih =>
    have hbelow : idsAll (children.map (withKind id kind)) = idsAll children := by
      rw [idsAll_eq_flatMap, idsAll_eq_flatMap, List.flatMap_map]
      exact List.flatMap_congr ih
    rw [withKind, withKindAll_eq_map, ids, ids, hbelow]

theorem map_withKind_eq_self {terms : List Term} (h : ∀ term ∈ terms, term.withKind id kind = term) :
    terms.map (withKind id kind) = terms :=
  (List.map_congr_left h).trans (List.map_id' terms)

/-- Only the node at the position is changed. -/
theorem withKind_of_notMem (term : Term) : id ∉ term.ids → term.withKind id kind = term := by
  induction term using induct with
  | hnode own old children ih =>
    intro hid
    unfold ids at hid
    rw [List.mem_cons, not_or] at hid
    have hchildren : children.map (withKind id kind) = children :=
      map_withKind_eq_self fun child hchild =>
        ih child hchild fun hmem => hid.2 (mem_idsAll.2 ⟨child, hchild, hmem⟩)
    rw [withKind, withKindAll_eq_map, hchildren, if_neg (Ne.symm hid.1)]

/-- What is below the changed node stays: it has other positions. -/
theorem children_withKind_of_nodup {term : Term} (h : term.ids.Nodup) (hid : term.id = id) :
    (term.withKind id kind).children = term.children := by
  subst hid
  rw [children_withKind]
  refine map_withKind_eq_self fun child hchild => withKind_of_notMem child fun hmem => ?_
  cases term with
  | node own old children =>
    unfold ids at h
    exact (List.nodup_cons.1 h).1 (mem_idsAll.2 ⟨child, hchild, hmem⟩)

end Term

/-! ## §2. Trees. -/

namespace SyntaxTree

/-- A tree with the kind of one node replaced. -/
def withKind (tree : SyntaxTree) (id : Nat) (kind : NodeKind) : SyntaxTree :=
  { tree with nodes := tree.nodes.modify id fun node => { node with kind } }

variable {tree : SyntaxTree} {id : Nat} {kind : NodeKind}

@[simp] theorem size_withKind : (tree.withKind id kind).size = tree.size := Array.size_modify

@[simp] theorem roots_withKind : (tree.withKind id kind).roots = tree.roots := rfl

theorem node?_withKind (other : Nat) :
    (tree.withKind id kind).node? other
      = (tree.node? other).map fun node => if other = id then { node with kind } else node := by
  unfold withKind node?
  rw [Array.getElem?_modify]
  split
  · next heq => simp [heq]
  · next hne => simp [Ne.symm hne]

@[simp] theorem children_withKind : (tree.withKind id kind).children = tree.children := by
  funext other
  unfold children
  rw [node?_withKind, Option.map_map]
  congr 2
  funext node
  dsimp only [Function.comp]
  split <;> rfl

@[simp] theorem parent?_withKind : (tree.withKind id kind).parent? = tree.parent? := by
  funext other
  unfold parent?
  rw [node?_withKind, Option.bind_map]
  congr 1
  funext node
  dsimp only [Function.comp]
  split <;> rfl

theorem kind?_withKind (other : Nat) :
    (tree.withKind id kind).kind? other
      = if other = id then (tree.kind? other).map fun _ => kind else tree.kind? other := by
  unfold kind?
  rw [node?_withKind]
  split
  · rw [Option.map_map, Option.map_map]
    rfl
  · rw [Option.map_id']

/-- Putting the old kind back gives the old tree. -/
theorem withKind_withKind {old : NodeKind} (h : tree.kind? id = some old) :
    (tree.withKind id kind).withKind id old = tree := by
  have hnodes : ((tree.nodes.modify id fun node => { node with kind }).modify id
      fun node => { node with kind := old }) = tree.nodes := by
    refine Array.ext_getElem? fun other => ?_
    rw [Array.getElem?_modify, Array.getElem?_modify]
    split
    · next heq =>
      subst heq
      obtain ⟨node, hnode, rfl⟩ := Option.map_eq_some_iff.1 h
      replace hnode : tree.nodes[id]? = some node := hnode
      rw [hnode]
      rfl
    · rfl
  unfold withKind
  dsimp only
  rw [hnodes]

theorem Below.withKind {top other : Nat} (h : tree.Below top other) :
    (tree.withKind id kind).Below top other := by
  induction h with
  | self => exact .self
  | child _ hid ih => exact .child ih (children_withKind.symm ▸ hid)

/-- The links of the tree still form a forest. -/
theorem IsForest.withKind (h : tree.IsForest) : (tree.withKind id kind).IsForest := by
  have hlinks : (tree.withKind id kind).links = tree.links := by
    unfold links
    rw [roots_withKind, size_withKind, children_withKind]
  constructor
  · rw [hlinks, size_withKind]
    exact h.inRange
  · rw [hlinks, size_withKind]
    exact h.once
  · rw [roots_withKind, parent?_withKind]
    exact h.rootParent
  · rw [size_withKind, children_withKind, parent?_withKind]
    exact h.childParent
  · intro other hother
    rw [size_withKind] at hother
    obtain ⟨root, hroot, hbelow⟩ := h.reached other hother
    exact ⟨root, hroot, hbelow.withKind⟩

theorem termWithin_withKind (depth other : Nat) :
    (tree.withKind id kind).termWithin depth other
      = (tree.termWithin depth other).map (Term.withKind id kind) := by
  induction depth generalizing other with
  | zero => rfl
  | succ depth ih =>
    have hview : (tree.withKind id kind).node? other = _ := node?_withKind other
    cases hnode : tree.node? other with
    | none =>
      rw [hnode] at hview
      rw [termWithin, termWithin, hnode, hview]
      rfl
    | some node =>
      rw [hnode] at hview
      have hbelow : node.children.flatMap ((tree.withKind id kind).termWithin depth)
          = (node.children.flatMap (tree.termWithin depth)).map (Term.withKind id kind) := by
        rw [List.map_flatMap]
        exact List.flatMap_congr fun child _ => ih child
      rw [termWithin_succ hview, termWithin_succ hnode, List.map_singleton, Term.withKind,
        Term.withKindAll_eq_map, ← hbelow]
      split <;> rfl

/-- Nested views differ in the kind of that node. -/
theorem term?_withKind (other : Nat) :
    (tree.withKind id kind).term? other = (tree.term? other).map (Term.withKind id kind) := by
  unfold term?
  rw [size_withKind, termWithin_withKind, List.head?_map]

theorem forest_withKind : (tree.withKind id kind).forest = tree.forest.map (Term.withKind id kind) := by
  unfold forest
  rw [roots_withKind, size_withKind, List.map_flatMap]
  exact List.flatMap_congr fun root _ => termWithin_withKind _ root

/-- Every node stays in its class when neither kind is that of a class. -/
theorem className?_withKind (hold : tree.has NodeKind.isClass id = false) (hnew : kind.isClass = false)
    (other : Nat) : (tree.withKind id kind).className? other = tree.className? other := by
  have hhas : (tree.withKind id kind).has NodeKind.isClass = tree.has NodeKind.isClass := by
    funext node
    unfold has at hold ⊢
    rw [kind?_withKind]
    split
    · next heq =>
      rw [heq, hold]
      cases tree.kind? id with
      | none => rfl
      | some old => exact hnew
    · rfl
  have hclass : (tree.withKind id kind).enclosingClass? other = tree.enclosingClass? other := by
    unfold enclosingClass? ancestor? ancestors
    rw [hhas, parent?_withKind, size_withKind]
  unfold className?
  rw [hclass]
  cases hfound : tree.enclosingClass? other with
  | none => rfl
  | some owner =>
    have howner : tree.has NodeKind.isClass owner = true := List.find?_some hfound
    have hne : owner ≠ id := by
      rintro rfl
      rw [hold] at howner
      cases howner
    simp only [Option.bind_eq_bind, Option.bind_some, kind?_withKind, if_neg hne]

end SyntaxTree

end PatchPresence
