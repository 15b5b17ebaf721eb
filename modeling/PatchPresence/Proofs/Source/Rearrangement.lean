/-
  PatchPresence.Proofs.Source.Rearrangement — syntax trees with the members of classes in another order.

  Moving the members of a class about moves the nodes to other positions, so two arrangements of one tree are
  compared along a map of positions. What an expression looks like, positions and members of classes apart, is
  its shape; an expression keeps its shape and the name of its class wherever it is moved to.

  Main results:
    * `SyntaxTree.Rearrangement.shape_term?` — a node that is moved keeps its shape.
    * `SyntaxTree.Rearrangement.className?_place` — it stays in its class.
-/
import Mathlib.Data.List.Find
import Mathlib.Data.List.Perm.Subperm
import PatchPresence.Proofs.Source.Navigation

namespace PatchPresence

/-! ## §1. Shapes. -/

namespace Term

mutual

/-- A term without its positions and without the members of its classes. -/
def shape : Term → Term
  | .node _ kind children => .node 0 kind (if kind.isClass then [] else shapeAll children)

/-- Several terms without their positions. -/
def shapeAll : List Term → List Term
  | [] => []
  | term :: rest => term.shape :: shapeAll rest

end

theorem shapeAll_eq_map (terms : List Term) : shapeAll terms = terms.map shape := by
  induction terms with
  | nil => rfl
  | cons term rest ih => rw [shapeAll, ih, List.map_cons]

theorem shape_node (id : Nat) (kind : NodeKind) (children : List Term) :
    (Term.node id kind children).shape = .node 0 kind (if kind.isClass then [] else children.map shape) := by
  rw [shape, shapeAll_eq_map]

end Term

namespace SyntaxTree

/-! ## §2. Rearranged trees. -/

/-- One tree is the other with every node moved to the place given for it: classes list their members in any
    order, and all other nodes list their children in the order they had. -/
structure Rearrangement (place : Nat → Nat) (tree other : SyntaxTree) : Prop where
  size_eq : other.size = tree.size
  place_lt : ∀ id < tree.size, place id < other.size
  injective : ∀ a < tree.size, ∀ b < tree.size, place a = place b → a = b
  kind_eq : ∀ id < tree.size, other.kind? (place id) = tree.kind? id
  members : ∀ id < tree.size, tree.has NodeKind.isClass id = true →
    (other.children (place id)).Perm ((tree.children id).map place)
  children_eq : ∀ id < tree.size, tree.has NodeKind.isClass id = false →
    other.children (place id) = (tree.children id).map place
  roots : other.roots.Perm (tree.roots.map place)

variable {tree other : SyntaxTree} {place : Nat → Nat}

namespace Rearrangement

/-- The places are the positions of the rearranged tree. -/
theorem perm_map_place (h : Rearrangement place tree other) :
    ((List.range tree.size).map place).Perm (List.range other.size) := by
  have hnodup : ((List.range tree.size).map place).Nodup := by
    refine List.Nodup.map_on (fun a ha b hb => ?_) List.nodup_range
    exact h.injective a (List.mem_range.1 ha) b (List.mem_range.1 hb)
  have hsubset : (List.range tree.size).map place ⊆ List.range other.size := by
    intro id hid
    obtain ⟨old, hold, rfl⟩ := List.mem_map.1 hid
    exact List.mem_range.2 (h.place_lt old (List.mem_range.1 hold))
  refine (hnodup.subperm hsubset).perm_of_length_le (Nat.le_of_eq ?_)
  rw [List.length_range, List.length_map, List.length_range, h.size_eq]

theorem mem_children (h : Rearrangement place tree other) {owner id : Nat}
    (hid : id ∈ tree.children owner) : place id ∈ other.children (place owner) := by
  have howner : owner < tree.size := lt_size_of_mem_children hid
  cases hclass : tree.has NodeKind.isClass owner with
  | true => exact (h.members owner howner hclass).mem_iff.2 (List.mem_map_of_mem hid)
  | false =>
    rw [h.children_eq owner howner hclass]
    exact List.mem_map_of_mem hid

theorem has_place (h : Rearrangement place tree other) (test : NodeKind → Bool) {id : Nat}
    (hid : id < tree.size) : other.has test (place id) = tree.has test id := by
  unfold has
  rw [h.kind_eq id hid]

/-- The way up from a node is moved with it. -/
theorem parentChain (h : Rearrangement place tree other) (htree : tree.IsForest) (hother : other.IsForest)
    {id : Nat} {chain : List Nat} (hchain : tree.ParentChain id chain) :
    other.ParentChain (place id) (chain.map place) := by
  induction hchain with
  | top hlt htop =>
    refine .top (h.place_lt _ hlt) (hother.rootParent _ ?_)
    exact h.roots.mem_iff.2 (List.mem_map_of_mem (htree.mem_roots hlt htop))
  | up hlt howner _ ih =>
    refine .up (h.place_lt _ hlt) (hother.parent_of_child ?_) ih
    exact h.mem_children (htree.mem_children_of_parent howner)

/-- A node stays in its class. -/
theorem className?_place (h : Rearrangement place tree other) (htree : tree.IsForest)
    (hother : other.IsForest) {id : Nat} (hid : id < tree.size) :
    other.className? (place id) = tree.className? id := by
  obtain ⟨hchain, -⟩ := htree.parentChain_ancestors hid
  -- the same search, along the way up that was moved
  have hclass : other.enclosingClass? (place id) = (tree.enclosingClass? id).map place := by
    have hfind : (tree.ancestors id).find? (other.has NodeKind.isClass ∘ place)
        = (tree.ancestors id).find? (tree.has NodeKind.isClass) :=
      List.find?_congr fun a ha => h.has_place _ (hchain.lt_of_mem ha)
    unfold enclosingClass? ancestor?
    rw [(h.parentChain htree hother hchain).ancestors_eq hother, List.find?_map, hfind]
  unfold className?
  rw [hclass]
  cases hfound : tree.enclosingClass? id with
  | none => rfl
  | some owner =>
    have howner : owner < tree.size := hchain.lt_of_mem (List.mem_of_find?_eq_some hfound)
    simp only [Option.map_some, Option.bind_eq_bind, Option.bind_some, h.kind_eq owner howner]

/-- A node keeps its shape, however far down one looks. -/
theorem shape_termWithin (h : Rearrangement place tree other) (htree : tree.IsForest) (depth : Nat) {id : Nat}
    (hid : id < tree.size) :
    (other.termWithin depth (place id)).map Term.shape = (tree.termWithin depth id).map Term.shape := by
  induction depth generalizing id with
  | zero => rfl
  | succ depth ih =>
    obtain ⟨node, hnode⟩ := exists_node? hid
    obtain ⟨moved, hmoved⟩ := exists_node? (h.place_lt id hid)
    have hkind : moved.kind = node.kind := by
      have heq := h.kind_eq id hid
      rw [kind?, kind?, hnode, hmoved] at heq
      exact Option.some.inj heq
    have hchildren : tree.children id = node.children := children_of_node? hnode
    rw [termWithin, termWithin, hnode, hmoved]
    show [Term.shape _] = [Term.shape _]
    rw [Term.shape_node, Term.shape_node, hkind]
    -- members of a class are no part of its shape, so children are compared in other nodes only
    cases hclass : node.kind.isClass with
    | true => rfl
    | false =>
      have hplain : tree.has NodeKind.isClass id = false := by
        rw [has, kind?, hnode]
        exact hclass
      have hbelow : moved.children = node.children.map place := by
        rw [← children_of_node? hmoved, h.children_eq id hid hplain, hchildren]
      have hshapes : (moved.children.flatMap (other.termWithin depth)).map Term.shape
          = (node.children.flatMap (tree.termWithin depth)).map Term.shape := by
        rw [hbelow, List.flatMap_map, List.map_flatMap, List.map_flatMap]
        refine List.flatMap_congr fun child hchild => ?_
        exact ih (htree.lt_of_child (hchildren ▸ hchild))
      rw [hshapes]

theorem shape_term? (h : Rearrangement place tree other) (htree : tree.IsForest) {id : Nat}
    (hid : id < tree.size) : (other.term? (place id)).map Term.shape = (tree.term? id).map Term.shape := by
  unfold term?
  rw [← List.head?_map, ← List.head?_map, h.size_eq, h.shape_termWithin htree _ hid]

end Rearrangement

end SyntaxTree

end PatchPresence
