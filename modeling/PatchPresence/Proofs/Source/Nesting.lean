/-
  PatchPresence.Proofs.Source.Nesting — nested views of valid trees.

  The nested view goes down a bounded number of levels. In a valid tree the bound cuts nothing off: no way up is
  longer than the number of nodes, so the view of a node is made from the views of all its children. What stands
  in the view of a node is what is below it in the tree.

  Main results:
    * `SyntaxTree.IsForest.term?_eq` — the view of a node is made from the views of its children.
    * `SyntaxTree.IsForest.exists_within_forest` — every view stands in the view of the whole tree.
-/
import Mathlib.Data.List.Perm.Subperm
import PatchPresence.Proofs.Source.Forest
import PatchPresence.Proofs.Source.Navigation

namespace PatchPresence

theorem Term.Within.trans {part middle whole : Term} (h : Within part middle) (h' : Within middle whole) :
    Within part whole := by
  induction h' with
  | self => exact h
  | deeper hmem _ ih => exact .deeper hmem ih

namespace SyntaxTree

variable {tree : SyntaxTree}

/-! ## §1. Levels. -/

theorem termWithin_succ {id : Nat} {node : SyntaxNode} (hnode : tree.node? id = some node) (depth : Nat) :
    tree.termWithin (depth + 1) id = [.node id node.kind (node.children.flatMap (tree.termWithin depth))] := by
  rw [termWithin, hnode]

theorem IsForest.ancestors_of_child (h : tree.IsForest) {owner id : Nat} (hid : id ∈ tree.children owner) :
    tree.ancestors id = id :: tree.ancestors owner := by
  have howner : owner < tree.size := lt_size_of_mem_children hid
  have hchain := (h.parentChain_ancestors howner).1
  exact (ParentChain.up (h.lt_of_child hid) (h.parent_of_child hid) hchain).ancestors_eq h

theorem ParentChain.nodup (hforest : tree.IsForest) {id : Nat} {chain : List Nat}
    (h : tree.ParentChain id chain) : chain.Nodup := by
  induction h with
  | top => exact List.nodup_singleton _
  | up hlt howner hchain ih =>
    refine List.nodup_cons.2 ⟨fun hmem => ?_, ih⟩
    exact hforest.not_below_of_child (hforest.mem_children_of_parent howner)
      ((hchain.mem_iff_below hforest _).1 hmem)

/-- No way up is longer than the number of nodes. -/
theorem IsForest.length_ancestors_le (h : tree.IsForest) {id : Nat} (hid : id < tree.size) :
    (tree.ancestors id).length ≤ tree.size := by
  have hchain := (h.parentChain_ancestors hid).1
  have hsubset : tree.ancestors id ⊆ List.range tree.size :=
    fun _ ha => List.mem_range.2 (hchain.lt_of_mem ha)
  have hle := (List.Nodup.subperm (hchain.nodup h) hsubset).length_le
  rwa [List.length_range] at hle

/-- Two views of a node are equal when both reach down to where no node can be. -/
theorem IsForest.termWithin_congr (h : tree.IsForest) {depth : Nat} :
    ∀ {other id : Nat}, id < tree.size → tree.size < depth + (tree.ancestors id).length →
      tree.size < other + (tree.ancestors id).length →
      tree.termWithin depth id = tree.termWithin other id := by
  -- a child has one level less, and one node more on its way up
  induction depth with
  | zero =>
    intro other id hid hdepth _
    have hle := h.length_ancestors_le hid
    omega
  | succ depth ih =>
    intro other id hid hdepth hother
    cases other with
    | zero =>
      have hle := h.length_ancestors_le hid
      omega
    | succ other =>
      obtain ⟨node, hnode⟩ := exists_node? hid
      rw [termWithin_succ hnode, termWithin_succ hnode]
      have hbelow : node.children.flatMap (tree.termWithin depth)
          = node.children.flatMap (tree.termWithin other) := by
        refine List.flatMap_congr fun child hchild => ?_
        rw [← children_of_node? hnode] at hchild
        have hlength : (tree.ancestors child).length = (tree.ancestors id).length + 1 := by
          rw [h.ancestors_of_child hchild, List.length_cons]
        exact ih (h.lt_of_child hchild) (by omega) (by omega)
      rw [hbelow]

theorem toList_term? {id : Nat} (hid : id < tree.size) :
    (tree.term? id).toList = tree.termWithin tree.size id := by
  obtain ⟨node, hnode⟩ := exists_node? hid
  obtain ⟨depth, hdepth⟩ : ∃ depth, tree.size = depth + 1 := ⟨tree.size - 1, by omega⟩
  rw [term?, hdepth, termWithin_succ hnode]
  rfl

/-- The view of a node is made from the views of its children. -/
theorem IsForest.term?_eq (h : tree.IsForest) {id : Nat} {node : SyntaxNode}
    (hnode : tree.node? id = some node) :
    tree.term? id = some (.node id node.kind (node.children.filterMap tree.term?)) := by
  have hid : id < tree.size := (Array.getElem?_eq_some_iff.1 hnode).1
  obtain ⟨depth, hdepth⟩ : ∃ depth, tree.size = depth + 1 := ⟨tree.size - 1, by omega⟩
  have hbelow : node.children.flatMap (tree.termWithin depth) = node.children.filterMap tree.term? := by
    rw [List.filterMap_eq_flatMap_toList]
    refine List.flatMap_congr fun child hchild => ?_
    rw [← children_of_node? hnode] at hchild
    have hlt : child < tree.size := h.lt_of_child hchild
    rw [toList_term? hlt]
    -- a child has at least two nodes on its way up, so one level less is enough
    have hlength : 2 ≤ (tree.ancestors child).length := by
      obtain ⟨-, root, -, hlast⟩ := h.parentChain_ancestors hid
      have hpos : 0 < (tree.ancestors id).length := List.length_pos_of_mem (List.mem_of_getLast? hlast)
      rw [h.ancestors_of_child hchild, List.length_cons]
      omega
    exact h.termWithin_congr hlt (by omega) (by omega)
  rw [term?, hdepth, termWithin_succ hnode, hbelow]
  rfl

/-! ## §2. What stands in a view. -/

theorem lt_of_term? {id : Nat} {term : Term} (h : tree.term? id = some term) : id < tree.size := by
  by_cases hid : id < tree.size
  · exact hid
  · have hnone : tree.node? id = none := Array.getElem?_eq_none (Nat.le_of_not_lt hid)
    have hempty : ∀ depth, tree.termWithin depth id = [] := by
      intro depth
      cases depth with
      | zero => rfl
      | succ depth => rw [termWithin, hnone]
    rw [term?, hempty] at h
    cases h

theorem IsForest.of_term? (h : tree.IsForest) {id : Nat} {term : Term} (hterm : tree.term? id = some term) :
    term.id = id ∧ tree.kind? id = some term.kind
      ∧ term.children = (tree.children id).filterMap tree.term? := by
  obtain ⟨node, hnode⟩ := exists_node? (lt_of_term? hterm)
  rw [h.term?_eq hnode] at hterm
  obtain rfl := Option.some.inj hterm
  rw [kind?, hnode, children_of_node? hnode]
  exact ⟨rfl, rfl, rfl⟩

theorem IsForest.kind_of_term? (h : tree.IsForest) {id : Nat} {term : Term} (hterm : tree.term? id = some term)
    {kind : NodeKind} (hkind : tree.kind? id = some kind) : term.kind = kind :=
  Option.some.inj ((h.of_term? hterm).2.1.symm.trans hkind)

theorem IsForest.exists_term? (h : tree.IsForest) {id : Nat} (hid : id < tree.size) :
    ∃ term, tree.term? id = some term := by
  obtain ⟨node, hnode⟩ := exists_node? hid
  exact ⟨_, h.term?_eq hnode⟩

/-- A node that has a kind has a view, at its position and of that kind. -/
theorem IsForest.exists_term?_of_kind? (h : tree.IsForest) {id : Nat} {kind : NodeKind}
    (hkind : tree.kind? id = some kind) : ∃ term, tree.term? id = some term ∧ term.id = id ∧ term.kind = kind := by
  obtain ⟨node, hnode, -⟩ := Option.map_eq_some_iff.1 hkind
  obtain ⟨term, hterm⟩ := h.exists_term? (Array.getElem?_eq_some_iff.1 hnode).1
  exact ⟨term, hterm, (h.of_term? hterm).1, h.kind_of_term? hterm hkind⟩

/-- The children of a view are the views of the children, one each. -/
theorem IsForest.map_id_children (h : tree.IsForest) {id : Nat} {term : Term} (hterm : tree.term? id = some term) :
    term.children.map Term.id = tree.children id := by
  have hviews : ∀ ids : List Nat, (∀ child ∈ ids, child < tree.size) →
      (ids.filterMap tree.term?).map Term.id = ids := by
    intro ids
    induction ids with
    | nil => exact fun _ => rfl
    | cons first rest ih =>
      intro hlt
      obtain ⟨hfirst, hrest⟩ := List.forall_mem_cons.1 hlt
      obtain ⟨view, hview⟩ := h.exists_term? hfirst
      rw [List.filterMap_cons_some hview, List.map_cons, (h.of_term? hview).1, ih hrest]
  rw [(h.of_term? hterm).2.2]
  exact hviews _ fun child hchild => h.lt_of_child hchild

/-- The view of a node that is below another one stands in the view of that one. -/
theorem IsForest.within_of_below (h : tree.IsForest) {top id : Nat} (htop : tree.Below top id) {part whole : Term}
    (hpart : tree.term? id = some part) (hwhole : tree.term? top = some whole) : part.Within whole := by
  induction htop generalizing part with
  | self =>
    rw [hwhole] at hpart
    obtain rfl := Option.some.inj hpart
    exact .self
  | child _ hid ih =>
    obtain ⟨owner, howner⟩ := h.exists_term? (lt_size_of_mem_children hid)
    have hmem : part ∈ owner.children := by
      rw [(h.of_term? howner).2.2]
      exact List.mem_filterMap.2 ⟨_, hid, hpart⟩
    refine Term.Within.trans ?_ (ih howner)
    cases owner with
    | node => exact .deeper hmem .self

theorem IsForest.mem_ids_term? (h : tree.IsForest) {top id : Nat} (hbelow : tree.Below top id) {term : Term}
    (hterm : tree.term? top = some term) : id ∈ term.ids := by
  obtain ⟨part, hpart⟩ := h.exists_term? (h.lt_of_below (lt_of_term? hterm) hbelow)
  have hwithin := h.within_of_below hbelow hpart hterm
  exact hwithin.ids_subset id ((h.of_term? hpart).1 ▸ part.id_mem_ids)

/-- A set of nodes with all their children holds what is below each of them. -/
theorem IsForest.descendants_subset (h : tree.IsForest) {id : Nat} {nodes : List Nat} (hid : id < tree.size)
    (hmem : id ∈ nodes) (hclosed : ∀ a ∈ nodes, ∀ b ∈ tree.children a, b ∈ nodes) :
    tree.descendants id ⊆ nodes := by
  intro node hnode
  have hbelow : tree.Below id node := (h.mem_descendants_iff hid node).1 hnode
  induction hbelow with
  | self => exact hmem
  | child howner hchild ih =>
    exact hclosed _ (ih ((h.mem_descendants_iff hid _).2 howner)) _ hchild

/-- What stands in the view of a node is the view of a node below it. -/
theorem IsForest.below_of_within (h : tree.IsForest) {part whole : Term} (hwithin : part.Within whole) :
    ∀ {top : Nat}, tree.term? top = some whole →
      tree.Below top part.id ∧ tree.term? part.id = some part := by
  induction hwithin with
  | self =>
    intro top htop
    rw [(h.of_term? htop).1]
    exact ⟨.self, htop⟩
  | @deeper child id kind children hmem _ ih =>
    intro top htop
    replace hmem : child ∈ (tree.children top).filterMap tree.term? := (h.of_term? htop).2.2 ▸ hmem
    obtain ⟨next, hnext, hchild⟩ := List.mem_filterMap.1 hmem
    obtain ⟨hbelow, hpart⟩ := ih hchild
    exact ⟨hbelow.of_child hnext, hpart⟩

/-- Every view stands in the view of the whole tree. -/
theorem IsForest.exists_within_forest (h : tree.IsForest) {id : Nat} {term : Term}
    (hterm : tree.term? id = some term) : ∃ root ∈ tree.forest, term.Within root := by
  obtain ⟨top, htop, hbelow⟩ := h.reached id (lt_of_term? hterm)
  obtain ⟨root, hroot⟩ := h.exists_term? (h.lt_of_root htop)
  refine ⟨root, List.mem_flatMap.2 ⟨top, htop, ?_⟩, h.within_of_below hbelow hterm hroot⟩
  rw [← toList_term? (h.lt_of_root htop), hroot]
  exact List.mem_singleton_self root

end SyntaxTree

end PatchPresence
