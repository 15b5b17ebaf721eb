/-
  PatchPresence.Proofs.Source.Links — trees whose links form a forest, and the check that finds them.

  A forest is described by its links alone: where a node is listed, and what it says of its parent. Standing
  below another node follows the children lists, and in a forest it is an order in which the nodes above a
  node form a chain. The check walks with a stack; what carries both the check and every other walk is that
  the nodes on the stack have nothing below them in common, and nothing below them that was seen.

  Main results:
    * `SyntaxTree.checkLinksWithin_eq` — on any tree the check ends after one round a node and one more.
    * `SyntaxTree.IsForest.not_below_of_child`, `SyntaxTree.IsForest.below_total` — no way back, no way around.
    * `SyntaxTree.validate_eq_ok_iff` — a tree passes exactly when its links form a forest.
-/
import Mathlib.Data.List.Nodup
import PatchPresence.Proofs.Outcome
import PatchPresence.Proofs.Search
import PatchPresence.Source.Tree

namespace PatchPresence.SyntaxTree

/-! ## §1. Forests. -/

/-- All places that list a node: the roots, then the children of every node. -/
def links (tree : SyntaxTree) : List Nat := tree.roots ++ (List.range tree.size).flatMap tree.children

/-- A node is the top node or is listed below it, over any number of levels. -/
inductive Below (tree : SyntaxTree) (top : Nat) : Nat → Prop
  | self : Below tree top top
  | child {owner id : Nat} (howner : Below tree top owner) (hid : id ∈ tree.children owner) :
      Below tree top id

/-- The links form a forest over all nodes. -/
structure IsForest (tree : SyntaxTree) : Prop where
  inRange : ∀ id ∈ tree.links, id < tree.size
  once : ∀ id < tree.size, tree.links.count id = 1
  rootParent : ∀ id ∈ tree.roots, tree.parent? id = none
  childParent : ∀ owner < tree.size, ∀ id ∈ tree.children owner, tree.parent? id = some owner
  reached : ∀ id < tree.size, ∃ root ∈ tree.roots, tree.Below root id

variable {tree : SyntaxTree}

theorem lt_size_of_mem_children {owner id : Nat} (h : id ∈ tree.children owner) : owner < tree.size := by
  by_cases hlt : owner < tree.size
  · exact hlt
  · have hnone : tree.node? owner = none := Array.getElem?_eq_none (Nat.le_of_not_lt hlt)
    rw [children, hnone] at h
    simp at h

theorem exists_node? {id : Nat} (hid : id < tree.size) : ∃ node, tree.node? id = some node :=
  ⟨tree.nodes[id], Array.getElem?_eq_getElem hid⟩

theorem children_of_node? {id : Nat} {node : SyntaxNode} (hnode : tree.node? id = some node) :
    tree.children id = node.children := by
  rw [children, hnode]
  rfl

theorem exists_kind_of_has {test : NodeKind → Bool} {id : Nat} (h : tree.has test id = true) :
    ∃ kind, tree.kind? id = some kind ∧ test kind = true := by
  unfold has at h
  cases hkind : tree.kind? id with
  | none =>
    rw [hkind] at h
    cases h
  | some kind => exact ⟨kind, rfl, by rwa [hkind] at h⟩

theorem has_of_kind {test : NodeKind → Bool} {id : Nat} {kind : NodeKind} (hkind : tree.kind? id = some kind)
    (h : test kind = true) : tree.has test id = true := by
  rw [has, hkind, Option.map_some, Option.getD_some, h]

theorem lt_size_of_has {test : NodeKind → Bool} {id : Nat} (h : tree.has test id = true) : id < tree.size := by
  obtain ⟨kind, hkind, -⟩ := exists_kind_of_has h
  obtain ⟨node, hnode, -⟩ := Option.map_eq_some_iff.1 hkind
  exact (Array.getElem?_eq_some_iff.1 hnode).1

theorem mem_links {id : Nat} :
    id ∈ tree.links ↔ id ∈ tree.roots ∨ ∃ owner, id ∈ tree.children owner := by
  unfold links
  rw [List.mem_append, List.mem_flatMap]
  constructor
  · rintro (hroot | ⟨owner, -, hid⟩)
    · exact .inl hroot
    · exact .inr ⟨owner, hid⟩
  · rintro (hroot | ⟨owner, hid⟩)
    · exact .inl hroot
    · exact .inr ⟨owner, List.mem_range.2 (lt_size_of_mem_children hid), hid⟩

namespace Below

variable {a b c : Nat}

theorem trans (hab : tree.Below a b) (hbc : tree.Below b c) : tree.Below a c := by
  induction hbc with
  | self => exact hab
  | child _ hid ih => exact .child ih hid

/-- What is below a child is below the node. -/
theorem of_child (hb : b ∈ tree.children a) (h : tree.Below b c) : tree.Below a c :=
  trans (.child .self hb) h

end Below

namespace IsForest

variable {a b x : Nat}

theorem parent_of_child (h : tree.IsForest) (hb : b ∈ tree.children a) : tree.parent? b = some a :=
  h.childParent a (lt_size_of_mem_children hb) b hb

theorem lt_of_child (h : tree.IsForest) (hb : b ∈ tree.children a) : b < tree.size :=
  h.inRange b (mem_links.2 (.inr ⟨a, hb⟩))

theorem lt_of_root (h : tree.IsForest) (ha : a ∈ tree.roots) : a < tree.size :=
  h.inRange a (mem_links.2 (.inl ha))

theorem lt_of_below (h : tree.IsForest) (ha : a < tree.size) (hx : tree.Below a x) : x < tree.size := by
  cases hx with
  | self => exact ha
  | child _ hid => exact h.lt_of_child hid

/-- Every node is listed somewhere. -/
theorem mem_links_of_lt (h : tree.IsForest) (ha : a < tree.size) : a ∈ tree.links := by
  apply List.count_pos_iff.1
  rw [h.once a ha]
  omega

/-- A node without a parent is a root, since it is listed below no other. -/
theorem mem_roots (h : tree.IsForest) (ha : a < tree.size) (htop : tree.parent? a = none) :
    a ∈ tree.roots := by
  rcases mem_links.1 (h.mem_links_of_lt ha) with hroot | ⟨owner, hchild⟩
  · exact hroot
  · rw [h.parent_of_child hchild] at htop
    cases htop

/-- A parent link leads to a node that lists the child, since every node is listed somewhere. -/
theorem mem_children_of_parent (h : tree.IsForest) (hb : tree.parent? b = some a) :
    b ∈ tree.children a := by
  have hlt : b < tree.size := by
    by_cases hlt : b < tree.size
    · exact hlt
    · have hnone : tree.node? b = none := Array.getElem?_eq_none (Nat.le_of_not_lt hlt)
      rw [parent?, hnone] at hb
      cases hb
  rcases mem_links.1 (h.mem_links_of_lt hlt) with hroot | ⟨owner, hchild⟩
  · rw [h.rootParent b hroot] at hb
    cases hb
  · rw [h.parent_of_child hchild, Option.some.injEq] at hb
    exact hb ▸ hchild

theorem nodup_links (h : tree.IsForest) : tree.links.Nodup := by
  rw [List.nodup_iff_count_le_one]
  intro id
  by_cases hmem : id ∈ tree.links
  · exact Nat.le_of_eq (h.once id (h.inRange id hmem))
  · rw [List.count_eq_zero_of_not_mem hmem]
    omega

theorem nodup_roots (h : tree.IsForest) : tree.roots.Nodup :=
  h.nodup_links.of_append_left

theorem nodup_children (h : tree.IsForest) (a : Nat) : (tree.children a).Nodup := by
  by_cases hlt : a < tree.size
  · exact (List.nodup_flatMap.1 h.nodup_links.of_append_right).1 a (List.mem_range.2 hlt)
  · rw [List.eq_nil_iff_forall_not_mem.2 fun _ hid => hlt (lt_size_of_mem_children hid)]
    exact List.nodup_nil

/-- The last step down is the parent link of where it leads. -/
theorem below_cases (h : tree.IsForest) (hx : tree.Below a x) :
    x = a ∨ ∃ owner, tree.parent? x = some owner ∧ tree.Below a owner := by
  cases hx with
  | self => exact .inl rfl
  | child howner hid => exact .inr ⟨_, h.parent_of_child hid, howner⟩

theorem below_of_parent (h : tree.IsForest) (hx : tree.Below a x) (hne : x ≠ a) {owner : Nat}
    (howner : tree.parent? x = some owner) : tree.Below a owner := by
  rcases h.below_cases hx with rfl | ⟨other, hother, habove⟩
  · exact absurd rfl hne
  · rw [howner, Option.some.injEq] at hother
    exact hother ▸ habove

/-- Nothing is above a root. -/
theorem eq_of_below_root (h : tree.IsForest) (hx : x ∈ tree.roots) (hbelow : tree.Below a x) : x = a := by
  rcases h.below_cases hbelow with heq | ⟨owner, howner, -⟩
  · exact heq
  · rw [h.rootParent x hx] at howner
    cases howner

/-- There is no way from a child back to its parent. -/
theorem not_below_of_child (h : tree.IsForest) (hb : b ∈ tree.children a) : ¬ tree.Below b a := by
  obtain ⟨root, hroot, hreach⟩ := h.reached a (lt_size_of_mem_children hb)
  -- down from the root: a way back from below the next node would be a way back already here
  induction hreach generalizing b with
  | self =>
    intro hback
    have heq : root = b := h.eq_of_below_root hroot hback
    have hparent := h.parent_of_child hb
    rw [← heq, h.rootParent root hroot] at hparent
    cases hparent
  | @child owner a howner ha ih =>
    intro hback
    have hnot : ¬ tree.Below a owner := ih ha
    by_cases heq : a = b
    · subst heq
      have hparent := h.parent_of_child hb
      rw [h.parent_of_child ha, Option.some.injEq] at hparent
      exact hnot (hparent ▸ .self)
    · exact hnot (.of_child hb (h.below_of_parent hback heq (h.parent_of_child ha)))

/-- Of two nodes above a node one is above the other. -/
theorem below_total (h : tree.IsForest) (ha : tree.Below a x) (hb : tree.Below b x) :
    tree.Below a b ∨ tree.Below b a := by
  induction ha with
  | self => exact .inr hb
  | child howner hid ih =>
    rcases h.below_cases hb with rfl | ⟨owner, howner', habove⟩
    · exact .inl (.child howner hid)
    · rw [h.parent_of_child hid, Option.some.injEq] at howner'
      exact ih (howner' ▸ habove)

/-- Different roots have nothing below them in common. -/
theorem root_unique (h : tree.IsForest) (ha : a ∈ tree.roots) (hb : b ∈ tree.roots)
    (hax : tree.Below a x) (hbx : tree.Below b x) : a = b := by
  rcases h.below_total hax hbx with hab | hba
  · exact (h.eq_of_below_root hb hab).symm
  · exact h.eq_of_below_root ha hba

/-- Different children of a node have nothing below them in common. -/
theorem child_unique (h : tree.IsForest) {owner : Nat} (ha : a ∈ tree.children owner)
    (hb : b ∈ tree.children owner) (hax : tree.Below a x) (hbx : tree.Below b x) : a = b := by
  by_contra hne
  rcases h.below_total hax hbx with hab | hba
  · exact h.not_below_of_child ha (h.below_of_parent hab (Ne.symm hne) (h.parent_of_child hb))
  · exact h.not_below_of_child hb (h.below_of_parent hba hne (h.parent_of_child ha))

end IsForest

/-! ## §2. Walks with a stack. -/

/-- Two nodes have nothing below them in common. -/
def Apart (tree : SyntaxTree) (a b : Nat) : Prop := ∀ x, tree.Below a x → ¬ tree.Below b x

/-- The stack of a walk that has not gone wrong: its nodes are apart, and nothing below them was seen. -/
structure Pending (tree : SyntaxTree) (work seen : List Nat) : Prop where
  inRange : ∀ id ∈ work, id < tree.size
  apart : work.Pairwise tree.Apart
  ahead : ∀ id ∈ work, ∀ old ∈ seen, ¬ tree.Below id old

namespace Pending

variable {id : Nat} {work rest seen : List Nat}

theorem lt (h : tree.Pending (id :: rest) seen) : id < tree.size := h.inRange id List.mem_cons_self

theorem fresh (h : tree.Pending (id :: rest) seen) : id ∉ seen :=
  fun hmem => h.ahead id List.mem_cons_self id hmem .self

/-- The roots are a stack to start from. -/
theorem roots (hforest : tree.IsForest) : tree.Pending tree.roots [] := by
  refine ⟨fun id hid => hforest.lt_of_root hid, ?_, fun _ _ _ hold => absurd hold (List.not_mem_nil)⟩
  apply List.Pairwise.imp_of_mem _ hforest.nodup_roots
  intro a b ha hb hne x hax hbx
  exact hne (hforest.root_unique ha hb hax hbx)

theorem single {id : Nat} (hid : id < tree.size) : tree.Pending [id] [] := by
  refine ⟨fun other hother => ?_, List.pairwise_singleton _ _, fun _ _ _ hold => absurd hold (List.not_mem_nil)⟩
  rw [List.mem_singleton] at hother
  exact hother ▸ hid

theorem visit (hforest : tree.IsForest) (h : tree.Pending (id :: rest) seen) :
    tree.Pending (tree.children id ++ rest) (seen ++ [id]) := by
  obtain ⟨hidApart, hrestApart⟩ := List.pairwise_cons.1 h.apart
  refine ⟨?_, ?_, ?_⟩
  · intro other hother
    rcases List.mem_append.1 hother with hchild | hrest
    · exact hforest.lt_of_child hchild
    · exact h.inRange other (List.mem_cons_of_mem id hrest)
  · refine List.pairwise_append.2 ⟨?_, hrestApart, ?_⟩
    · apply List.Pairwise.imp_of_mem _ (hforest.nodup_children id)
      intro a b ha hb hne x hax hbx
      exact hne (hforest.child_unique ha hb hax hbx)
    · intro a ha b hb x hax
      exact hidApart b hb x (.of_child ha hax)
  · intro other hother old hold
    rcases List.mem_append.1 hother with hchild | hrest
    · rcases List.mem_append.1 hold with hseen | hself
      · intro hbelow
        exact h.ahead id List.mem_cons_self old hseen (.of_child hchild hbelow)
      · rw [List.mem_singleton] at hself
        subst hself
        exact hforest.not_below_of_child hchild
    · rcases List.mem_append.1 hold with hseen | hself
      · exact h.ahead other (List.mem_cons_of_mem id hrest) old hseen
      · rw [List.mem_singleton] at hself
        subst hself
        exact hidApart other hrest old .self

end Pending

/-! ## §3. The check of the links. -/

/-- The check of the links, cut off after a number of rounds; none when it would go on. -/
def checkLinksWithin (tree : SyntaxTree) :
    Nat → List (Nat × Option Nat) → List Nat → Option (Except TreeFault (List Nat))
  | _, [], seen => some (.ok seen)
  | 0, _ :: _, _ => none
  | rounds + 1, (id, parent) :: rest, seen =>
    if tree.size ≤ id then some (.error (.outOfRange id))
    else if id ∈ seen then some (.error (.reachedTwice id))
    else if tree.parent? id ≠ parent then some (.error (.parentDisagrees id))
    else tree.checkLinksWithin rounds ((tree.children id).map (·, some id) ++ rest) (seen ++ [id])

/-- Every round but the last sees a new node, whatever the links are. -/
theorem checkLinksWithin_eq (tree : SyntaxTree) (work : List (Nat × Option Nat)) (seen : List Nat)
    {rounds : Nat} (h : unseenCount tree.size seen < rounds) :
    tree.checkLinksWithin rounds work seen = some (tree.checkLinks work seen) := by
  fun_induction tree.checkLinks work seen generalizing rounds with
  | case1 seen =>
    unfold checkLinksWithin
    rfl
  | case2 seen id rest hlt hnew ih =>
    obtain ⟨before, rfl⟩ : ∃ before, rounds = before + 1 := ⟨rounds - 1, by omega⟩
    have hmem : id ∉ seen := by simpa using hnew
    have hless : unseenCount tree.size (seen ++ [id]) < unseenCount tree.size seen :=
      unseenCount_snoc_lt hlt hnew
    unfold checkLinksWithin
    rw [if_neg (Nat.not_le_of_lt hlt), if_neg hmem, if_neg (fun hne => hne rfl)]
    exact ih (by omega)
  | case3 seen id parent rest hlt hnew hparent =>
    obtain ⟨before, rfl⟩ : ∃ before, rounds = before + 1 := ⟨rounds - 1, by omega⟩
    have hmem : id ∉ seen := by simpa using hnew
    unfold checkLinksWithin
    rw [if_neg (Nat.not_le_of_lt hlt), if_neg hmem, if_pos hparent]
  | case4 seen id parent rest hlt hold =>
    obtain ⟨before, rfl⟩ : ∃ before, rounds = before + 1 := ⟨rounds - 1, by omega⟩
    have hmem : id ∈ seen := by simpa using hold
    unfold checkLinksWithin
    rw [if_neg (Nat.not_le_of_lt hlt), if_pos hmem]
  | case5 seen id parent rest hge =>
    obtain ⟨before, rfl⟩ : ∃ before, rounds = before + 1 := ⟨rounds - 1, by omega⟩
    unfold checkLinksWithin
    rw [if_pos (Nat.le_of_not_lt hge)]

/-- What a check that passed says of the nodes that it came to. -/
structure Sweep (tree : SyntaxTree) (work : List (Nat × Option Nat)) (fresh : List Nat) : Prop where
  inRange : ∀ id ∈ fresh, id < tree.size
  /-- Each of them stood on the stack at first or was put there once, by its parent. -/
  listed : (work.map Prod.fst ++ fresh.flatMap tree.children).Perm fresh
  workParent : ∀ item ∈ work, tree.parent? item.1 = item.2
  childParent : ∀ owner ∈ fresh, ∀ id ∈ tree.children owner, tree.parent? id = some owner
  reached : ∀ id ∈ fresh, ∃ item ∈ work, tree.Below item.1 id

theorem Sweep.visit {id : Nat} {rest : List (Nat × Option Nat)} {fresh : List Nat} (hlt : id < tree.size)
    (h : tree.Sweep ((tree.children id).map (·, some id) ++ rest) fresh) :
    tree.Sweep ((id, tree.parent? id) :: rest) (id :: fresh) where
  inRange := List.forall_mem_cons.2 ⟨hlt, h.inRange⟩
  listed := by
    have hlisted : (tree.children id ++ rest.map Prod.fst ++ fresh.flatMap tree.children).Perm fresh := by
      simpa [Function.comp_def] using h.listed
    rw [List.map_cons, List.cons_append, List.flatMap_cons, List.perm_cons]
    refine List.Perm.trans ?_ hlisted
    rw [List.append_assoc]
    exact List.perm_append_comm_assoc _ _ _
  workParent := by
    refine List.forall_mem_cons.2 ⟨rfl, fun item hitem => ?_⟩
    exact h.workParent item (List.mem_append_right _ hitem)
  childParent := by
    refine List.forall_mem_cons.2 ⟨fun child hchild => ?_, h.childParent⟩
    exact h.workParent (child, some id) (List.mem_append_left _ (List.mem_map_of_mem hchild))
  reached := by
    refine List.forall_mem_cons.2 ⟨⟨_, List.mem_cons_self, .self⟩, fun x hx => ?_⟩
    obtain ⟨item, hitem, hbelow⟩ := h.reached x hx
    rcases List.mem_append.1 hitem with hmapped | hrest
    · obtain ⟨child, hchild, rfl⟩ := List.mem_map.1 hmapped
      exact ⟨_, List.mem_cons_self, .of_child hchild hbelow⟩
    · exact ⟨item, List.mem_cons_of_mem _ hrest, hbelow⟩

theorem sweep_of_checkLinks {work : List (Nat × Option Nat)} {seen reached : List Nat}
    (hseen : seen.Nodup) (h : tree.checkLinks work seen = .ok reached) :
    ∃ fresh, reached = seen ++ fresh ∧ reached.Nodup ∧ tree.Sweep work fresh := by
  fun_induction tree.checkLinks work seen with
  | case1 seen =>
    cases h
    exact ⟨[], by simp, hseen, by simp, by simp, by simp, by simp, by simp⟩
  | case2 seen id rest hlt hnew ih =>
    have hmem : id ∉ seen := by simpa using hnew
    have hseen' : (seen ++ [id]).Nodup := List.nodup_append.2 ⟨hseen, List.nodup_singleton id, by
      intro a ha b hb hab
      rw [List.mem_singleton] at hb
      exact hmem (hb ▸ hab ▸ ha)⟩
    obtain ⟨fresh, rfl, hnodup, hsweep⟩ := ih hseen' h
    exact ⟨id :: fresh, by simp, hnodup, hsweep.visit hlt⟩
  | case3 => cases h
  | case4 => cases h
  | case5 => cases h

/-- In a forest the check passes, and comes to the nodes in the order of a search. -/
theorem IsForest.checkLinks_eq (hforest : tree.IsForest) (work : List (Nat × Option Nat)) (seen : List Nat)
    (hpending : tree.Pending (work.map Prod.fst) seen)
    (hparents : ∀ item ∈ work, tree.parent? item.1 = item.2) :
    tree.checkLinks work seen = .ok (explore tree.children tree.size (work.map Prod.fst) seen) := by
  fun_induction tree.checkLinks work seen with
  | case1 seen =>
    rw [List.map_nil, explore]
  | case2 seen id rest hlt hnew ih =>
    rw [List.map_cons, explore, dif_pos ⟨hlt, hnew⟩]
    have hmap : ((tree.children id).map (·, some id) ++ rest).map Prod.fst
        = tree.children id ++ rest.map Prod.fst := by
      simp [Function.comp_def]
    rw [hmap] at ih
    apply ih (hpending.visit hforest)
    intro item hitem
    rcases List.mem_append.1 hitem with hmapped | hrest
    · obtain ⟨child, hchild, rfl⟩ := List.mem_map.1 hmapped
      exact hforest.parent_of_child hchild
    · exact hparents item (List.mem_cons_of_mem _ hrest)
  | case3 seen id parent rest hlt hnew hparent =>
    exact absurd (hparents _ List.mem_cons_self) hparent
  | case4 seen id parent rest hlt hold =>
    exact absurd (by simpa using hpending.fresh) hold
  | case5 seen id parent rest hge =>
    exact absurd hpending.lt hge

/-! ## §4. Valid trees. -/

theorem validate_eq_ok_iff_checkLinks :
    tree.validate = .ok () ↔ ∃ reached, tree.checkLinks (tree.roots.map (·, none)) [] = .ok reached
      ∧ ∀ id < tree.size, id ∈ reached := by
  have hvalidate : tree.validate = .ok () ↔ tree.checkForest = .ok () := by
    unfold validate
    split
    · next hforest => simp [hforest]
    · next fault hforest => simp [hforest]
  rw [hvalidate, checkForest, bind_eq_ok_iff]
  constructor
  · rintro ⟨reached, hlinks, hscan⟩
    refine ⟨reached, hlinks, ?_⟩
    split at hscan
    · cases hscan
    · next hnone => simpa using hnone
  · rintro ⟨reached, hlinks, hall⟩
    refine ⟨reached, hlinks, ?_⟩
    have hnone : (List.range tree.size).find? (fun id => !reached.contains id) = none := by
      simpa using hall
    rw [hnone]
    rfl

theorem isForest_of_sweep {fresh : List Nat} (hnodup : fresh.Nodup)
    (h : tree.Sweep (tree.roots.map (·, none)) fresh) (hall : ∀ id < tree.size, id ∈ fresh) :
    tree.IsForest := by
  have hrange : fresh.Perm (List.range tree.size) := by
    rw [List.perm_ext_iff_of_nodup hnodup List.nodup_range]
    intro id
    rw [List.mem_range]
    exact ⟨h.inRange id, hall id⟩
  -- the nodes come in another order than by number, which the links do not care about
  have hlinks : tree.links.Perm (List.range tree.size) := by
    have hlisted : (tree.roots ++ fresh.flatMap tree.children).Perm fresh := by
      simpa [Function.comp_def] using h.listed
    exact ((hrange.flatMap_right tree.children).symm.append_left tree.roots).trans
      (hlisted.trans hrange)
  refine ⟨?_, ?_, ?_, ?_, ?_⟩
  · intro id hid
    exact List.mem_range.1 (hlinks.subset hid)
  · intro id hid
    rw [hlinks.count_eq]
    exact List.count_eq_one_of_mem List.nodup_range (List.mem_range.2 hid)
  · intro id hid
    exact h.workParent (id, none) (List.mem_map_of_mem hid)
  · intro owner howner id hid
    exact h.childParent owner (hall owner howner) id hid
  · intro id hid
    obtain ⟨item, hitem, hbelow⟩ := h.reached id (hall id hid)
    obtain ⟨root, hroot, rfl⟩ := List.mem_map.1 hitem
    exact ⟨root, hroot, hbelow⟩

/-- A search below nodes of a forest finds what is below them. -/
theorem IsForest.mem_explore_iff (hforest : tree.IsForest) {work : List Nat}
    (hwork : ∀ id ∈ work, id < tree.size) (x : Nat) :
    x ∈ explore tree.children tree.size work [] ↔ ∃ id ∈ work, tree.Below id x := by
  rw [PatchPresence.mem_explore_iff]
  constructor
  · rintro (hnil | hreached)
    · exact absurd hnil List.not_mem_nil
    · induction hreached with
      | seed hseed _ _ => exact ⟨_, hseed, .self⟩
      | edge _ hb _ _ ih =>
        obtain ⟨id, hid, hbelow⟩ := ih
        exact ⟨id, hid, .child hbelow hb⟩
  · rintro ⟨id, hid, hbelow⟩
    right
    induction hbelow with
    | self => exact .seed hid (hwork id hid) List.not_mem_nil
    | child _ hb ih => exact .edge ih hb (hforest.lt_of_child hb) List.not_mem_nil

/-- A tree passes exactly when its links form a forest. -/
theorem validate_eq_ok_iff : tree.validate = .ok () ↔ tree.IsForest := by
  rw [validate_eq_ok_iff_checkLinks]
  constructor
  · rintro ⟨reached, hlinks, hall⟩
    obtain ⟨fresh, rfl, hnodup, hsweep⟩ := sweep_of_checkLinks List.nodup_nil hlinks
    exact isForest_of_sweep hnodup hsweep hall
  · intro hforest
    have hfst : (tree.roots.map fun root => (root, (none : Option Nat))).map Prod.fst = tree.roots := by
      simp [Function.comp_def]
    refine ⟨_, hforest.checkLinks_eq _ _ ?_ ?_, ?_⟩
    · rw [hfst]
      exact Pending.roots hforest
    · intro item hitem
      obtain ⟨root, hroot, rfl⟩ := List.mem_map.1 hitem
      exact hforest.rootParent root hroot
    · intro id hid
      rw [hfst, hforest.mem_explore_iff fun root hroot => hforest.lt_of_root hroot]
      exact hforest.reached id hid

end PatchPresence.SyntaxTree
