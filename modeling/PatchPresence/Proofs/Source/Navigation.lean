/-
  PatchPresence.Proofs.Source.Navigation — ways up and down a valid syntax tree.

  `ancestors` and `descendants` remember where they have been, so that they end on every tree. The plain ways
  up and down do not: they follow links with nothing to stop them but the links themselves. On a valid tree
  the plain ways come to an end, and they list the same nodes in the same order.

  Main results:
    * `SyntaxTree.IsForest.parentChain_ancestors` — parent links lead up to a root, and no further.
    * `SyntaxTree.IsForest.nearest_of_ancestor?` — the ancestor found by a test is the lowest that passes it.
    * `SyntaxTree.IsForest.walk_explore` — a plain walk down ends, and lists no node behind one below it.
    * `SyntaxTree.validate_decides` — what the check of the links accepts, and what holds of accepted trees.
-/
import PatchPresence.Proofs.Source.Links

namespace PatchPresence.SyntaxTree

/-! ## §1. Plain ways. -/

/-- The way up from a node: parent links are followed until there is none. Every node on it exists. -/
inductive ParentChain (tree : SyntaxTree) : Nat → List Nat → Prop
  | top {id : Nat} (hlt : id < tree.size) (htop : tree.parent? id = none) : ParentChain tree id [id]
  | up {id owner : Nat} {chain : List Nat} (hlt : id < tree.size) (howner : tree.parent? id = some owner)
      (hchain : ParentChain tree owner chain) : ParentChain tree id (id :: chain)

/-- The way down from the nodes on a stack, to its end: the first node is listed and its children take its
    place, whether or not they were listed before. Every node on it exists. -/
inductive Walk (tree : SyntaxTree) : List Nat → List Nat → Prop
  | done : Walk tree [] []
  | visit {id : Nat} {rest order : List Nat} (hlt : id < tree.size)
      (horder : Walk tree (tree.children id ++ rest) order) : Walk tree (id :: rest) (id :: order)

/-- What the functions on trees rely on. -/
structure Navigable (tree : SyntaxTree) : Prop where
  /-- Parent links lead to a root. -/
  ancestors_end : ∀ id < tree.size, tree.ParentChain id (tree.ancestors id)
    ∧ ∃ root ∈ tree.roots, (tree.ancestors id).getLast? = some root
  /-- The plain walk down ends. -/
  descendants_end : ∀ id < tree.size, tree.Walk [id] (tree.descendants id)
  descendants_nodup : ∀ id < tree.size, (tree.descendants id).Nodup
  mem_descendants_iff : ∀ id < tree.size, ∀ x, x ∈ tree.descendants id ↔ id ∈ tree.ancestors x
  /-- No node is listed behind one that is below it. -/
  descendants_topDown : ∀ id < tree.size, (tree.descendants id).Pairwise fun a b => a ∉ tree.descendants b
  /-- The trees below the roots make up the whole tree. -/
  roots_cover : (tree.roots.flatMap tree.descendants).Perm (List.range tree.size)

variable {tree : SyntaxTree}

/-! ## §2. Up. -/

theorem ParentChain.lt_of_mem {id a : Nat} {chain : List Nat} (h : tree.ParentChain id chain)
    (ha : a ∈ chain) : a < tree.size := by
  induction h with
  | top hlt _ =>
    rw [List.mem_singleton.1 ha]
    exact hlt
  | up hlt _ _ ih =>
    rcases List.mem_cons.1 ha with rfl | ha
    · exact hlt
    · exact ih ha

theorem ParentChain.mem_iff_below (hforest : tree.IsForest) {id : Nat} {chain : List Nat}
    (h : tree.ParentChain id chain) (a : Nat) : a ∈ chain ↔ tree.Below a id := by
  induction h with
  | @top id hlt htop =>
    rw [List.mem_singleton]
    constructor
    · rintro rfl
      exact .self
    · intro hbelow
      rcases hforest.below_cases hbelow with heq | ⟨owner, howner, -⟩
      · exact heq.symm
      · rw [htop] at howner
        cases howner
  | @up id owner chain hlt howner hchain ih =>
    rw [List.mem_cons, ih]
    constructor
    · rintro (rfl | habove)
      · exact .self
      · exact .child habove (hforest.mem_children_of_parent howner)
    · intro hbelow
      by_cases heq : a = id
      · exact .inl heq
      · exact .inr (hforest.below_of_parent hbelow (Ne.symm heq) howner)

/-- The way up from a node below a root ends at that root. -/
theorem IsForest.exists_parentChain (hforest : tree.IsForest) {root id : Nat} (hroot : root ∈ tree.roots)
    (hbelow : tree.Below root id) :
    ∃ chain, tree.ParentChain id chain ∧ chain.getLast? = some root := by
  induction hbelow with
  | self => exact ⟨[root], .top (hforest.lt_of_root hroot) (hforest.rootParent root hroot), rfl⟩
  | @child owner id _ hid ih =>
    obtain ⟨chain, hchain, hlast⟩ := ih
    refine ⟨id :: chain, .up (hforest.lt_of_child hid) (hforest.parent_of_child hid) hchain, ?_⟩
    rw [List.getLast?_cons, hlast]
    rfl

/-- On the way up no node comes twice, so a search that skips what it has seen skips nothing. -/
theorem ParentChain.explore_eq (hforest : tree.IsForest) {id : Nat} {chain : List Nat}
    (h : tree.ParentChain id chain) (seen : List Nat) (hfresh : ∀ a ∈ chain, a ∉ seen) :
    explore (fun node => (tree.parent? node).toList) tree.size [id] seen = seen ++ chain := by
  induction h generalizing seen with
  | @top id hlt htop =>
    have hnew : seen.contains id = false := by simpa using hfresh id List.mem_cons_self
    rw [explore, dif_pos ⟨hlt, hnew⟩, htop]
    show explore _ _ [] _ = _
    rw [explore]
  | @up id owner chain hlt howner hchain ih =>
    obtain ⟨hidFresh, hchainFresh⟩ := List.forall_mem_cons.1 hfresh
    have hnew : seen.contains id = false := by simpa using hidFresh
    have hfresh' : ∀ a ∈ chain, a ∉ seen ++ [id] := by
      intro a ha hmem
      rcases List.mem_append.1 hmem with hseen | hself
      · exact hchainFresh a ha hseen
      · rw [List.mem_singleton] at hself
        subst hself
        exact hforest.not_below_of_child (hforest.mem_children_of_parent howner)
          ((hchain.mem_iff_below hforest a).1 ha)
    rw [explore, dif_pos ⟨hlt, hnew⟩, howner]
    show explore _ _ [owner] _ = _
    rw [ih _ hfresh', List.append_assoc, List.singleton_append]

theorem ParentChain.ancestors_eq (hforest : tree.IsForest) {id : Nat} {chain : List Nat}
    (h : tree.ParentChain id chain) : tree.ancestors id = chain := by
  unfold ancestors
  rw [h.explore_eq hforest [] fun _ _ => List.not_mem_nil, List.nil_append]

/-- Parent links lead to a root. -/
theorem IsForest.parentChain_ancestors (hforest : tree.IsForest) {id : Nat} (hid : id < tree.size) :
    tree.ParentChain id (tree.ancestors id)
      ∧ ∃ root ∈ tree.roots, (tree.ancestors id).getLast? = some root := by
  obtain ⟨root, hroot, hbelow⟩ := hforest.reached id hid
  obtain ⟨chain, hchain, hlast⟩ := hforest.exists_parentChain hroot hbelow
  rw [hchain.ancestors_eq hforest]
  exact ⟨hchain, root, hroot, hlast⟩

theorem IsForest.mem_ancestors_iff (hforest : tree.IsForest) {id x : Nat} (hx : x < tree.size) :
    id ∈ tree.ancestors x ↔ tree.Below id x :=
  (hforest.parentChain_ancestors hx).1.mem_iff_below hforest id

theorem ancestors_of_le {x : Nat} (hx : tree.size ≤ x) : tree.ancestors x = [] := by
  unfold ancestors
  rw [explore, dif_neg (by omega), explore]

/-- Of all nodes on the way up that pass a test, the first is the lowest. -/
theorem ParentChain.below_of_find? (hforest : tree.IsForest) {id : Nat} {chain : List Nat}
    (h : tree.ParentChain id chain) {a b : Nat} {p : Nat → Bool} (ha : chain.find? p = some a) (hb : b ∈ chain)
    (hpass : p b = true) : tree.Below b a := by
  induction h with
  | top =>
    obtain rfl := List.mem_singleton.1 hb
    obtain rfl := List.mem_singleton.1 (List.mem_of_find?_eq_some ha)
    exact .self
  | @up id owner chain hlt howner hchain ih =>
    cases hid : p id with
    | true =>
      -- the search ends here, and the whole way is above this node
      rw [List.find?_cons_of_pos hid] at ha
      obtain rfl := Option.some.inj ha
      exact ((ParentChain.up hlt howner hchain).mem_iff_below hforest b).1 hb
    | false =>
      rw [List.find?_cons_of_neg (by simp [hid])] at ha
      rcases List.mem_cons.1 hb with rfl | hb
      · rw [hid] at hpass
        cases hpass
      · exact ih ha hb

theorem IsForest.nearest_of_ancestor? (hforest : tree.IsForest) {id a : Nat} {test : NodeKind → Bool}
    (h : tree.ancestor? id test = some a) :
    tree.Below a id ∧ tree.has test a = true
      ∧ ∀ b, tree.Below b id → tree.has test b = true → tree.Below b a := by
  have hmem : a ∈ tree.ancestors id := List.mem_of_find?_eq_some h
  have hid : id < tree.size := by
    by_contra hle
    rw [ancestors_of_le (Nat.not_lt.1 hle)] at hmem
    cases hmem
  refine ⟨(hforest.mem_ancestors_iff hid).1 hmem, List.find?_some h, ?_⟩
  intro b hb hpass
  exact (hforest.parentChain_ancestors hid).1.below_of_find? hforest h ((hforest.mem_ancestors_iff hid).2 hb) hpass

theorem IsForest.exists_ancestor? (hforest : tree.IsForest) {id b : Nat} {test : NodeKind → Bool}
    (hid : id < tree.size) (hb : tree.Below b id) (hpass : tree.has test b = true) :
    ∃ a, tree.ancestor? id test = some a :=
  Option.isSome_iff_exists.1 (List.find?_isSome.2 ⟨b, (hforest.mem_ancestors_iff hid).2 hb, hpass⟩)

/-! ## §3. Down. -/

/-- A search with a good stack skips nothing, so it is a plain walk; and since nothing below its stack was
    seen, it never lists a node behind one below it. -/
theorem IsForest.walk_explore (hforest : tree.IsForest) (work seen : List Nat)
    (hpending : tree.Pending work seen) (hseen : seen.Pairwise fun a b => ¬ tree.Below b a) :
    ∃ order, explore tree.children tree.size work seen = seen ++ order ∧ tree.Walk work order
      ∧ (seen ++ order).Pairwise fun a b => ¬ tree.Below b a := by
  fun_induction explore tree.children tree.size work seen with
  | case1 seen =>
    refine ⟨[], (List.append_nil seen).symm, .done, ?_⟩
    rwa [List.append_nil]
  | case2 seen id rest hopen ih =>
    have hseen' : (seen ++ [id]).Pairwise fun a b => ¬ tree.Below b a := by
      refine List.pairwise_append.2 ⟨hseen, List.pairwise_singleton _ _, ?_⟩
      intro old hold other hother
      rw [List.mem_singleton] at hother
      subst hother
      exact hpending.ahead other List.mem_cons_self old hold
    obtain ⟨order, hexplore, hwalk, htopDown⟩ := ih (hpending.visit hforest) hseen'
    rw [List.append_assoc, List.singleton_append] at hexplore htopDown
    exact ⟨id :: order, hexplore, .visit hopen.1 hwalk, htopDown⟩
  | case3 seen id rest hclosed ih =>
    have hopen : id < tree.size ∧ seen.contains id = false :=
      ⟨hpending.lt, by simpa using hpending.fresh⟩
    exact absurd hopen hclosed

theorem IsForest.walk_descendants (hforest : tree.IsForest) {id : Nat} (hid : id < tree.size) :
    tree.Walk [id] (tree.descendants id)
      ∧ (tree.descendants id).Pairwise fun a b => ¬ tree.Below b a := by
  obtain ⟨order, hexplore, hwalk, htopDown⟩ :=
    hforest.walk_explore [id] [] (.single hid) List.Pairwise.nil
  have hdescendants : tree.descendants id = order := hexplore
  rw [hdescendants]
  exact ⟨hwalk, htopDown⟩

theorem IsForest.mem_descendants_iff (hforest : tree.IsForest) {id : Nat} (hid : id < tree.size) (x : Nat) :
    x ∈ tree.descendants id ↔ tree.Below id x := by
  unfold descendants
  rw [hforest.mem_explore_iff (by simpa using hid)]
  simp

theorem IsForest.nodup_descendants (hforest : tree.IsForest) {id : Nat} (hid : id < tree.size) :
    (tree.descendants id).Nodup := by
  apply (hforest.walk_descendants hid).2.imp
  intro a b hnot heq
  exact hnot (heq ▸ .self)

/-! ## §4. Valid trees. -/

theorem IsForest.roots_cover (hforest : tree.IsForest) :
    (tree.roots.flatMap tree.descendants).Perm (List.range tree.size) := by
  have hnodup : (tree.roots.flatMap tree.descendants).Nodup := by
    refine List.nodup_flatMap.2 ⟨fun root hroot => hforest.nodup_descendants (hforest.lt_of_root hroot), ?_⟩
    apply List.Pairwise.imp_of_mem _ hforest.nodup_roots
    intro a b ha hb hne x hxa hxb
    have hbelow : tree.Below a x := (hforest.mem_descendants_iff (hforest.lt_of_root ha) x).1 hxa
    have hbelow' : tree.Below b x := (hforest.mem_descendants_iff (hforest.lt_of_root hb) x).1 hxb
    exact hne (hforest.root_unique ha hb hbelow hbelow')
  rw [List.perm_ext_iff_of_nodup hnodup List.nodup_range]
  intro id
  rw [List.mem_flatMap, List.mem_range]
  constructor
  · rintro ⟨root, hroot, hid⟩
    have hlt : root < tree.size := hforest.lt_of_root hroot
    exact hforest.lt_of_below hlt ((hforest.mem_descendants_iff hlt id).1 hid)
  · intro hid
    obtain ⟨root, hroot, hbelow⟩ := hforest.reached id hid
    exact ⟨root, hroot, (hforest.mem_descendants_iff (hforest.lt_of_root hroot) id).2 hbelow⟩

theorem IsForest.navigable (hforest : tree.IsForest) : tree.Navigable where
  ancestors_end _ hid := hforest.parentChain_ancestors hid
  descendants_end _ hid := (hforest.walk_descendants hid).1
  descendants_nodup _ hid := hforest.nodup_descendants hid
  mem_descendants_iff id hid x := by
    by_cases hx : x < tree.size
    · rw [hforest.mem_descendants_iff hid, hforest.mem_ancestors_iff hx]
    · rw [hforest.mem_descendants_iff hid, ancestors_of_le (Nat.le_of_not_lt hx)]
      simpa using fun hbelow => hx (hforest.lt_of_below hid hbelow)
  descendants_topDown id hid := by
    apply List.Pairwise.imp_of_mem _ (hforest.walk_descendants hid).2
    intro a b _ hb hnot hmem
    have hlt : b < tree.size := hforest.lt_of_below hid ((hforest.mem_descendants_iff hid b).1 hb)
    exact hnot ((hforest.mem_descendants_iff hlt a).1 hmem)
  roots_cover := hforest.roots_cover

/-- The check of the links ends on every tree, after at most one round a node and one more; it accepts the
    trees whose links form a forest and no others; and in a tree that it accepts the ways up and down end,
    with each node listed once, in order, among the descendants of the nodes above it. -/
theorem validate_decides (tree : SyntaxTree) :
    tree.checkLinksWithin (tree.size + 1) (tree.roots.map (·, none)) [] =
        some (tree.checkLinks (tree.roots.map (·, none)) [])
      ∧ (tree.validate = .ok () ↔ tree.IsForest)
      ∧ (tree.validate = .ok () → tree.Navigable) := by
  refine ⟨?_, validate_eq_ok_iff, fun h => (validate_eq_ok_iff.1 h).navigable⟩
  apply checkLinksWithin_eq
  have hall : unseenCount tree.size [] = tree.size := by simp [unseenCount]
  omega

/-- Two trees side by side, with the nodes of the first stored behind those of the second. -/
def sideBySide : SyntaxTree where
  path := "Sample.java"
  lineCount := 4
  nodes :=
    #[⟨.classDecl "b.Other", ⟨3, 4⟩, [1], none⟩, ⟨.block, ⟨4, 4⟩, [], some 0⟩,
      ⟨.classDecl "a.Sample", ⟨1, 2⟩, [4, 3], none⟩, ⟨.block, ⟨2, 2⟩, [], some 2⟩,
      ⟨.block, ⟨1, 1⟩, [5], some 2⟩, ⟨.ifStmt, ⟨1, 1⟩, [], some 4⟩]
  roots := [2, 0]

theorem validate_decides_sideBySide :
    sideBySide.validate = .ok () ∧ sideBySide.IsForest ∧ sideBySide.Navigable := by
  have hvalid : sideBySide.validate = .ok () := eq_ok_of_toOption (by decide +kernel)
  exact ⟨hvalid, (validate_decides sideBySide).2.1.1 hvalid, (validate_decides sideBySide).2.2 hvalid⟩

end PatchPresence.SyntaxTree
