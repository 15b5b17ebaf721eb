/-
  PatchPresence.Proofs.Source.Growth — trees that grow by one node at a time.

  A new node becomes the last child of its parent or the last root, and has no children yet. So the links of a
  forest and of the new node form a forest again, and nothing that is said of the old nodes changes but one list of
  children. In a preorder the new node comes right behind all that was below its parent; in between, the old nodes
  keep their order.

  Main results:
    * `SyntaxTree.IsForest.push` — a forest with one more node is a forest.
    * `SyntaxTree.IsForest.depthFirst_push_of_mem` — where the new node comes in a preorder.
    * `SyntaxTree.validate_add` — valid trees stay valid, and keep what they say of their nodes, over any number of
      additions.
-/
import PatchPresence.Proofs.Source.Nesting

namespace PatchPresence.SyntaxTree

variable {tree : SyntaxTree} {parent : Option Nat} {kind : NodeKind} {lines : LineSpan}

/-! ## §1. Links. -/

/-- A node can be added as a root, or below a node that exists. -/
def Admits (tree : SyntaxTree) (parent : Option Nat) : Prop := ∀ owner, parent = some owner → owner < tree.size

theorem size_push (tree : SyntaxTree) (parent : Option Nat) (kind : NodeKind) (lines : LineSpan) :
    (tree.push parent kind lines).size = tree.size + 1 := by
  cases parent with
  | none => exact Array.size_push _
  | some owner => exact Array.size_modify.trans (Array.size_push _)

/-- The new node stands behind all others. -/
theorem node?_push_size (hparent : tree.Admits parent) :
    (tree.push parent kind lines).node? tree.size = some ⟨kind, lines, [], parent⟩ := by
  have hlast : (tree.nodes.push ⟨kind, lines, [], parent⟩)[tree.size]? = some ⟨kind, lines, [], parent⟩ := by
    rw [Array.getElem?_push, size, if_pos rfl]
  cases parent with
  | none => exact hlast
  | some owner =>
    have hne : owner ≠ tree.size := Nat.ne_of_lt (hparent owner rfl)
    show (Array.modify _ owner _)[tree.size]? = _
    rw [Array.getElem?_modify, if_neg hne, hlast]

/-- Of the old nodes only the parent gets another list of children. -/
theorem node?_push_of_lt {id : Nat} (hid : id < tree.size) :
    (tree.push parent kind lines).node? id = (tree.node? id).map fun node =>
      if parent = some id then { node with children := node.children ++ [tree.size] } else node := by
  have hne : id ≠ tree.nodes.size := Nat.ne_of_lt hid
  have hold : (tree.nodes.push ⟨kind, lines, [], parent⟩)[id]? = tree.node? id := by
    rw [Array.getElem?_push, if_neg hne, node?]
  cases parent with
  | none =>
    show (tree.nodes.push _)[id]? = _
    rw [hold]
    simp
  | some owner =>
    show (Array.modify _ owner _)[id]? = _
    rw [Array.getElem?_modify, hold]
    by_cases howner : owner = id
    · simp [howner]
    · simp [howner]

/-- An old node has the kind, the lines and the parent that it had. -/
theorem exists_node?_push_of_lt {id : Nat} (hid : id < tree.size) :
    ∃ node children, tree.node? id = some node
      ∧ (tree.push parent kind lines).node? id = some { node with children := children } := by
  obtain ⟨node, hnode⟩ := exists_node? hid
  rw [node?_push_of_lt hid, hnode]
  by_cases howner : parent = some id
  · exact ⟨node, node.children ++ [tree.size], rfl, by simp [howner]⟩
  · exact ⟨node, node.children, rfl, by simp [howner]⟩

theorem children_push (hparent : tree.Admits parent) (id : Nat) :
    (tree.push parent kind lines).children id =
      if parent = some id then tree.children id ++ [tree.size] else tree.children id := by
  unfold children
  by_cases hid : id < tree.size
  · obtain ⟨node, hnode⟩ := exists_node? hid
    rw [node?_push_of_lt hid, hnode]
    by_cases howner : parent = some id
    · simp [howner]
    · simp [howner]
  · -- where no node was there is no parent, and the new node has no children
    have hnone : tree.node? id = none := Array.getElem?_eq_none (Nat.le_of_not_lt hid)
    have hother : parent ≠ some id := fun howner => hid (hparent id howner)
    rw [if_neg hother, hnone]
    by_cases hlast : id = tree.size
    · rw [hlast, node?_push_size hparent]
      rfl
    · have hbeyond : (tree.push parent kind lines).size ≤ id := by
        rw [size_push]
        omega
      have hnone' : (tree.push parent kind lines).node? id = none := Array.getElem?_eq_none hbeyond
      rw [hnone']

theorem parent?_push_size (hparent : tree.Admits parent) :
    (tree.push parent kind lines).parent? tree.size = parent := by
  rw [parent?, node?_push_size hparent]
  rfl

theorem parent?_push_of_lt {id : Nat} (hid : id < tree.size) :
    (tree.push parent kind lines).parent? id = tree.parent? id := by
  obtain ⟨node, children, hold, hnew⟩ := exists_node?_push_of_lt hid
  rw [parent?, parent?, hold, hnew]
  rfl

theorem roots_push (tree : SyntaxTree) (parent : Option Nat) (kind : NodeKind) (lines : LineSpan) :
    (tree.push parent kind lines).roots = if parent = none then tree.roots ++ [tree.size] else tree.roots := by
  cases parent <;> rfl

/-! ## §2. Forests. -/

theorem children_subset_push (hparent : tree.Admits parent) (id : Nat) :
    tree.children id ⊆ (tree.push parent kind lines).children id := by
  rw [children_push hparent]
  split
  · exact List.subset_append_left _ _
  · exact List.Subset.refl _

theorem Below.push (hparent : tree.Admits parent) {a b : Nat} (h : tree.Below a b) :
    (tree.push parent kind lines).Below a b := by
  induction h with
  | self => exact .self
  | child _ hid ih => exact .child ih (children_subset_push hparent _ hid)

/-- Where one list in a row of lists gets one more element, the row gets one more element. -/
theorem perm_flatMap_of_append {f g : Nat → List Nat} {ids : List Nat} {owner new : Nat} (hnodup : ids.Nodup)
    (howner : owner ∈ ids) (hgrown : g owner = f owner ++ [new]) (hsame : ∀ id, id ≠ owner → g id = f id) :
    (ids.flatMap g).Perm (new :: ids.flatMap f) := by
  obtain ⟨front, back, rfl⟩ := List.append_of_mem howner
  obtain ⟨-, hback, hapart⟩ := List.nodup_append.1 hnodup
  have hfrontSame : front.flatMap g = front.flatMap f :=
    List.flatMap_congr fun id hid => hsame id (hapart id hid owner List.mem_cons_self)
  have hbackSame : back.flatMap g = back.flatMap f :=
    List.flatMap_congr fun id hid => hsame id fun heq => (List.nodup_cons.1 hback).1 (heq ▸ hid)
  simp only [List.flatMap_append, List.flatMap_cons, hfrontSame, hbackSame, hgrown]
  have hmiddle := (List.perm_middle : (front.flatMap f ++ f owner ++ new :: back.flatMap f).Perm _)
  simpa using hmiddle

/-- The new node is listed in one place, and nothing else is listed anew. -/
theorem perm_links_push (hparent : tree.Admits parent) :
    (tree.push parent kind lines).links.Perm (tree.size :: tree.links) := by
  have hlast : tree.children tree.size = [] :=
    List.eq_nil_iff_forall_not_mem.2 fun _ hid => Nat.lt_irrefl _ (lt_size_of_mem_children hid)
  have hrange : (List.range (tree.size + 1)).flatMap tree.children
      = (List.range tree.size).flatMap tree.children := by
    rw [List.range_succ, List.flatMap_append, List.flatMap_singleton, hlast, List.append_nil]
  unfold links
  rw [size_push, roots_push]
  cases hcase : parent with
  | none =>
    have hsame : (List.range (tree.size + 1)).flatMap (tree.push none kind lines).children
        = (List.range tree.size).flatMap tree.children := by
      rw [← hrange]
      refine List.flatMap_congr fun id _ => ?_
      rw [children_push (hcase ▸ hparent), if_neg nofun]
    rw [hsame, if_pos rfl, List.append_assoc, List.singleton_append]
    exact List.perm_middle
  | some owner =>
    have howner : owner < tree.size := hparent owner hcase
    have hgrown := perm_flatMap_of_append (f := tree.children) (g := (tree.push (some owner) kind lines).children)
      List.nodup_range (List.mem_range.2 (Nat.lt_succ_of_lt howner))
      (by rw [children_push (hcase ▸ hparent), if_pos rfl])
      fun id hid => by rw [children_push (hcase ▸ hparent), if_neg fun heq => hid (Option.some.inj heq).symm]
    rw [if_neg nofun]
    rw [hrange] at hgrown
    exact (hgrown.append_left tree.roots).trans List.perm_middle

theorem mem_links_push {id : Nat} (hparent : tree.Admits parent) :
    id ∈ (tree.push parent kind lines).links ↔ id = tree.size ∨ id ∈ tree.links := by
  rw [(perm_links_push hparent).mem_iff, List.mem_cons]

theorem mem_roots_push {id : Nat} :
    id ∈ (tree.push parent kind lines).roots ↔ id ∈ tree.roots ∨ parent = none ∧ id = tree.size := by
  rw [roots_push]
  by_cases htop : parent = none
  · simp [htop]
  · simp [htop]

theorem mem_children_push {owner id : Nat} (hparent : tree.Admits parent) :
    id ∈ (tree.push parent kind lines).children owner
      ↔ id ∈ tree.children owner ∨ parent = some owner ∧ id = tree.size := by
  rw [children_push hparent]
  by_cases howner : parent = some owner
  · simp [howner]
  · simp [howner]

/-- A forest with one more node is a forest. -/
theorem IsForest.push (h : tree.IsForest) (hparent : tree.Admits parent) :
    (tree.push parent kind lines).IsForest where
  inRange id hid := by
    rw [size_push]
    rcases (mem_links_push hparent).1 hid with rfl | hold
    · exact Nat.lt_succ_self _
    · exact Nat.lt_succ_of_lt (h.inRange id hold)
  once id hid := by
    rw [(perm_links_push hparent).count_eq]
    by_cases hlast : id = tree.size
    · -- links of a forest stay in range, so the new position was listed nowhere
      have hfresh : tree.size ∉ tree.links := fun hmem => Nat.lt_irrefl _ (h.inRange _ hmem)
      rw [hlast, List.count_cons_self, List.count_eq_zero_of_not_mem hfresh]
    · rw [List.count_cons_of_ne (Ne.symm hlast)]
      rw [size_push] at hid
      exact h.once id (by omega)
  rootParent id hid := by
    rcases mem_roots_push.1 hid with hold | ⟨htop, rfl⟩
    · rw [parent?_push_of_lt (h.lt_of_root hold), h.rootParent id hold]
    · rw [parent?_push_size hparent, htop]
  childParent owner _ id hid := by
    rcases (mem_children_push hparent).1 hid with hold | ⟨howner, rfl⟩
    · rw [parent?_push_of_lt (h.lt_of_child hold), h.parent_of_child hold]
    · rw [parent?_push_size hparent, howner]
  reached id hid := by
    have hreached : ∀ old < tree.size, ∃ root ∈ (tree.push parent kind lines).roots,
        (tree.push parent kind lines).Below root old := by
      intro old hold
      obtain ⟨root, hroot, hbelow⟩ := h.reached old hold
      exact ⟨root, mem_roots_push.2 (.inl hroot), hbelow.push hparent⟩
    rw [size_push] at hid
    by_cases hlast : id = tree.size
    · -- the new node is a root, or a child of a node that is reached
      cases hcase : parent with
      | none => exact ⟨id, mem_roots_push.2 (.inr ⟨rfl, hlast⟩), .self⟩
      | some owner =>
        obtain ⟨root, hroot, hbelow⟩ := hreached owner (hparent owner hcase)
        rw [hcase] at hroot hbelow
        exact ⟨root, hroot, .child hbelow ((mem_children_push (hcase ▸ hparent)).2 (.inr ⟨rfl, hlast⟩))⟩
    · exact hreached id (by omega)

/-! ## §3. Preorders. -/

/-- Where a walk that remembers nothing ends, it lists what a walk over existing nodes lists. -/
theorem Walk.eq_of_stackWalk {work order other : List Nat} (h : tree.Walk work order)
    (hother : StackWalk tree.children work other) : order = other := by
  induction h generalizing other with
  | done =>
    cases hother
    rfl
  | visit _ _ ih =>
    cases hother with
    | pop hrest => rw [ih hrest]

theorem IsForest.depthFirst_descendants (h : tree.IsForest) {id : Nat} (hid : id < tree.size) :
    DepthFirst tree.children [id] (tree.descendants id) := by
  -- children have one node more on their way up, and no way up is longer than the number of nodes
  have hup : ∀ a, ∀ b ∈ tree.children a, (tree.ancestors a).length < (tree.ancestors b).length
      ∧ (tree.ancestors b).length ≤ tree.size := by
    intro a b hb
    refine ⟨?_, h.length_ancestors_le (h.lt_of_child hb)⟩
    rw [h.ancestors_of_child hb, List.length_cons]
    exact Nat.lt_succ_self _
  obtain ⟨order, horder⟩ := exists_depthFirst hup [id]
  -- a preorder is what a plain walk lists, and so are the descendants
  have hwalk : StackWalk tree.children [id] order := by
    simpa using horder.stackWalk .done
  rwa [(h.walk_descendants hid).1.eq_of_stackWalk hwalk]

/-- All nodes in the order of their places in the source. -/
def preorder (tree : SyntaxTree) : List Nat := tree.roots.flatMap tree.descendants

theorem IsForest.depthFirst_preorder (h : tree.IsForest) : DepthFirst tree.children tree.roots tree.preorder := by
  have hall : ∀ roots : List Nat, (∀ root ∈ roots, root < tree.size) →
      DepthFirst tree.children roots (roots.flatMap tree.descendants) := by
    intro roots
    induction roots with
    | nil => exact fun _ => .nil
    | cons root roots ih =>
      intro hlt
      obtain ⟨hroot, hothers⟩ := List.forall_mem_cons.1 hlt
      exact (h.depthFirst_descendants hroot).append (ih hothers)
  exact hall tree.roots fun root hroot => h.lt_of_root hroot

theorem IsForest.nodup_preorder (h : tree.IsForest) : tree.preorder.Nodup :=
  h.roots_cover.nodup_iff.2 List.nodup_range

theorem IsForest.lt_of_mem_preorder (h : tree.IsForest) {id : Nat} (hid : id ∈ tree.preorder) : id < tree.size :=
  List.mem_range.1 (h.roots_cover.subset hid)

theorem IsForest.lt_of_mem_descendants (h : tree.IsForest) {id x : Nat} (hid : id < tree.size)
    (hx : x ∈ tree.descendants id) : x < tree.size :=
  h.lt_of_below hid ((h.mem_descendants_iff hid x).1 hx)

/-- A preorder without the parent is as before. -/
theorem depthFirst_push_of_notMem (hparent : tree.Admits parent) {work order : List Nat}
    (horder : DepthFirst tree.children work order) (hnot : ∀ owner, parent = some owner → owner ∉ order) :
    DepthFirst (tree.push parent kind lines).children work order := by
  refine horder.congr fun id hid => ?_
  rw [children_push hparent, if_neg fun howner => hnot id howner hid]

section

variable (h : tree.IsForest) (hparent : tree.Admits parent)
include h hparent

/-- A preorder with the parent has the new node right behind what is below the parent. -/
theorem IsForest.depthFirst_push_of_mem {work order : List Nat} (horder : DepthFirst tree.children work order)
    (hnodup : order.Nodup) {owner : Nat} (howner : parent = some owner) (hmem : owner ∈ order) :
    ∃ before after, order = before ++ tree.descendants owner ++ after
      ∧ DepthFirst (tree.push parent kind lines).children work
        (before ++ tree.descendants owner ++ tree.size :: after) := by
  have hleaf : (tree.push parent kind lines).children tree.size = [] := by
    rw [children_of_node? (node?_push_size hparent)]
  have hedges : (tree.push parent kind lines).children owner = tree.children owner ++ [tree.size] := by
    rw [children_push hparent, if_pos howner]
  have hsame : ∀ id, id ∈ order → id ≠ owner →
      (tree.push parent kind lines).children id = tree.children id := by
    intro id _ hne
    rw [children_push hparent, if_neg]
    intro hid
    exact hne (Option.some.inj (hid.symm.trans howner))
  obtain ⟨before, low, after, hcut, hlow, hgrown⟩ := horder.insertLeaf hnodup hmem hedges hleaf hsame
  rw [hlow.unique (h.depthFirst_descendants (hparent owner howner))] at hcut hgrown
  exact ⟨before, after, hcut, hgrown⟩

variable {id : Nat} (hid : id < tree.size)
include hid

theorem IsForest.depthFirst_descendants_push : DepthFirst (tree.push parent kind lines).children [id]
    ((tree.push parent kind lines).descendants id) := by
  refine (h.push hparent).depthFirst_descendants ?_
  rw [size_push]
  exact Nat.lt_succ_of_lt hid

theorem IsForest.descendants_push_of_notMem (hnot : ∀ owner, parent = some owner → owner ∉ tree.descendants id) :
    (tree.push parent kind lines).descendants id = tree.descendants id :=
  (h.depthFirst_descendants_push hparent hid).unique
    (depthFirst_push_of_notMem hparent (h.depthFirst_descendants hid) hnot)

theorem IsForest.descendants_push_of_mem {owner : Nat} (howner : parent = some owner)
    (hmem : owner ∈ tree.descendants id) :
    ∃ before after, tree.descendants id = before ++ tree.descendants owner ++ after
      ∧ (tree.push parent kind lines).descendants id
        = before ++ tree.descendants owner ++ tree.size :: after := by
  obtain ⟨before, after, hcut, horder⟩ :=
    h.depthFirst_push_of_mem hparent (h.depthFirst_descendants hid) (h.nodup_descendants hid) howner hmem
  exact ⟨before, after, hcut, (h.depthFirst_descendants_push hparent hid).unique horder⟩

end

/-- In the order of the whole source the new node comes in somewhere. -/
theorem IsForest.exists_preorder_push (h : tree.IsForest) (hparent : tree.Admits parent) :
    ∃ before after, tree.preorder = before ++ after
      ∧ (tree.push parent kind lines).preorder = before ++ tree.size :: after := by
  have hgrown := (h.push hparent : (tree.push parent kind lines).IsForest).depthFirst_preorder
  rw [roots_push] at hgrown
  cases hcase : parent with
  | none =>
    subst hcase
    have hold : DepthFirst (tree.push none kind lines).children tree.roots tree.preorder :=
      depthFirst_push_of_notMem hparent h.depthFirst_preorder nofun
    have hleaf : (tree.push none kind lines).children tree.size = [] := by
      rw [children_of_node? (node?_push_size hparent)]
    have hnone : DepthFirst (tree.push none kind lines).children
        ((tree.push none kind lines).children tree.size) [] := by
      rw [hleaf]
      exact .nil
    -- a new root comes last
    refine ⟨tree.preorder, [], (List.append_nil _).symm, ?_⟩
    rw [if_pos rfl] at hgrown
    exact hgrown.unique (hold.append (.cons hnone .nil))
  | some owner =>
    subst hcase
    have hmem : owner ∈ tree.preorder := h.roots_cover.mem_iff.2 (List.mem_range.2 (hparent owner rfl))
    obtain ⟨before, after, hcut, horder⟩ :=
      h.depthFirst_push_of_mem hparent h.depthFirst_preorder h.nodup_preorder rfl hmem
    rw [if_neg nofun] at hgrown
    exact ⟨before ++ tree.descendants owner, after, hcut, hgrown.unique horder⟩

/-! ## §4. What is kept. -/

/-- One tree says of its nodes what the other says, apart from nodes that only the other one has. -/
structure Keeps (tree grown : SyntaxTree) : Prop where
  path : grown.path = tree.path
  lineCount : grown.lineCount = tree.lineCount
  size_le : tree.size ≤ grown.size
  kinds : ∀ id < tree.size, grown.kind? id = tree.kind? id
  spans : ∀ id < tree.size, (grown.node? id).map SyntaxNode.lines = (tree.node? id).map SyntaxNode.lines
  parents : ∀ id < tree.size, grown.parent? id = tree.parent? id
  descendants : ∀ id < tree.size, (grown.descendants id).filter (· < tree.size) = tree.descendants id
  preorder : grown.preorder.filter (· < tree.size) = tree.preorder

/-- Without the number that bounds it, a list of smaller numbers is what it was. -/
theorem filter_lt_insert {bound : Nat} {before after : List Nat} (hbefore : ∀ x ∈ before, x < bound)
    (hafter : ∀ x ∈ after, x < bound) : (before ++ bound :: after).filter (· < bound) = before ++ after := by
  rw [List.filter_append, List.filter_cons_of_neg (by simp), List.filter_eq_self.2 (by simpa using hbefore),
    List.filter_eq_self.2 (by simpa using hafter)]

theorem IsForest.keeps_self (h : tree.IsForest) : tree.Keeps tree where
  path := rfl
  lineCount := rfl
  size_le := Nat.le_refl _
  kinds _ _ := rfl
  spans _ _ := rfl
  parents _ _ := rfl
  descendants _ hid := List.filter_eq_self.2 fun _ hx => decide_eq_true (h.lt_of_mem_descendants hid hx)
  preorder := List.filter_eq_self.2 fun _ hx => decide_eq_true (h.lt_of_mem_preorder hx)

theorem IsForest.keeps_push (h : tree.IsForest) (hparent : tree.Admits parent) :
    tree.Keeps (tree.push parent kind lines) where
  path := by cases parent <;> rfl
  lineCount := by cases parent <;> rfl
  size_le := by
    rw [size_push]
    exact Nat.le_succ _
  kinds id hid := by
    obtain ⟨node, children, hold, hnew⟩ := exists_node?_push_of_lt hid
    rw [kind?, kind?, hold, hnew]
    rfl
  spans id hid := by
    obtain ⟨node, children, hold, hnew⟩ := exists_node?_push_of_lt hid
    rw [hold, hnew]
    rfl
  parents _ hid := parent?_push_of_lt hid
  descendants id hid := by
    by_cases hnot : ∀ owner, parent = some owner → owner ∉ tree.descendants id
    · rw [h.descendants_push_of_notMem hparent hid hnot]
      exact h.keeps_self.descendants id hid
    · obtain ⟨owner, howner, hmem⟩ : ∃ owner, parent = some owner ∧ owner ∈ tree.descendants id := by
        simpa using hnot
      obtain ⟨before, after, hcut, hgrown⟩ := h.descendants_push_of_mem hparent hid howner hmem
      have hlt : ∀ x ∈ before ++ tree.descendants owner ++ after, x < tree.size := by
        intro x hx
        exact h.lt_of_mem_descendants hid (hcut ▸ hx)
      obtain ⟨hbefore, hafter⟩ := List.forall_mem_append.1 hlt
      rw [hgrown, filter_lt_insert hbefore hafter, hcut]
  preorder := by
    obtain ⟨before, after, hcut, hgrown⟩ := h.exists_preorder_push hparent
    have hlt : ∀ x ∈ before ++ after, x < tree.size := fun x hx => h.lt_of_mem_preorder (hcut ▸ hx)
    obtain ⟨hbefore, hafter⟩ := List.forall_mem_append.1 hlt
    rw [hgrown, filter_lt_insert hbefore hafter, hcut]

theorem filter_lt_filter_lt {small large : Nat} (h : small ≤ large) (ids : List Nat) :
    (ids.filter (· < large)).filter (· < small) = ids.filter (· < small) := by
  rw [List.filter_filter]
  refine List.filter_congr fun id _ => ?_
  by_cases hid : id < small
  · simp [hid, Nat.lt_of_lt_of_le hid h]
  · simp [hid]

theorem Keeps.trans {middle grown : SyntaxTree} (h : tree.Keeps middle) (h' : middle.Keeps grown) :
    tree.Keeps grown where
  path := h'.path.trans h.path
  lineCount := h'.lineCount.trans h.lineCount
  size_le := Nat.le_trans h.size_le h'.size_le
  kinds id hid := (h'.kinds id (Nat.lt_of_lt_of_le hid h.size_le)).trans (h.kinds id hid)
  spans id hid := (h'.spans id (Nat.lt_of_lt_of_le hid h.size_le)).trans (h.spans id hid)
  parents id hid := (h'.parents id (Nat.lt_of_lt_of_le hid h.size_le)).trans (h.parents id hid)
  descendants id hid := by
    rw [← filter_lt_filter_lt h.size_le, h'.descendants id (Nat.lt_of_lt_of_le hid h.size_le),
      h.descendants id hid]
  preorder := by
    rw [← filter_lt_filter_lt h.size_le, h'.preorder, h.preorder]

/-! ## §5. Additions. -/

theorem isForest_new (path : String) (lineCount : Nat) : (new path lineCount).IsForest where
  inRange _ hid := nomatch hid
  once _ hid := nomatch hid
  rootParent _ hid := nomatch hid
  childParent _ hid := nomatch hid
  reached _ hid := nomatch hid

/-- Trees that come from a tree by additions, each below a node that exists by then or as a root. -/
inductive Grown (tree : SyntaxTree) : SyntaxTree → Prop
  | start : Grown tree tree
  | add {grown : SyntaxTree} {parent : Option Nat} (h : Grown tree grown) (hparent : grown.Admits parent)
      (kind : NodeKind) (lines : LineSpan) : Grown tree (grown.add parent kind lines).2

theorem IsForest.of_grown (h : tree.IsForest) {grown : SyntaxTree} (hgrown : tree.Grown grown) :
    grown.IsForest ∧ tree.Keeps grown := by
  induction hgrown with
  | start => exact ⟨h, h.keeps_self⟩
  | add _ hparent kind lines ih =>
    obtain ⟨hforest, hkeeps⟩ := ih
    exact ⟨hforest.push hparent, hkeeps.trans (hforest.keeps_push hparent)⟩

/-- What an addition does: the new node is at the position that is told, valid trees stay valid and keep what they
    say of their nodes, and the new node is put into the preorders with its parent, right behind what is below the
    parent, and into no others. -/
structure Adds (tree : SyntaxTree) (parent : Option Nat) (kind : NodeKind) (lines : LineSpan) (id : Nat)
    (grown : SyntaxTree) : Prop where
  position : id = tree.size
  node : grown.node? id = some ⟨kind, lines, [], parent⟩
  size : grown.size = tree.size + 1
  valid : grown.validate = .ok ()
  keeps : tree.Keeps grown
  untouched : ∀ top < tree.size, (∀ owner, parent = some owner → owner ∉ tree.descendants top) →
    grown.descendants top = tree.descendants top
  inserted : ∀ top < tree.size, ∀ owner, parent = some owner → owner ∈ tree.descendants top →
    ∃ before after, tree.descendants top = before ++ tree.descendants owner ++ after
      ∧ grown.descendants top = before ++ tree.descendants owner ++ id :: after

/-- Trees without nodes are valid, additions keep trees valid, and so do any number of additions. What a valid tree
    says of its nodes stays the same but for the nodes that are new. -/
theorem validate_add :
    (∀ path lineCount, (new path lineCount).validate = .ok ())
      ∧ (∀ (tree : SyntaxTree) (parent : Option Nat) (kind : NodeKind) (lines : LineSpan),
        tree.validate = .ok () → tree.Admits parent →
          tree.Adds parent kind lines (tree.add parent kind lines).1 (tree.add parent kind lines).2)
      ∧ ∀ tree grown : SyntaxTree, tree.validate = .ok () → tree.Grown grown →
        grown.validate = .ok () ∧ tree.Keeps grown := by
  refine ⟨fun path lineCount => validate_eq_ok_iff.2 (isForest_new path lineCount), ?_, ?_⟩
  · intro tree parent kind lines hvalid hparent
    have hforest : tree.IsForest := validate_eq_ok_iff.1 hvalid
    exact {
      position := rfl
      node := node?_push_size hparent
      size := size_push tree parent kind lines
      valid := validate_eq_ok_iff.2 (hforest.push hparent)
      keeps := hforest.keeps_push hparent
      untouched := fun _ htop => hforest.descendants_push_of_notMem hparent htop
      inserted := fun _ htop _ => hforest.descendants_push_of_mem hparent htop }
  · intro tree grown hvalid hgrown
    obtain ⟨hforest, hkeeps⟩ := (validate_eq_ok_iff.1 hvalid).of_grown hgrown
    exact ⟨validate_eq_ok_iff.2 hforest, hkeeps⟩

/-- A node is put below a child that is not the last one, so behind it the preorder goes on. -/
theorem validate_add_sideBySide :
    sideBySide.validate = .ok () ∧ sideBySide.Admits (some 4) ∧ 4 ∈ sideBySide.descendants 2
      ∧ (sideBySide.add (some 4) .block ⟨1, 1⟩).1 = 6
      ∧ (∃ before after, sideBySide.descendants 2 = before ++ sideBySide.descendants 4 ++ after
        ∧ (sideBySide.add (some 4) .block ⟨1, 1⟩).2.descendants 2
          = before ++ sideBySide.descendants 4 ++ 6 :: after)
      ∧ sideBySide.Grown (sideBySide.add (some 4) .block ⟨1, 1⟩).2
      ∧ (sideBySide.add (some 4) .block ⟨1, 1⟩).2.validate = .ok () := by
  have hvalid : sideBySide.validate = .ok () := eq_ok_of_toOption (by decide +kernel)
  have hadmits : sideBySide.Admits (some 4) := by
    intro owner howner
    obtain rfl := Option.some.inj howner
    decide
  have hbelow : sideBySide.Below 2 4 := .child .self (by decide)
  have hmem : 4 ∈ sideBySide.descendants 2 :=
    ((validate_eq_ok_iff.1 hvalid).mem_descendants_iff (by decide) 4).2 hbelow
  have hgrown : sideBySide.Grown (sideBySide.add (some 4) .block ⟨1, 1⟩).2 := .add .start hadmits _ _
  have hadds := validate_add.2.1 sideBySide (some 4) .block ⟨1, 1⟩ hvalid hadmits
  exact ⟨hvalid, hadmits, hmem, hadds.position, hadds.inserted 2 (by decide) 4 rfl hmem, hgrown,
    (validate_add.2.2 _ _ hvalid hgrown).1⟩

end PatchPresence.SyntaxTree
