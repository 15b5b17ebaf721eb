/-
  PatchPresence.Proofs.Source.Scopes — the innermost scope around a line.

  The scope of a line is chosen among all scopes of the tree by the length of their spans, and by depth where spans
  are equally long. Where the span of a node lies within that of its parent, a scope further down has no longer
  span than one above it, and is deeper; so one that also has the line would have been chosen instead.

  Main results:
    * `SyntaxTree.Covers.of_below`, `SyntaxTree.spanLength_le_of_below` — spans grow on the way up.
    * `SyntaxTree.IsForest.depth_lt_of_below` — depth falls on the way up.
    * `SyntaxTree.enclosingBlock?_innermost` — the chosen scope has the line, and no scope below it has.
-/
import PatchPresence.Proofs.Collections
import PatchPresence.Proofs.Source.Nesting

namespace PatchPresence.SyntaxTree

variable {tree : SyntaxTree} {top id line : Nat}

/-! ## §1. Scopes and spans. -/

/-- What changes are attributed to: a method, or a block that is not the body of a method. -/
inductive IsScope (tree : SyntaxTree) (id : Nat) : Prop
  | method {name descriptor : String} {isStatic : Bool}
      (hkind : tree.kind? id = some (.method name descriptor isStatic)) : IsScope tree id
  | block (hkind : tree.kind? id = some .block)
      (hbody : ∀ owner, tree.parent? id = some owner → tree.has NodeKind.isMethod owner = false) : IsScope tree id

theorem isScope_iff : tree.isScope id = true ↔ tree.IsScope id := by
  unfold isScope
  constructor
  · intro h
    split at h
    · next hkind => exact .method hkind
    · next hkind =>
      refine .block hkind fun owner howner => ?_
      simpa [howner] using h
    · cases h
  · rintro (hkind | ⟨hkind, hbody⟩)
    · rw [hkind]
    · rw [hkind]
      cases howner : tree.parent? id with
      | none => rfl
      | some owner => simp [hbody owner howner]

/-- A node has a line in its span. -/
def Covers (tree : SyntaxTree) (id line : Nat) : Prop :=
  ∃ node, tree.node? id = some node ∧ node.lines.first ≤ line ∧ line ≤ node.lines.last

theorem Covers.lt_size (h : tree.Covers id line) : id < tree.size := by
  obtain ⟨node, hnode, -⟩ := h
  exact (Array.getElem?_eq_some_iff.1 hnode).1

/-- Every line of a node is a line of its parent. -/
def SpansNested (tree : SyntaxTree) : Prop :=
  ∀ id owner, tree.parent? id = some owner → ∀ line, tree.Covers id line → tree.Covers owner line

/-- It is enough that the ends of the spans of nodes lie within those of the parents. -/
theorem IsForest.spansNested (hforest : tree.IsForest)
    (h : ∀ id owner, id ∈ tree.children owner → ∀ node ∈ tree.node? id, ∀ above ∈ tree.node? owner,
      above.lines.first ≤ node.lines.first ∧ node.lines.last ≤ above.lines.last) : tree.SpansNested := by
  rintro id owner howner line ⟨node, hnode, hfirst, hlast⟩
  have hid := hforest.mem_children_of_parent howner
  obtain ⟨above, habove⟩ := exists_node? (lt_size_of_mem_children hid)
  obtain ⟨hlow, hhigh⟩ := h id owner hid node hnode above habove
  exact ⟨above, habove, by omega, by omega⟩

theorem Covers.of_below (hforest : tree.IsForest) (hspans : tree.SpansNested) (hbelow : tree.Below top id)
    (h : tree.Covers id line) : tree.Covers top line := by
  induction hbelow with
  | self => exact h
  | child _ hid ih => exact ih (hspans _ _ (hforest.parent_of_child hid) line h)

/-- Number of lines of a node. -/
def spanLength (tree : SyntaxTree) (id : Nat) : Nat :=
  ((tree.node? id).map fun node => node.lines.length).getD 0

/-- A node that has lines is not longer than one above it: its first and its last line are lines of that one. -/
theorem spanLength_le_of_below (hforest : tree.IsForest) (hspans : tree.SpansNested) (hbelow : tree.Below top id)
    (h : tree.Covers id line) : tree.spanLength id ≤ tree.spanLength top := by
  obtain ⟨node, hnode, hfirst, hlast⟩ := h
  -- spans are only known by the lines in them, so the two ends are carried up one by one
  obtain ⟨above, habove, hlow, -⟩ : tree.Covers top node.lines.first :=
    Covers.of_below hforest hspans hbelow ⟨node, hnode, Nat.le_refl _, by omega⟩
  obtain ⟨above', habove', -, hhigh⟩ : tree.Covers top node.lines.last :=
    Covers.of_below hforest hspans hbelow ⟨node, hnode, by omega, Nat.le_refl _⟩
  obtain rfl : above = above' := Option.some.inj (habove.symm.trans habove')
  simp only [spanLength, hnode, habove, Option.map_some, Option.getD_some, LineSpan.length]
  omega

/-! ## §2. Depth. -/

theorem IsForest.depth_child (hforest : tree.IsForest) {owner : Nat} (hid : id ∈ tree.children owner) :
    tree.depth id = tree.depth owner + 1 := by
  have howner := hforest.ancestors_of_child hid
  have hself : owner ∈ tree.ancestors owner :=
    (hforest.mem_ancestors_iff (lt_size_of_mem_children hid)).2 .self
  have hpos := List.length_pos_of_mem hself
  rw [depth, depth, howner, List.length_cons]
  omega

theorem IsForest.depth_le_of_below (hforest : tree.IsForest) (hbelow : tree.Below top id) :
    tree.depth top ≤ tree.depth id := by
  induction hbelow with
  | self => exact Nat.le_refl _
  | child _ hid ih =>
    rw [hforest.depth_child hid]
    omega

theorem IsForest.depth_lt_of_below (hforest : tree.IsForest) (hbelow : tree.Below top id) (hne : id ≠ top) :
    tree.depth top < tree.depth id := by
  cases hbelow with
  | self => exact absurd rfl hne
  | child howner hid =>
    have hle := hforest.depth_le_of_below howner
    rw [hforest.depth_child hid]
    omega

/-! ## §3. The choice. -/

/-- Whether a node is chosen before another: its span is shorter, or as long and the node not less deep. -/
def precedes (tree : SyntaxTree) (a b : Nat) : Bool :=
  tree.spanLength a < tree.spanLength b ||
    (tree.spanLength a == tree.spanLength b && tree.depth b ≤ tree.depth a)

theorem precedes_iff {a b : Nat} : tree.precedes a b = true ↔ tree.spanLength a < tree.spanLength b
    ∨ tree.spanLength a = tree.spanLength b ∧ tree.depth b ≤ tree.depth a := by
  simp [precedes]

/-- Scopes that have a line. -/
def scopesAround (tree : SyntaxTree) (line : Nat) : List Nat :=
  (List.range tree.size).filter fun id =>
    tree.isScope id && ((tree.node? id).map fun node => node.lines.contains line).getD false

theorem mem_scopesAround : id ∈ tree.scopesAround line ↔ tree.IsScope id ∧ tree.Covers id line := by
  have hcovers : ((tree.node? id).map fun node => node.lines.contains line).getD false = true
      ↔ tree.Covers id line := by
    unfold Covers
    cases tree.node? id <;> simp [LineSpan.contains]
  rw [scopesAround, List.mem_filter, List.mem_range, Bool.and_eq_true, isScope_iff, hcovers, and_iff_right_iff_imp]
  exact fun h => h.2.lt_size

theorem enclosingBlock?_eq (tree : SyntaxTree) (line : Nat) :
    tree.enclosingBlock? line = Ascending.firstLeast tree.precedes (tree.scopesAround line) := rfl

/-- A line has a scope when some scope has the line. -/
theorem isSome_enclosingBlock?_iff :
    (tree.enclosingBlock? line).isSome = true ↔ ∃ scope, tree.IsScope scope ∧ tree.Covers scope line := by
  rw [Option.isSome_iff_ne_none, enclosingBlock?_eq, ne_eq, Ascending.firstLeast_eq_none_iff]
  constructor
  · intro hne
    obtain ⟨scope, hscope⟩ := List.exists_mem_of_ne_nil _ hne
    exact ⟨scope, mem_scopesAround.1 hscope⟩
  · rintro ⟨scope, hscope⟩
    exact List.ne_nil_of_mem (mem_scopesAround.2 hscope)

/-- The scope of a line comes before all others that have the line. -/
theorem precedes_of_enclosingBlock? (h : tree.enclosingBlock? line = some id) :
    id ∈ tree.scopesAround line ∧ ∀ other ∈ tree.scopesAround line, tree.precedes id other = true := by
  rw [enclosingBlock?_eq] at h
  refine Ascending.le_of_firstLeast ?_ ?_ h
  · intro a b
    rw [precedes_iff, precedes_iff]
    omega
  · intro a b c
    rw [precedes_iff, precedes_iff, precedes_iff]
    omega

/-- In a valid tree in which spans lie within those of the parents, a line has a scope exactly when some scope has
    the line; and the scope of a line has the line, while no scope properly below it has. -/
theorem enclosingBlock?_innermost (tree : SyntaxTree) (hvalid : tree.validate = .ok ())
    (hspans : tree.SpansNested) (line : Nat) :
    ((tree.enclosingBlock? line).isSome = true ↔ ∃ scope, tree.IsScope scope ∧ tree.Covers scope line)
      ∧ ∀ scope, tree.enclosingBlock? line = some scope →
          tree.IsScope scope ∧ tree.Covers scope line
            ∧ ∀ inner ∈ tree.descendants scope, inner ≠ scope → tree.IsScope inner → ¬ tree.Covers inner line := by
  have hforest := validate_eq_ok_iff.1 hvalid
  refine ⟨isSome_enclosingBlock?_iff, ?_⟩
  intro scope hscope
  obtain ⟨hmem, hfirst⟩ := precedes_of_enclosingBlock? hscope
  obtain ⟨hisScope, hcovers⟩ := mem_scopesAround.1 hmem
  refine ⟨hisScope, hcovers, ?_⟩
  intro inner hinner hne hinnerScope hinnerCovers
  have hbelow : tree.Below scope inner := (hforest.mem_descendants_iff hcovers.lt_size inner).1 hinner
  -- it is not longer than the chosen scope and it is deeper, so it would have been chosen
  have hlength := spanLength_le_of_below hforest hspans hbelow hinnerCovers
  have hdepth := hforest.depth_lt_of_below hbelow hne
  have hchosen := precedes_iff.1 (hfirst inner (mem_scopesAround.2 ⟨hinnerScope, hinnerCovers⟩))
  omega

/-- A method with a block in a block; both blocks have the same lines. -/
def nestedBlocks : SyntaxTree where
  path := "Run.java"
  lineCount := 8
  nodes :=
    #[⟨.classDecl "a.Run", ⟨1, 8⟩, [1], none⟩, ⟨.method "run" "()V" true, ⟨2, 7⟩, [2], some 0⟩,
      ⟨.block, ⟨2, 7⟩, [3], some 1⟩, ⟨.ifStmt, ⟨3, 5⟩, [4], some 2⟩, ⟨.block, ⟨3, 5⟩, [5], some 3⟩,
      ⟨.block, ⟨3, 5⟩, [], some 4⟩]
  roots := [0]

theorem spansNested_nestedBlocks (hforest : nestedBlocks.IsForest) : nestedBlocks.SpansNested := by
  apply hforest.spansNested
  intro id owner hid node hnode above habove
  have howner : owner < 6 := lt_size_of_mem_children hid
  -- every node but the last has one child
  rcases (by omega : owner = 0 ∨ owner = 1 ∨ owner = 2 ∨ owner = 3 ∨ owner = 4 ∨ owner = 5) with
    rfl | rfl | rfl | rfl | rfl | rfl
  case inr.inr.inr.inr.inr => cases hid
  all_goals
    obtain rfl := List.mem_singleton.1 hid
    obtain rfl := Option.some.inj hnode
    obtain rfl := Option.some.inj habove
    decide

theorem below_nestedBlocks : ∀ id < 6, nestedBlocks.Below id 5 := by
  have hblock : nestedBlocks.Below 4 5 := .child .self (by decide)
  have hif : nestedBlocks.Below 3 5 := .of_child (by decide) hblock
  have hbody : nestedBlocks.Below 2 5 := .of_child (by decide) hif
  have hmethod : nestedBlocks.Below 1 5 := .of_child (by decide) hbody
  have hclass : nestedBlocks.Below 0 5 := .of_child (by decide) hmethod
  intro id hid
  rcases (by omega : id = 0 ∨ id = 1 ∨ id = 2 ∨ id = 3 ∨ id = 4 ∨ id = 5) with rfl | rfl | rfl | rfl | rfl | rfl
  · exact hclass
  · exact hmethod
  · exact hbody
  · exact hif
  · exact hblock
  · exact .self

/-- The inner block is chosen for a line of both, as it is deeper. -/
theorem enclosingBlock?_innermost_nestedBlocks :
    nestedBlocks.validate = .ok () ∧ nestedBlocks.SpansNested ∧ nestedBlocks.enclosingBlock? 4 = some 5 := by
  have hvalid : nestedBlocks.validate = .ok () := eq_ok_of_toOption (by decide +kernel)
  have hforest := validate_eq_ok_iff.1 hvalid
  have hspans := spansNested_nestedBlocks hforest
  obtain ⟨hsome, hinnermost⟩ := enclosingBlock?_innermost nestedBlocks hvalid hspans 4
  have hinner : nestedBlocks.IsScope 5 := isScope_iff.1 (by decide)
  have hinnerCovers : nestedBlocks.Covers 5 4 := ⟨_, rfl, by decide, by decide⟩
  obtain ⟨scope, hscope⟩ := Option.isSome_iff_exists.1 (hsome.2 ⟨5, hinner, hinnerCovers⟩)
  obtain ⟨-, hcovers, hnone⟩ := hinnermost scope hscope
  refine ⟨hvalid, hspans, hscope.trans (congrArg some ?_)⟩
  -- a scope above the inner block is ruled out by it
  by_contra hne
  have hbelow := (hforest.mem_descendants_iff hcovers.lt_size 5).2 (below_nestedBlocks scope hcovers.lt_size)
  exact hnone 5 hbelow (Ne.symm hne) hinner hinnerCovers

end PatchPresence.SyntaxTree
