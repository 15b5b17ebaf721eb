/-
  PatchPresence.Proofs.Diff.Attribution — the scopes that the blocks of a file name.

  A segment is a stretch of lines with one scope around all of them, so a block that is made from segments names the
  scope of each of its lines. Pairing only brings segments of one label together, and joining only blocks that name
  the same scopes; neither takes lines out of the scope that their segment was cut for.

  Main results:
    * `Segment.isCut_of_segments` — what a segment says of its lines.
    * `BlockDiff.attributed_pair`, `BlockDiff.attributed_merge` — pairing and joining keep it.
    * `FileDiff.attributed_of_parse` — every block of a file names the scopes of its lines, and its kind.
-/
import PatchPresence.Proofs.Diff.Blocks
import PatchPresence.Proofs.Source.Navigation

namespace PatchPresence

/-! ## §1. Segments. -/

/-- Lines of a side are in a tree, with a scope as the smallest around each; without a tree there is no scope. -/
def InScope (tree : Option SyntaxTree) (scope : Option Nat) (lines : List Nat) : Prop :=
  match tree with
  | none => scope = none
  | some tree => ∀ line ∈ lines, 1 ≤ line ∧ line ≤ tree.lineCount ∧ tree.enclosingBlock? line = scope

namespace InScope

theorem nil (tree : Option SyntaxTree) : InScope tree none [] := by
  cases tree with
  | none => rfl
  | some tree => exact fun line hline => by cases hline

theorem append {tree : Option SyntaxTree} {scope : Option Nat} {front back : List Nat}
    (hfront : InScope tree scope front) (hback : InScope tree scope back) :
    InScope tree scope (front ++ back) := by
  cases tree with
  | none => exact hfront
  | some tree => exact fun line hline => (List.mem_append.1 hline).elim (hfront line) (hback line)

end InScope

/-- Label of a scope in a tree, when both are known. -/
def scopeLabel? (tree : Option SyntaxTree) (scope : Option Nat) : Option String :=
  tree.bind fun tree => scope.bind tree.blockLabel?

/-- A changed line that is placed is in its tree. -/
theorem LineChange.inScope_of_place {tree : Option SyntaxTree} {change : LineChange} {placed : PlacedLine}
    (h : change.place tree = .ok placed) : InScope tree placed.scope [placed.line] := by
  cases tree with
  | none =>
    cases h
    rfl
  | some tree =>
    unfold place at h
    dsimp only at h
    split at h
    · cases h
    · next hinside =>
      cases h
      intro line hline
      obtain rfl := List.mem_singleton.1 hline
      have hbounds : ¬ change.line = 0 ∧ ¬ tree.lineCount < change.line := by simpa using hinside
      exact ⟨Nat.pos_of_ne_zero hbounds.1, Nat.le_of_not_lt hbounds.2, rfl⟩

namespace Segment

/-- What a segment says of its lines. -/
structure IsCut (tree : Option SyntaxTree) (part : Segment) : Prop where
  lines_ne_nil : part.lines ≠ []
  inScope : InScope tree part.scope part.lines
  label_eq : part.label = scopeLabel? tree part.scope

/-- The lines of a stretch all have the scope of its first one. -/
theorem inScope_of_isChain {tree : Option SyntaxTree} {first : PlacedLine} {rest : List PlacedLine}
    (hplaced : ∀ placed ∈ first :: rest, InScope tree placed.scope [placed.line])
    (hchain : (first :: rest).IsChain fun a b => (a.scope == b.scope) = true) :
    InScope tree first.scope ((first :: rest).map PlacedLine.line) := by
  induction rest generalizing first with
  | nil => exact hplaced first List.mem_cons_self
  | cons second rest ih =>
    obtain ⟨hscope, hchain⟩ := List.isChain_cons_cons.1 hchain
    obtain ⟨hfirst, hplaced⟩ := List.forall_mem_cons.1 hplaced
    have hrest := ih hplaced hchain
    rw [← eq_of_beq hscope] at hrest
    exact hfirst.append hrest

theorem isCut_of_segments {changes : List LineChange} {side : Side} {tree : Option SyntaxTree}
    {parts : List Segment} (h : segments changes side tree = .ok parts) : ∀ part ∈ parts, part.IsCut tree := by
  obtain ⟨placed, hplaced, hparts⟩ := bind_eq_ok_iff.1 h
  cases hparts
  intro part hpart
  obtain ⟨group, hgroup, rfl⟩ := List.mem_map.1 hpart
  have hlines : ∀ line ∈ group, InScope tree line.scope [line.line] := by
    intro line hline
    have hmem : line ∈ placed := by
      rw [← List.flatten_splitBy (fun a b : PlacedLine => a.scope == b.scope) placed]
      exact List.mem_flatten_of_mem hgroup hline
    obtain ⟨change, -, hplace⟩ := (mem_of_mapM_eq_ok hplaced line).1 hmem
    exact LineChange.inScope_of_place hplace
  cases group with
  | nil => exact absurd rfl (List.ne_nil_of_mem_splitBy hgroup)
  | cons first rest =>
    refine ⟨by simp [Segment.of], inScope_of_isChain hlines (List.isChain_of_mem_splitBy hgroup), ?_⟩
    rfl

end Segment

/-! ## §2. Blocks. -/

namespace BlockDiff

/-- A block has the kind that its lines make it, and names the scopes around them and their label. -/
structure Attributed (pre post : Option SyntaxTree) (block : BlockDiff) : Prop where
  addition_iff : block.kind = .addition ↔ block.deleted = []
  deletion_iff : block.kind = .deletion ↔ block.added = []
  deleted_inScope : InScope pre block.block.pre block.deleted
  added_inScope : InScope post block.block.post block.added
  label_of_deleted : block.deleted ≠ [] → block.block.label = scopeLabel? pre block.block.pre
  label_of_added : block.added ≠ [] → block.block.label = scopeLabel? post block.block.post

variable {pre post : Option SyntaxTree}

theorem attributed_ofAddition {added : Segment} (h : added.IsCut post) :
    (ofAddition added).Attributed pre post where
  addition_iff := by simp [ofAddition]
  deletion_iff := by simp [ofAddition, h.lines_ne_nil]
  deleted_inScope := .nil pre
  added_inScope := h.inScope
  label_of_deleted := fun hne => absurd rfl hne
  label_of_added := fun _ => h.label_eq

theorem attributed_ofDeletion {deleted : Segment} (h : deleted.IsCut pre) :
    (ofDeletion deleted).Attributed pre post where
  addition_iff := by simp [ofDeletion, h.lines_ne_nil]
  deletion_iff := by simp [ofDeletion]
  deleted_inScope := h.inScope
  added_inScope := .nil post
  label_of_deleted := fun _ => h.label_eq
  label_of_added := fun hne => absurd rfl hne

theorem attributed_ofModification {deleted added : Segment} (hdeleted : deleted.IsCut pre)
    (hadded : added.IsCut post) (hlabel : added.label = deleted.label) :
    (ofModification deleted added).Attributed pre post where
  addition_iff := by simp [ofModification, hdeleted.lines_ne_nil]
  deletion_iff := by simp [ofModification, hadded.lines_ne_nil]
  deleted_inScope := hdeleted.inScope
  added_inScope := hadded.inScope
  label_of_deleted := fun _ => hlabel.trans hdeleted.label_eq
  label_of_added := fun _ => hadded.label_eq

/-- A deletion and the addition that it takes have one label, so both scopes of a modification do. -/
theorem attributed_pair {deletions additions : List Segment} (hdeletions : ∀ part ∈ deletions, part.IsCut pre)
    (hadditions : ∀ part ∈ additions, part.IsCut post) :
    ∀ block ∈ pair deletions additions, block.Attributed pre post := by
  induction deletions generalizing additions with
  | nil =>
    intro block hblock
    obtain ⟨added, hadded, rfl⟩ := List.mem_map.1 hblock
    exact attributed_ofAddition (hadditions added hadded)
  | cons deleted deletions ih =>
    obtain ⟨hdeleted, hdeletions⟩ := List.forall_mem_cons.1 hdeletions
    rw [pair]
    split
    · next added rest hextract =>
      obtain ⟨hlabel, hperm⟩ := of_extract? hextract
      have hparts : ∀ part ∈ added :: rest, part.IsCut post :=
        fun part hpart => hadditions part (hperm.mem_iff.2 hpart)
      obtain ⟨hadded, hrest⟩ := List.forall_mem_cons.1 hparts
      exact List.forall_mem_cons.2
        ⟨attributed_ofModification hdeleted hadded (eq_of_beq hlabel), ih hdeletions hrest⟩
    · exact List.forall_mem_cons.2 ⟨attributed_ofDeletion hdeleted, ih hdeletions hadditions⟩

namespace Attributed

theorem modification_iff {block : BlockDiff} (h : block.Attributed pre post) :
    block.kind = .modification ↔ block.deleted ≠ [] ∧ block.added ≠ [] := by
  rw [ne_eq, ne_eq, ← h.addition_iff, ← h.deletion_iff]
  cases block.kind <;> simp

/-- Both scopes of a modification have the label of the block. -/
theorem scopeLabel?_eq {block : BlockDiff} (h : block.Attributed pre post) (hkind : block.kind = .modification) :
    scopeLabel? pre block.block.pre = scopeLabel? post block.block.post := by
  obtain ⟨hdeleted, hadded⟩ := h.modification_iff.1 hkind
  exact (h.label_of_deleted hdeleted).symm.trans (h.label_of_added hadded)

/-- Blocks of one kind that name the same scopes can be joined: both have lines of a side, or neither has. -/
theorem join {first next : BlockDiff} (hfirst : first.Attributed pre post) (hnext : next.Attributed pre post)
    (hkind : first.kind = next.kind) (hblock : first.block = next.block) :
    Attributed pre post
      { first with deleted := first.deleted ++ next.deleted, added := first.added ++ next.added } := by
  have hdeleted : next.deleted = [] ↔ first.deleted = [] := by
    rw [← hfirst.addition_iff, ← hnext.addition_iff, hkind]
  have hadded : next.added = [] ↔ first.added = [] := by
    rw [← hfirst.deletion_iff, ← hnext.deletion_iff, hkind]
  constructor
  · rw [List.append_eq_nil_iff, hdeleted, and_self]
    exact hfirst.addition_iff
  · rw [List.append_eq_nil_iff, hadded, and_self]
    exact hfirst.deletion_iff
  · exact hfirst.deleted_inScope.append (hblock ▸ hnext.deleted_inScope)
  · exact hfirst.added_inScope.append (hblock ▸ hnext.added_inScope)
  · rw [ne_eq, List.append_eq_nil_iff, hdeleted, and_self]
    exact hfirst.label_of_deleted
  · rw [ne_eq, List.append_eq_nil_iff, hadded, and_self]
    exact hfirst.label_of_added

end Attributed

theorem attributed_merge {blocks : List BlockDiff} (h : ∀ block ∈ blocks, block.Attributed pre post) :
    ∀ block ∈ merge blocks, block.Attributed pre post := by
  induction blocks with
  | nil => exact h
  | cons first rest ih =>
    obtain ⟨hfirst, hrest⟩ := List.forall_mem_cons.1 h
    have hmerged := ih hrest
    rw [merge]
    split
    · exact List.forall_mem_singleton.2 hfirst
    · next next others hothers =>
      rw [hothers] at hmerged
      obtain ⟨hnext, hbehind⟩ := List.forall_mem_cons.1 hmerged
      split
      · next hsame => exact List.forall_mem_cons.2 ⟨hfirst.join hnext hsame.1 hsame.2, hbehind⟩
      · exact List.forall_mem_cons.2 ⟨hfirst, hmerged⟩

theorem attributed_ofRun {changes : List LineChange} {blocks : List BlockDiff}
    (h : ofRun pre post changes = .ok blocks) : ∀ block ∈ blocks, block.Attributed pre post := by
  obtain ⟨deletions, hdeletions, hrest⟩ := bind_eq_ok_iff.1 h
  obtain ⟨additions, hadditions, hpair⟩ := bind_eq_ok_iff.1 hrest
  cases hpair
  exact attributed_pair (Segment.isCut_of_segments hdeletions) (Segment.isCut_of_segments hadditions)

theorem attributed_ofChanges {changes : List LineChange} {blocks : List BlockDiff}
    (h : ofChanges pre post changes = .ok blocks) : ∀ block ∈ blocks, block.Attributed pre post := by
  obtain ⟨runs, hruns, hmerge⟩ := bind_eq_ok_iff.1 h
  cases hmerge
  refine attributed_merge fun block hblock => ?_
  obtain ⟨run, hrun, hmem⟩ := List.mem_flatten.1 hblock
  obtain ⟨changes, -, hofRun⟩ := (mem_of_mapM_eq_ok hruns run).1 hrun
  exact attributed_ofRun hofRun block hmem

end BlockDiff

/-! ## §3. Files. -/

namespace FileDiff

/-- In every file of a diff, a block is an addition, a deletion or a modification as its lines say. Lines of a side
    whose tree is known are in that tree, with the scope that the block names around each of them; a side without a
    tree has no scope. Both scopes of a modification have one label. -/
theorem attributed_of_parse (text : String) (sources : SourceLookup) {file : FileDiff}
    (hfile : .ok file ∈ FileDiff.parse text sources) :
    ∀ block ∈ file.blocks,
      (block.kind = .addition ↔ block.deleted = [])
        ∧ (block.kind = .deletion ↔ block.added = [])
        ∧ (block.kind = .modification ↔ block.deleted ≠ [] ∧ block.added ≠ [])
        ∧ InScope (file.oldPath.bind sources.preTree?) block.block.pre block.deleted
        ∧ InScope (file.newPath.bind sources.postTree?) block.block.post block.added
        ∧ (block.kind = .modification →
            scopeLabel? (file.oldPath.bind sources.preTree?) block.block.pre
              = scopeLabel? (file.newPath.bind sources.postTree?) block.block.post) := by
  intro block hblock
  obtain ⟨part, -, hpart⟩ := List.mem_map.1 hfile
  obtain ⟨-, -, hblocks⟩ := DiffSection.of_toFile hpart
  have h := BlockDiff.attributed_ofChanges hblocks block hblock
  exact ⟨h.addition_iff, h.deletion_iff, h.modification_iff, h.deleted_inScope, h.added_inScope,
    h.scopeLabel?_eq⟩

/-- A class of some lines, with a method from its second line to the last but one. -/
def methodTree (last : Nat) : SyntaxTree where
  path := "A.java"
  lineCount := last
  nodes := #[⟨.classDecl "a.Run", ⟨1, last⟩, [1], none⟩,
    ⟨.method "run" "()V" true, ⟨2, last - 1⟩, [], some 0⟩]
  roots := [0]

/-- A line of the method is replaced by two. -/
def lineSplit : String := "--- a/A.java\n+++ b/A.java\n@@ -3 +3,2 @@\n-old\n+new\n+more\n"

/-- The trees before and behind the patch. -/
def lineSplitSources : SourceLookup := ⟨fun _ => some (methodTree 5), fun _ => some (methodTree 6)⟩

theorem enclosingMethod?_methodTree : ∀ last ∈ [5, 6],
    (methodTree last).enclosingMethod? 1 = some 1 ∧ (methodTree last).className? 1 = some "a.Run" := by
  intro last hlast
  have hvalid : ∀ last ∈ [5, 6], (methodTree last).validate.toOption = some () := by decide +kernel
  have hforest : (methodTree last).IsForest := SyntaxTree.validate_eq_ok_iff.1 (eq_ok_of_toOption (hvalid last hlast))
  have hchain : (methodTree last).ParentChain 1 [1, 0] := .up Nat.one_lt_two rfl (.top Nat.zero_lt_two rfl)
  have hancestors := hchain.ancestors_eq hforest
  refine ⟨?_, ?_⟩
  · rw [SyntaxTree.enclosingMethod?, SyntaxTree.ancestor?, hancestors]
    rfl
  · rw [SyntaxTree.className?, SyntaxTree.enclosingClass?, SyntaxTree.ancestor?, hancestors]
    rfl

theorem of_methodTree {last : Nat} (h : last ∈ [5, 6]) (lines : List Nat) :
    Segment.of (some (methodTree last)) (some 1) lines
      = ⟨some 1, some "a/Run.run()V", some ⟨"a/Run", "run", "()V", true⟩, lines⟩ := by
  obtain ⟨hmethod, hclass⟩ := enclosingMethod?_methodTree last h
  have hsignature : (methodTree last).methodSignature? 1 = some ⟨"a/Run", "run", "()V", true⟩ := by
    rw [SyntaxTree.methodSignature?, hclass]
    have hname : internalName "a.Run" = "a/Run" := by decide +kernel
    simp only [SyntaxTree.kind?, methodTree, SyntaxTree.node?, Option.bind_eq_bind, Option.bind_some, hname]
    rfl
  have hlabel : (methodTree last).blockLabel? 1 = some "a/Run.run()V" := by
    rw [SyntaxTree.blockLabel?, hmethod]
    have hkey : MethodSignature.key ⟨"a/Run", "run", "()V", true⟩ = "a/Run.run()V" := by decide +kernel
    simp only [Option.bind_eq_bind, Option.bind_some, hsignature, if_true, hkey]
    rfl
  simp only [Segment.of, Option.bind_eq_bind, Option.bind_some, hmethod, hsignature, hlabel]

/-- Both sides of the patch are in the method, so they make one modification of it. -/
theorem attributed_of_parse_lineSplit :
    ∃ file, .ok file ∈ FileDiff.parse lineSplit lineSplitSources
      ∧ file.blocks = [⟨.modification,
          ⟨some 1, some 1, some "a/Run.run()V", some ⟨"a/Run", "run", "()V", true⟩⟩, [3], [3, 4]⟩]
      ∧ (∀ line ∈ [3, 4], 1 ≤ line ∧ line ≤ 6 ∧ (methodTree 6).enclosingBlock? line = some 1)
      ∧ (methodTree 5).blockLabel? 1 = (methodTree 6).blockLabel? 1 := by
  have hscan : DiffScan.run (Text.lines lineSplit.toList) = [{
      firstLine := 1, oldPath := some "A.java", newPath := some "A.java", hasOldHeader := true,
      hunks := [⟨3, 1, 3, 2⟩], changes := [⟨.old, 3, 4, 1⟩, ⟨.new, 3, 5, 1⟩, ⟨.new, 4, 6, 1⟩], runs := 1 }] := by
    decide +kernel
  have hrun : BlockDiff.ofRun (some (methodTree 5)) (some (methodTree 6))
      [⟨.old, 3, 4, 1⟩, ⟨.new, 3, 5, 1⟩, ⟨.new, 4, 6, 1⟩]
        = .ok (BlockDiff.pair [Segment.of (some (methodTree 5)) (some 1) [3]]
            [Segment.of (some (methodTree 6)) (some 1) [3, 4]]) := by rfl
  rw [of_methodTree (by decide), of_methodTree (by decide)] at hrun
  have hfile : .ok ⟨some "A.java", some "A.java", none, none, [⟨3, 1, 3, 2⟩], [⟨.modification,
      ⟨some 1, some 1, some "a/Run.run()V", some ⟨"a/Run", "run", "()V", true⟩⟩, [3], [3, 4]⟩]⟩
        ∈ FileDiff.parse lineSplit lineSplitSources := by
    rw [FileDiff.parse, hscan]
    refine List.mem_singleton.2 (Eq.symm (bind_eq_ok_iff.2 ⟨_, ?_, rfl⟩))
    exact bind_eq_ok_iff.2 ⟨[_], mapM_cons_eq_ok_iff.2 ⟨_, [], hrun, rfl, rfl⟩, rfl⟩
  obtain ⟨-, -, -, -, hadded, hlabel⟩ := attributed_of_parse _ _ hfile _ (List.mem_singleton.2 rfl)
  exact ⟨_, hfile, rfl, hadded, hlabel rfl⟩

end FileDiff

end PatchPresence
