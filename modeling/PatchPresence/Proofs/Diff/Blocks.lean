/-
  PatchPresence.Proofs.Diff.Blocks — the changed lines that the blocks of a file hold.

  Lines go through four steps on their way into blocks: they are cut into runs, cut into segments, paired
  and joined. Each step keeps the lines of a side, and their order too where every segment has the same label.

  Main results:
    * `BlockDiff.exists_ofChanges` — without trees there are always blocks, and they hold every changed
      line of each side once and in order.
    * `BlockDiff.perm_lines_ofChanges` — with any trees, blocks hold every changed line of each side once.
-/
import Mathlib.Data.List.SplitBy
import PatchPresence.Diff.File
import PatchPresence.Proofs.Outcome

namespace PatchPresence

/-! ## §1. Segments. -/

/-- Numbers of the changed lines of a side, in order. -/
def changedLines (side : Side) (changes : List LineChange) : List Nat :=
  (changes.filter (·.side = side)).map LineChange.line

@[simp] theorem changedLines_append (side : Side) (front back : List LineChange) :
    changedLines side (front ++ back) = changedLines side front ++ changedLines side back := by
  simp [changedLines]

theorem changedLines_flatten (side : Side) (runs : List (List LineChange)) :
    changedLines side runs.flatten = runs.flatMap (changedLines side) := by
  induction runs with
  | nil => rfl
  | cons run runs ih =>
    rw [List.flatten_cons, List.flatMap_cons, changedLines_append, ih]

theorem LineChange.line_of_place {tree : Option SyntaxTree} {change : LineChange} {placed : PlacedLine}
    (h : change.place tree = .ok placed) : placed.line = change.line := by
  unfold LineChange.place at h
  split at h
  · cases h
    rfl
  · split at h
    · cases h
    · cases h
      rfl

/-- Segments hold the changed lines of their side in order. -/
theorem lines_of_segments {changes : List LineChange} {side : Side} {tree : Option SyntaxTree}
    {parts : List Segment} (h : segments changes side tree = .ok parts) :
    parts.flatMap Segment.lines = changedLines side changes := by
  obtain ⟨placed, hplaced, hparts⟩ := bind_eq_ok_iff.1 h
  cases hparts
  have hlines : placed.map PlacedLine.line = changedLines side changes :=
    map_of_mapM_eq_ok (fun _ _ => LineChange.line_of_place) hplaced
  rw [List.flatMap_map, ← hlines]
  show (placed.splitBy _).flatMap (fun group => group.map PlacedLine.line) = _
  rw [List.flatMap_def, ← List.map_flatten, List.flatten_splitBy]

/-- Without a tree there are always segments, and none has a label. -/
theorem exists_segments (changes : List LineChange) (side : Side) :
    ∃ parts, segments changes side none = .ok parts ∧ ∀ part ∈ parts, part.label = none := by
  have hplace : ∀ change ∈ changes.filter (·.side = side), ∃ placed, LineChange.place none change = .ok placed :=
    fun _ _ => ⟨_, rfl⟩
  obtain ⟨placed, hplaced⟩ := exists_mapM_eq_ok hplace
  refine ⟨_, bind_eq_ok_iff.2 ⟨placed, hplaced, rfl⟩, ?_⟩
  intro part hpart
  obtain ⟨group, -, rfl⟩ := List.mem_map.1 hpart
  rfl

namespace BlockDiff

/-! ## §2. Pairing and joining. -/

/-- Changed lines of a side. -/
def lines (block : BlockDiff) : Side → List Nat
  | .old => block.deleted
  | .new => block.added

theorem lines_old_pair (deletions additions : List Segment) :
    (pair deletions additions).flatMap (·.lines .old) = deletions.flatMap Segment.lines := by
  induction deletions generalizing additions with
  | nil => simp [pair, lines, ofAddition]
  | cons deleted deletions ih =>
    rw [pair]
    split
    · rw [List.flatMap_cons, List.flatMap_cons, ih]
      rfl
    · rw [List.flatMap_cons, List.flatMap_cons, ih]
      rfl

/-- When all labels are equal, a deletion always takes the first addition, so that no line overtakes
    another. -/
theorem lines_new_pair {label : Option String} {deletions additions : List Segment}
    (hdeletions : ∀ part ∈ deletions, part.label = label)
    (hadditions : ∀ part ∈ additions, part.label = label) :
    (pair deletions additions).flatMap (·.lines .new) = additions.flatMap Segment.lines := by
  induction deletions generalizing additions with
  | nil => simp [pair, lines, ofAddition, List.flatMap_map]
  | cons deleted deletions ih =>
    obtain ⟨hdeleted, hdeletions⟩ := List.forall_mem_cons.1 hdeletions
    cases additions with
    | nil =>
      rw [pair, extract?, List.flatMap_cons, ih hdeletions hadditions]
      rfl
    | cons added additions =>
      obtain ⟨hadded, hadditions⟩ := List.forall_mem_cons.1 hadditions
      have hfirst : (added.label == deleted.label) = true := by
        rw [hadded, hdeleted]
        exact beq_self_eq_true label
      rw [pair, extract?, if_pos hfirst]
      show added.lines ++ (pair deletions additions).flatMap (·.lines .new) = _
      rw [ih hdeletions hadditions, List.flatMap_cons]

theorem lines_merge (side : Side) (blocks : List BlockDiff) :
    (merge blocks).flatMap (·.lines side) = blocks.flatMap (·.lines side) := by
  induction blocks with
  | nil => rfl
  | cons first rest ih =>
    rw [List.flatMap_cons, ← ih, merge]
    split
    · rename_i hrest
      rw [hrest]
      rfl
    · rename_i next others hrest
      rw [hrest]
      split
      · cases side <;> simp [lines]
      · rfl

/-! ## §3. Blocks of a file without trees. -/

theorem exists_ofRun (changes : List LineChange) : ∃ blocks, ofRun none none changes = .ok blocks := by
  obtain ⟨deletions, hdeletions, -⟩ := exists_segments changes .old
  obtain ⟨additions, hadditions, -⟩ := exists_segments changes .new
  exact ⟨_, bind_eq_ok_iff.2 ⟨deletions, hdeletions, bind_eq_ok_iff.2 ⟨additions, hadditions, rfl⟩⟩⟩

theorem lines_ofRun {changes : List LineChange} {blocks : List BlockDiff}
    (h : ofRun none none changes = .ok blocks) (side : Side) :
    blocks.flatMap (·.lines side) = changedLines side changes := by
  obtain ⟨deletions, hdeletions, holdLabels⟩ := exists_segments changes .old
  obtain ⟨additions, hadditions, hnewLabels⟩ := exists_segments changes .new
  have hpair : blocks = pair deletions additions := by
    rw [ofRun, hdeletions, hadditions] at h
    exact (Except.ok.inj h).symm
  subst hpair
  cases side with
  | old => rw [lines_old_pair, lines_of_segments hdeletions]
  | new => rw [lines_new_pair holdLabels hnewLabels, lines_of_segments hadditions]

theorem exists_ofChanges (changes : List LineChange) :
    ∃ blocks, ofChanges none none changes = .ok blocks
      ∧ ∀ side, blocks.flatMap (·.lines side) = changedLines side changes := by
  have heach : ∀ run ∈ changes.splitBy fun a b => a.run == b.run, ∃ blocks, ofRun none none run = .ok blocks :=
    fun run _ => exists_ofRun run
  obtain ⟨runs, hruns⟩ := exists_mapM_eq_ok heach
  refine ⟨merge runs.flatten, bind_eq_ok_iff.2 ⟨runs, hruns, rfl⟩, fun side => ?_⟩
  have hkept : runs.map (fun blocks => blocks.flatMap (·.lines side)) =
      (changes.splitBy fun a b => a.run == b.run).map (changedLines side) :=
    map_of_mapM_eq_ok (fun _ _ h => lines_ofRun h side) hruns
  -- joining, pairing and the cut into runs, each undone in turn
  calc (merge runs.flatten).flatMap (·.lines side)
      = runs.flatten.flatMap (·.lines side) := lines_merge side _
    _ = (runs.map fun blocks => blocks.flatMap (·.lines side)).flatten := by
        rw [← List.flatMap_id, List.flatMap_assoc, List.flatMap_def]
        rfl
    _ = changedLines side (changes.splitBy fun a b => a.run == b.run).flatten := by
        rw [hkept, changedLines_flatten, List.flatMap_def]
    _ = changedLines side changes := by rw [List.flatten_splitBy]

end BlockDiff

/-! ## §4. Blocks of a file with any trees. -/

/-- What is taken out of a list has the property, and the others stay. -/
theorem of_extract? {α : Type} {p : α → Bool} {items rest : List α} {found : α}
    (h : extract? p items = some (found, rest)) : p found = true ∧ items.Perm (found :: rest) := by
  induction items generalizing rest with
  | nil => cases h
  | cons a items ih =>
    rw [extract?] at h
    split at h
    · next hp =>
      cases h
      exact ⟨hp, List.Perm.refl _⟩
    · obtain ⟨⟨other, others⟩, hothers, heq⟩ := Option.map_eq_some_iff.1 h
      cases heq
      obtain ⟨hp, hperm⟩ := ih hothers
      exact ⟨hp, (hperm.cons a).trans (List.Perm.swap _ _ _)⟩

namespace BlockDiff

/-- A deletion may take an addition out of turn, but every addition ends up in one block. -/
theorem perm_lines_new_pair (deletions additions : List Segment) :
    ((pair deletions additions).flatMap (·.lines .new)).Perm (additions.flatMap Segment.lines) := by
  induction deletions generalizing additions with
  | nil => simp [pair, lines, ofAddition, List.flatMap_map]
  | cons deleted deletions ih =>
    rw [pair]
    split
    · next added rest hextract =>
      have htaken : (additions.flatMap Segment.lines).Perm (added.lines ++ rest.flatMap Segment.lines) :=
        (of_extract? hextract).2.flatMap_right Segment.lines
      show (added.lines ++ (pair deletions rest).flatMap (·.lines .new)).Perm _
      exact ((ih rest).append_left added.lines).trans htaken.symm
    · exact ih additions

theorem perm_lines_ofRun {pre post : Option SyntaxTree} {changes : List LineChange} {blocks : List BlockDiff}
    (h : ofRun pre post changes = .ok blocks) (side : Side) :
    (blocks.flatMap (·.lines side)).Perm (changedLines side changes) := by
  obtain ⟨deletions, hdeletions, hrest⟩ := bind_eq_ok_iff.1 h
  obtain ⟨additions, hadditions, hpair⟩ := bind_eq_ok_iff.1 hrest
  cases hpair
  cases side with
  | old => rw [lines_old_pair, lines_of_segments hdeletions]
  | new =>
    rw [← lines_of_segments hadditions]
    exact perm_lines_new_pair deletions additions

theorem perm_lines_ofChanges {pre post : Option SyntaxTree} {changes : List LineChange}
    {blocks : List BlockDiff} (h : ofChanges pre post changes = .ok blocks) (side : Side) :
    (blocks.flatMap (·.lines side)).Perm (changedLines side changes) := by
  obtain ⟨runs, hruns, hmerge⟩ := bind_eq_ok_iff.1 h
  cases hmerge
  -- run by run, for any cut of the changes into runs
  have hkept : ∀ (groups : List (List LineChange)) (parts : List (List BlockDiff)),
      groups.mapM (ofRun pre post) = .ok parts →
        (parts.flatten.flatMap (·.lines side)).Perm (changedLines side groups.flatten) := by
    intro groups
    induction groups with
    | nil =>
      intro parts hparts
      cases hparts
      exact List.Perm.refl _
    | cons group groups ih =>
      intro parts hparts
      obtain ⟨first, others, hfirst, hothers, rfl⟩ := mapM_cons_eq_ok_iff.1 hparts
      rw [List.flatten_cons, List.flatMap_append, List.flatten_cons, changedLines_append]
      exact (perm_lines_ofRun hfirst side).append (ih others hothers)
  have hall := hkept _ runs hruns
  rw [List.flatten_splitBy] at hall
  rw [lines_merge]
  exact hall

end BlockDiff

/-- A section that makes a file has no fault. The file has its hunks, and its blocks are made from the changed
    lines with the trees of the file's paths. -/
theorem DiffSection.of_toFile {sources : SourceLookup} {part : DiffSection} {file : FileDiff}
    (h : part.toFile sources = .ok file) :
    part.fault = none ∧ file.hunks = part.hunks
      ∧ BlockDiff.ofChanges (file.oldPath.bind sources.preTree?) (file.newPath.bind sources.postTree?)
          part.changes = .ok file.blocks := by
  unfold DiffSection.toFile at h
  split at h
  · cases h
  · next hfault =>
    refine ⟨hfault, ?_⟩
    extract_lets oldPath newPath at h
    split at h
    · cases h
    · obtain ⟨blocks, hblocks, hfile⟩ := bind_eq_ok_iff.1 h
      cases hfile
      exact ⟨rfl, hblocks⟩

end PatchPresence
