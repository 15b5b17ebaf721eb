/-
  PatchPresence.Proofs.Diff.RoundTrip — a written diff is read back.

  The scan is followed through a written diff from the inside out: one line of a hunk, the lines of a hunk,
  the hunks of a file, the files. What carries the lines of a hunk is that the hunk in progress has as many
  lines left, on either side, as are still to come, so that it closes behind its last line and not before.
  The content of a line is never looked at inside a hunk, so it may look like a header.

  Main result:
    * `FileDiff.parse_render` — every written diff is read as its files, with their hunks and line numbers.
-/
import PatchPresence.Proofs.Diff.Blocks
import PatchPresence.Proofs.Diff.Rendering

namespace PatchPresence

/-! ## §1. One line of a hunk. -/

namespace OpenHunk

/-- Next line of the file of a side. -/
def next (hunk : OpenHunk) : Side → Nat
  | .old => hunk.oldLine
  | .new => hunk.newLine

/-- Lines of the file of a side still to come. -/
def left (hunk : OpenHunk) : Side → Nat
  | .old => hunk.oldLeft
  | .new => hunk.newLeft

theorem isDone_iff (hunk : OpenHunk) : hunk.isDone = true ↔ ∀ side, hunk.left side = 0 := by
  unfold isDone
  rw [Bool.and_eq_true, decide_eq_true_eq, decide_eq_true_eq]
  constructor
  · rintro ⟨hold, hnew⟩ side
    cases side with
    | old => exact hold
    | new => exact hnew
  · intro h
    exact ⟨h .old, h .new⟩

/-- The hunk moves past a line: on each side that has the line, one line on. -/
structure Past (line : UnifiedLine) (hunk behind : OpenHunk) : Prop where
  next : ∀ side, behind.next side = hunk.next side + if line.standsIn side then 1 else 0
  left : ∀ side, hunk.left side = behind.left side + if line.standsIn side then 1 else 0

theorem exists_context? {line : UnifiedLine} (hline : line.side? = none) {hunk : OpenHunk}
    (hleft : ∀ side, hunk.left side ≠ 0) :
    ∃ behind, hunk.context? = some behind ∧ hunk.Past line behind := by
  have hold : hunk.oldLeft ≠ 0 := hleft .old
  have hnew : hunk.newLeft ≠ 0 := hleft .new
  have hstands : ∀ side, line.standsIn side = true := by
    intro side
    simp [UnifiedLine.standsIn, hline]
  have hcontext : hunk.context? = some
      ⟨hunk.oldLine + 1, hunk.newLine + 1, hunk.oldLeft - 1, hunk.newLeft - 1, false⟩ := by
    simp [context?, hold, hnew]
  refine ⟨_, hcontext, ⟨fun side => ?_, fun side => ?_⟩⟩
  · rw [if_pos (hstands side)]
    cases side <;> rfl
  · rw [if_pos (hstands side)]
    cases side with
    | old => show hunk.oldLeft = hunk.oldLeft - 1 + 1; omega
    | new => show hunk.newLeft = hunk.newLeft - 1 + 1; omega

theorem exists_change? {line : UnifiedLine} {side : Side} (hline : line.side? = some side)
    {hunk : OpenHunk} (hleft : hunk.left side ≠ 0) :
    ∃ behind, hunk.change? side = some (hunk.next side, behind) ∧ hunk.Past line behind := by
  have hstands : ∀ other, line.standsIn other = true ↔ other = side := by
    intro other
    simp [UnifiedLine.standsIn, hline, eq_comm]
  cases side with
  | old =>
    have hold : hunk.oldLeft ≠ 0 := hleft
    refine ⟨_, if_neg hold, ⟨fun other => ?_, fun other => ?_⟩⟩
    · cases other <;> simp [next, hstands]
    · cases other <;> simp [left, hstands]
      omega
  | new =>
    have hnew : hunk.newLeft ≠ 0 := hleft
    refine ⟨_, if_neg hnew, ⟨fun other => ?_, fun other => ?_⟩⟩
    · cases other <;> simp [next, hstands]
    · cases other <;> simp [left, hstands]
      omega

end OpenHunk

namespace DiffSection

/-- A line of a hunk moves the hunk on, and is recorded on the side that it changes. -/
theorem body_line {line : UnifiedLine} {text : List Char} (htext : text.head? = some line.sign)
    {hunk : OpenHunk} (hleft : ∀ side, line.standsIn side = true → hunk.left side ≠ 0)
    (part : DiffSection) (number : Nat) :
    ∃ behind runs recorded,
      part.body hunk number text =
          resume { part with runs := runs, changes := part.changes ++ recorded } behind
        ∧ hunk.Past line behind
        ∧ ∀ side, changedLines side recorded = if line.changes side then [hunk.next side] else [] := by
  cases hline : line.side? with
  | none =>
    have hboth : ∀ side, hunk.left side ≠ 0 := by
      intro side
      exact hleft side (by simp [UnifiedLine.standsIn, hline])
    obtain ⟨behind, hbehind, hpast⟩ := OpenHunk.exists_context? hline hboth
    have hsign : line.sign = ' ' := by rw [UnifiedLine.sign, hline]
    refine ⟨behind, part.runs, [], ?_, hpast, fun side => ?_⟩
    · rw [body, htext, hsign, hbehind, List.append_nil]
      rfl
    · simp [changedLines, UnifiedLine.changes, hline]
  | some side =>
    have hside : hunk.left side ≠ 0 := hleft side (by simp [UnifiedLine.standsIn, hline])
    obtain ⟨behind, hbehind, hpast⟩ := OpenHunk.exists_change? hline hside
    have hbody : part.body hunk number text = part.change hunk number side := by
      cases side with
      | old =>
        have hsign : line.sign = '-' := by rw [UnifiedLine.sign, hline]
        rw [body, htext, hsign]
        rfl
      | new =>
        have hsign : line.sign = '+' := by rw [UnifiedLine.sign, hline]
        rw [body, htext, hsign]
        rfl
    rw [hbody, change, hbehind]
    refine ⟨behind, _, _, rfl, hpast, fun other => ?_⟩
    by_cases hother : side = other
    · subst hother
      simp [changedLines, UnifiedLine.changes, hline]
    · simp [changedLines, UnifiedLine.changes, hline, hother]

/-- What the hunks of a written file do to a section: their headers and the numbers of their changed lines
    are added, no hunk is open behind them, and nothing else changes. -/
def Gains (part behind : DiffSection) (hunks : List Hunk) (numbers : Side → List Nat) : Prop :=
  ∃ runs recorded,
    behind = { part with
        hunks := part.hunks ++ hunks
        runs := runs
        changes := part.changes ++ recorded
        openHunk := none }
      ∧ ∀ side, changedLines side recorded = numbers side

theorem Gains.trans {part middle behind : DiffSection} {front back : List Hunk}
    {first second : Side → List Nat} (h : part.Gains middle front first)
    (h' : middle.Gains behind back second) :
    part.Gains behind (front ++ back) fun side => first side ++ second side := by
  obtain ⟨_, recorded, rfl, hfirst⟩ := h
  obtain ⟨runs, later, rfl, hsecond⟩ := h'
  refine ⟨runs, recorded ++ later, ?_, fun side => ?_⟩
  · simp only [List.append_assoc]
  · rw [changedLines_append, hfirst, hsecond]

end DiffSection

/-! ## §2. The lines of a hunk. -/

namespace DiffScan

/-- The scan behind written lines. -/
def through (scan : DiffScan) (texts : List (List Char)) : DiffScan := (texts.map Text.chomp).foldl step scan

theorem through_cons (scan : DiffScan) (text : List Char) (texts : List (List Char)) :
    scan.through (text :: texts) = (scan.step (Text.chomp text)).through texts := rfl

theorem through_append (scan : DiffScan) (front back : List (List Char)) :
    scan.through (front ++ back) = (scan.through front).through back := by
  simp [through]

/-- The scan is in a section, with the sections before it behind. -/
structure IsAt (scan : DiffScan) (before : List DiffSection) (part : DiffSection) : Prop where
  done : scan.done = before
  current : scan.current = some part

variable {scan : DiffScan} {before : List DiffSection} {part : DiffSection}

theorem IsAt.sections (h : scan.IsAt before part) : scan.sections = before ++ [part] := by
  rw [DiffScan.sections, h.done, h.current, Option.toList_some]

theorem IsAt.update (h : scan.IsAt before part) (change : DiffSection → DiffSection) :
    (scan.update change).IsAt before (change part) :=
  ⟨h.done, by rw [DiffScan.update, h.current, Option.map_some]⟩

theorem IsAt.counted (h : scan.IsAt before part) (count : Nat) :
    IsAt { scan with lineCount := count } before part :=
  ⟨h.done, h.current⟩

theorem IsAt.step_body (h : scan.IsAt before part) {hunk : OpenHunk} (hopen : part.openHunk = some hunk)
    (line : List Char) : (scan.step line).IsAt before (part.body hunk (scan.lineCount + 1) line) := by
  have hstep : scan.step line = DiffScan.update { scan with lineCount := scan.lineCount + 1 }
      (·.body hunk (scan.lineCount + 1) line) := by
    simp only [step, h.current, hopen]
  rw [hstep]
  exact (h.counted _).update _

/-- As many lines are left in the hunk as follow, so that it closes behind the last one. -/
theorem IsAt.through_lines {lines : List UnifiedLine} {hunk : OpenHunk}
    (h : scan.IsAt before (part.resume hunk))
    (hleft : ∀ side, hunk.left side = lines.countP (·.standsIn side)) :
    ∃ behind, (scan.through (lines.map UnifiedLine.text)).IsAt before behind
      ∧ part.Gains behind [] fun side => UnifiedLine.changedNumbers side (hunk.next side) lines := by
  -- on the lines still to come; the section and the hunk in progress change with every line
  induction lines generalizing scan part hunk with
  | nil =>
    have hdone : hunk.isDone = true := hunk.isDone_iff.2 hleft
    refine ⟨part.resume hunk, h, part.runs, [], ?_, fun _ => rfl⟩
    simp [DiffSection.resume, hdone]
  | cons line lines ih =>
    have hopen : ∀ side, line.standsIn side = true → hunk.left side ≠ 0 := by
      intro side hstands
      rw [hleft side, List.countP_cons_of_pos hstands]
      omega
    obtain ⟨side, hside⟩ := line.exists_standsIn
    have hunfinished : ¬ hunk.isDone = true := fun hdone => hopen side hside (hunk.isDone_iff.1 hdone side)
    have hcurrent : (part.resume hunk).openHunk = some hunk := if_neg hunfinished
    obtain ⟨next, runs, recorded, hbody, hpast, hrecorded⟩ :=
      DiffSection.body_line line.head?_chomp_text hopen (part.resume hunk) (scan.lineCount + 1)
    -- the hunk that was open is forgotten when the next one is set
    have hstep : (scan.step (Text.chomp line.text)).IsAt before
        (DiffSection.resume { part with runs := runs, changes := part.changes ++ recorded } next) := by
      have hbehind := h.step_body hcurrent (Text.chomp line.text)
      rw [hbody] at hbehind
      exact hbehind
    have hnext : ∀ side, next.left side = lines.countP (·.standsIn side) := by
      intro side
      have hpastLeft := hpast.left side
      rw [hleft side, List.countP_cons] at hpastLeft
      omega
    obtain ⟨behind, hbehind, runs', later, rfl, hlater⟩ := ih hstep hnext
    refine ⟨_, hbehind, runs', recorded ++ later, ?_, fun side => ?_⟩
    · simp only [List.append_assoc]
    · have hrest : changedLines side later = UnifiedLine.changedNumbers side (next.next side) lines :=
        hlater side
      show changedLines side (recorded ++ later) =
        UnifiedLine.changedNumbers side (hunk.next side) (line :: lines)
      rw [changedLines_append, hrecorded, hrest, UnifiedLine.changedNumbers_cons, hpast.next]

/-! ## §3. The hunks of a file. -/

theorem header_file {line : List Char} {paths : Option (String × String)}
    (hread : HeaderLine.read line = .file paths) (number : Nat) :
    (scan.header number line).IsAt scan.sections
      { firstLine := number, filePaths := paths, runs := scan.runs } := by
  rw [header, hread]
  exact ⟨rfl, rfl⟩

theorem IsAt.header_oldFile (h : scan.IsAt before part) {line : List Char} {path : Option String}
    (hread : HeaderLine.read line = .oldFile path) (hawaits : part.awaitsOldHeader = true) (number : Nat) :
    (scan.header number line).IsAt before (part.withOldFile path) := by
  rw [header, hread]
  simp only [h.current, if_pos hawaits]
  exact h.update _

theorem IsAt.header_newFile (h : scan.IsAt before part) {line : List Char} {path : Option String}
    (hread : HeaderLine.read line = .newFile path) (number : Nat) :
    (scan.header number line).IsAt before { part with newPath := path } := by
  rw [header, hread]
  exact h.update _

theorem IsAt.header_hunk (h : scan.IsAt before part) {line : List Char} {ranges : Option Hunk}
    (hread : HeaderLine.read line = .hunk ranges) (number : Nat) :
    (scan.header number line).IsAt before (part.withHunk number line ranges) := by
  rw [header, hread]
  simp only [h.current]
  exact h.update _

/-- No hunk is open, so that the next line is read as a header. -/
def Closed (scan : DiffScan) : Prop := ∀ part, scan.current = some part → part.openHunk = none

theorem IsAt.closed (h : scan.IsAt before part) (hpart : part.openHunk = none) : scan.Closed := by
  intro other hother
  rw [h.current, Option.some.injEq] at hother
  exact hother ▸ hpart

theorem Closed.step (h : scan.Closed) (line : List Char) :
    scan.step line = header { scan with lineCount := scan.lineCount + 1 } (scan.lineCount + 1) line := by
  cases hcurrent : scan.current with
  | none => simp only [DiffScan.step, hcurrent]
  | some part => simp only [DiffScan.step, hcurrent, h part hcurrent]

theorem IsAt.step_hunk (h : scan.IsAt before part) (hopen : part.openHunk = none) (hfault : part.fault = none)
    (hunk : UnifiedHunk) :
    (scan.step (Text.chomp hunk.ranges.text)).IsAt before
      (DiffSection.resume { part with hunks := part.hunks ++ [hunk.ranges] } (.start hunk.ranges)) := by
  have hpart : part.withHunk (scan.lineCount + 1) hunk.ranges.text (some hunk.ranges) =
      DiffSection.resume { part with hunks := part.hunks ++ [hunk.ranges] } (.start hunk.ranges) := by
    simp [DiffSection.withHunk, hfault]
  rw [(h.closed hopen).step, Hunk.chomp_text, ← hpart]
  exact (h.counted _).header_hunk hunk.read_header _

theorem IsAt.through_hunk (h : scan.IsAt before part) (hopen : part.openHunk = none)
    (hfault : part.fault = none) (hunk : UnifiedHunk) :
    ∃ behind, (scan.through hunk.texts).IsAt before behind
      ∧ part.Gains behind [hunk.ranges] hunk.changedNumbers := by
  have hleft : ∀ side, (OpenHunk.start hunk.ranges).left side = hunk.lines.countP (·.standsIn side) := by
    intro side
    cases side <;> rfl
  have hnext : ∀ side, (OpenHunk.start hunk.ranges).next side = hunk.start side := by
    intro side
    cases side <;> rfl
  obtain ⟨behind, hbehind, runs, recorded, rfl, hrecorded⟩ :=
    (h.step_hunk hopen hfault hunk).through_lines hleft
  refine ⟨_, hbehind, runs, recorded, ?_, fun side => ?_⟩
  · simp only [List.append_nil]
  · exact (hrecorded side).trans
      (congrArg (UnifiedLine.changedNumbers side · hunk.lines) (hnext side))

theorem IsAt.through_hunks (h : scan.IsAt before part) (hopen : part.openHunk = none)
    (hfault : part.fault = none) (hunks : List UnifiedHunk) :
    ∃ behind, (scan.through (hunks.flatMap UnifiedHunk.texts)).IsAt before behind
      ∧ part.Gains behind (hunks.map UnifiedHunk.ranges)
          fun side => hunks.flatMap (·.changedNumbers side) := by
  induction hunks generalizing scan part with
  | nil =>
    refine ⟨part, h, part.runs, [], ?_, fun _ => rfl⟩
    simp [← hopen]
  | cons hunk hunks ih =>
    obtain ⟨middle, hmiddle, hfirst⟩ := h.through_hunk hopen hfault hunk
    -- the next header is read as one only because the hunk before it is closed
    have hkept : middle.openHunk = none ∧ middle.fault = none := by
      obtain ⟨_, _, rfl, -⟩ := hfirst
      exact ⟨rfl, hfault⟩
    obtain ⟨behind, hbehind, hrest⟩ := ih hmiddle hkept.1 hkept.2
    rw [List.flatMap_cons, through_append]
    exact ⟨behind, hbehind, hfirst.trans hrest⟩

end DiffScan

/-! ## §4. Files. -/

/-- A section holds all of a written file. -/
structure DiffSection.Shows (part : DiffSection) (file : UnifiedFile) : Prop where
  openHunk : part.openHunk = none
  fault : part.fault = none
  hasOldHeader : part.hasOldHeader = true
  oldPath : part.oldPath = some file.path
  newPath : part.newPath = some file.path
  hunks : part.hunks = file.hunks.map UnifiedHunk.ranges
  changes : ∀ side, changedLines side part.changes = file.changedNumbers side

namespace DiffScan

variable {scan : DiffScan}

/-- The three header lines start a section and give it both paths. -/
theorem Closed.through_header (h : scan.Closed) (file : UnifiedFile) :
    ∃ firstLine paths,
      (scan.through [file.firstText, file.oldText, file.newText]).IsAt scan.sections
        { firstLine := firstLine, filePaths := paths, hasOldHeader := true, oldPath := some file.path,
          newPath := some file.path, runs := scan.runs } := by
  obtain ⟨paths, hpaths⟩ := file.read_firstText
  have hfirst : Text.chomp file.firstText = file.firstText := file.chomp_append_path _
  have hold : Text.chomp file.oldText = file.oldText := file.chomp_append_path _
  have hnew : Text.chomp file.newText = file.newText := file.chomp_append_path _
  have hstarted : (scan.step file.firstText).IsAt scan.sections
      { firstLine := scan.lineCount + 1, filePaths := paths, runs := scan.runs } := by
    rw [h.step]
    exact header_file hpaths _
  have holdFile : ((scan.step file.firstText).step file.oldText).IsAt scan.sections
      (DiffSection.withOldFile { firstLine := scan.lineCount + 1, filePaths := paths, runs := scan.runs }
        (some file.path)) := by
    rw [(hstarted.closed rfl).step]
    exact (hstarted.counted _).header_oldFile file.read_oldText rfl _
  refine ⟨scan.lineCount + 1, paths, ?_⟩
  rw [through_cons, through_cons, through_cons, hfirst, hold, hnew]
  show (DiffScan.step _ file.newText).IsAt _ _
  rw [(holdFile.closed rfl).step]
  exact (holdFile.counted _).header_newFile file.read_newText _

theorem Closed.through_file (h : scan.Closed) (file : UnifiedFile) :
    ∃ part, (scan.through file.texts).IsAt scan.sections part ∧ part.Shows file := by
  obtain ⟨firstLine, paths, hheader⟩ := h.through_header file
  obtain ⟨part, hpart, runs, recorded, rfl, hrecorded⟩ := hheader.through_hunks rfl rfl file.hunks
  rw [← through_append] at hpart
  exact ⟨_, hpart, rfl, rfl, rfl, rfl, rfl, rfl, hrecorded⟩

/-- Each file adds one section, which holds it. -/
theorem Closed.through_files (h : scan.Closed) (files : List UnifiedFile) :
    ∃ parts, (scan.through (files.flatMap UnifiedFile.texts)).sections = scan.sections ++ parts
      ∧ (scan.through (files.flatMap UnifiedFile.texts)).Closed
      ∧ List.Forall₂ DiffSection.Shows parts files := by
  induction files generalizing scan with
  | nil => exact ⟨[], (List.append_nil _).symm, h, .nil⟩
  | cons file files ih =>
    obtain ⟨part, hpart, hshows⟩ := h.through_file file
    obtain ⟨parts, hparts, hclosed, hall⟩ := ih (hpart.closed hshows.openHunk)
    rw [List.flatMap_cons, through_append]
    refine ⟨part :: parts, ?_, hclosed, .cons hshows hall⟩
    rw [hparts, hpart.sections, List.append_assoc, List.singleton_append]

theorem Closed.finish (h : scan.Closed) : scan.finish = scan.sections := by
  cases hcurrent : scan.current with
  | none => simp [DiffScan.finish, update, sections, hcurrent]
  | some part => simp [DiffScan.finish, update, sections, hcurrent, h part hcurrent]

end DiffScan

/-- A file of a diff is what a written file says. -/
structure FileDiff.Reads (diff : FileDiff) (file : UnifiedFile) : Prop where
  oldPath : diff.oldPath = some file.path
  newPath : diff.newPath = some file.path
  hunks : diff.hunks = file.hunks.map UnifiedHunk.ranges
  deleted : diff.blocks.flatMap (·.deleted) = file.changedNumbers .old
  added : diff.blocks.flatMap (·.added) = file.changedNumbers .new

theorem DiffSection.Shows.exists_toFile {part : DiffSection} {file : UnifiedFile} (h : part.Shows file) :
    ∃ diff, part.toFile {} = .ok diff ∧ diff.Reads file := by
  obtain ⟨blocks, hblocks, hlines⟩ := BlockDiff.exists_ofChanges part.changes
  refine ⟨⟨some file.path, some file.path, part.revisions.map Prod.fst, part.revisions.map Prod.snd,
    part.hunks, blocks⟩, ?_, ⟨rfl, rfl, h.hunks, ?_, ?_⟩⟩
  · simp only [DiffSection.toFile, h.fault, h.hasOldHeader, h.oldPath, h.newPath]
    exact bind_eq_ok_iff.2 ⟨blocks, hblocks, rfl⟩
  · exact (hlines .old).trans (h.changes .old)
  · exact (hlines .new).trans (h.changes .new)

theorem exists_map_toFile {parts : List DiffSection} {files : List UnifiedFile}
    (h : List.Forall₂ DiffSection.Shows parts files) :
    ∃ diffs : List FileDiff, parts.map (DiffSection.toFile {}) = diffs.map .ok
      ∧ List.Forall₂ FileDiff.Reads diffs files := by
  induction h with
  | nil => exact ⟨[], rfl, .nil⟩
  | cons hpart _ ih =>
    obtain ⟨diff, hdiff, hreads⟩ := hpart.exists_toFile
    obtain ⟨diffs, hdiffs, hall⟩ := ih
    refine ⟨diff :: diffs, ?_, .cons hreads hall⟩
    rw [List.map_cons, List.map_cons, hdiff, hdiffs]

/-- Every written diff is read, without sources, as one file for each of its files and in their order:
    with the path on both sides, the ranges of the hunks, and the numbers of the deleted and inserted lines. -/
theorem FileDiff.parse_render (files : List UnifiedFile) :
    ∃ diffs : List FileDiff, FileDiff.parse (UnifiedFile.render files) {} = diffs.map .ok
      ∧ List.Forall₂ FileDiff.Reads diffs files := by
  have hempty : DiffScan.Closed {} := by
    intro part hpart
    cases hpart
  obtain ⟨parts, hparts, hclosed, hshows⟩ := hempty.through_files files
  have hrun : DiffScan.run (Text.lines (UnifiedFile.render files).toList) = parts := by
    rw [UnifiedFile.lines_render]
    exact hclosed.finish.trans hparts
  rw [FileDiff.parse, hrun]
  exact exists_map_toFile hshows

/-- A file whose path holds a separator of paths and whose lines look like headers. -/
def lookalikes : UnifiedFile where
  path := "x b/y"
  hunks :=
    [{ start := fun _ => 3
       lines :=
        [⟨none, "diff --git a/z b/z", by decide⟩, ⟨some .old, "-- a/z", by decide⟩,
          ⟨some .new, "++ b/z", by decide⟩, ⟨some .old, "@@ -1,1 +1,1 @@", by decide⟩]
       fits := by
        intro side
        cases side <;> decide }]
  nonempty := by decide
  noTab := by decide
  oneLine := by decide
  noBlankEnd := by
    intro last hlast
    obtain rfl : 'y' = last := Option.some.inj hlast
    decide

theorem FileDiff.parse_render_lookalikes :
    UnifiedFile.render [lookalikes] =
        "diff --git a/x b/y b/x b/y\n--- a/x b/y\n+++ b/x b/y\n@@ -3,3 +3,2 @@\n" ++
          " diff --git a/z b/z\n--- a/z\n+++ b/z\n-@@ -1,1 +1,1 @@\n"
      ∧ lookalikes.changedNumbers .old = [4, 5] ∧ lookalikes.changedNumbers .new = [4]
      ∧ ∃ diffs : List FileDiff, FileDiff.parse (UnifiedFile.render [lookalikes]) {} = diffs.map .ok
        ∧ List.Forall₂ FileDiff.Reads diffs [lookalikes] :=
  ⟨by decide +kernel, by decide +kernel, by decide +kernel, FileDiff.parse_render [lookalikes]⟩

end PatchPresence
