/-
  PatchPresence.Proofs.Diff.Independence — the files of a diff are read apart from each other.

  Reading a diff behind other lines makes three differences: sections stand behind those that were there, lines
  of the diff have higher numbers, and so do the runs of changed lines, which are counted on from one section to
  the next. Both are ways of renumbering. So a scan that starts afresh and one that goes on behind a whole file
  stay in step. They come into step at the first line of a file, since that line asks nothing of what is before
  it but the two counts and that no hunk is open.

  Main results:
    * `DiffScan.Closed.begins_file` — the first line of a file starts a section as the first line of a diff does.
    * `DiffSection.toFile_behind` — a section behind other lines makes the same file, or the same error with
      a higher line number.
    * `FileDiff.parse_append` — the files of a diff in two parts are those of the parts.
-/
import PatchPresence.Proofs.Diff.Renumbering

namespace PatchPresence

/-! ## §1. Sections behind other lines. -/

namespace DiffSection

/-- A section with its places in the diff behind other lines and its runs behind other runs. -/
def behind (count shift : Nat) (part : DiffSection) : DiffSection := part.renumber (count + ·) shift

variable (count shift : Nat) (part : DiffSection)

theorem fail_behind (number : Nat) (fault : DiffFault) :
    (part.behind count shift).fail (count + number) fault = (part.fail number fault).behind count shift :=
  part.fail_renumber (count + ·) shift number fault

theorem body_behind (hunk : OpenHunk) (number : Nat) (line : List Char) :
    (part.behind count shift).body hunk (count + number) line
      = (part.body hunk number line).behind count shift :=
  part.body_renumber (count + ·) shift hunk number line

theorem withHunk_behind (number : Nat) (line : List Char) (ranges : Option Hunk) :
    (part.behind count shift).withHunk (count + number) line ranges =
      (part.withHunk number line ranges).behind count shift :=
  part.withHunk_renumber (count + ·) shift number line ranges

end DiffSection

/-! ## §2. The scan behind other lines. -/

namespace DiffScan

/-- A scan behind other sections, other lines and other runs. -/
def behind (before : List DiffSection) (count shift : Nat) (scan : DiffScan) : DiffScan :=
  scan.renumber before (count + ·) shift (count + scan.lineCount)

variable (before : List DiffSection) (count shift : Nat) {scan : DiffScan}

/-- Lines do the same to a scan behind other sections and lines, once there is a section to count runs on. -/
theorem foldl_step_behind (h : scan.current.isSome = true) (lines : List (List Char)) :
    lines.foldl step (scan.behind before count shift)
      = (lines.foldl step scan).behind before count shift := by
  have hnumber : ∀ n < lines.length, count + (scan.lineCount + 1 + n) = count + scan.lineCount + 1 + n := by
    intro n _
    omega
  unfold behind
  rw [foldl_step_renumber before (count + ·) _ (.inl h) hnumber, lineCount_foldl, Nat.add_assoc]

theorem finish_behind :
    (scan.behind before count shift).finish = before ++ scan.finish.map (DiffSection.behind count shift) :=
  finish_renumber before (count + ·) (count + scan.lineCount) (.inr rfl)

/-- The line starts a section and is read as the first line of a diff is: of what is before it, only the number
    of lines and the number of runs are carried on. -/
structure Begins (scan : DiffScan) (line : List Char) : Prop where
  closed : scan.Closed
  fresh : (step {} line).current.isSome = true
  step : scan.step line = (step {} line).behind scan.sections scan.lineCount scan.runs

variable {line : List Char}

/-- The sections of a scan that begins one: those that it had, and those of the lines from there on. -/
theorem Begins.finish (h : scan.Begins line) (rest : List (List Char)) :
    ((line :: rest).foldl DiffScan.step scan).finish =
      scan.finish ++ (run (line :: rest)).map (DiffSection.behind scan.lineCount scan.runs) := by
  rw [List.foldl_cons, h.step, foldl_step_behind _ _ _ h.fresh, finish_behind, h.closed.finish]
  rfl

/-- The first line of a file starts a section, whatever the sections before it are. -/
theorem Closed.begins_file (h : scan.Closed) {paths : Option (String × String)}
    (hread : HeaderLine.read line = .file paths) : scan.Begins line where
  closed := h
  fresh := by
    rw [closed_empty.step, header, hread]
    rfl
  step := by
    rw [h.step, closed_empty.step, header, header, hread]
    unfold start sections DiffScan.behind DiffScan.renumber
    simp [DiffSection.renumber, runs]

/-- Sections of a diff whose second part starts with the first line of a file. -/
theorem run_append {front back : List (List Char)} (hclosed : (front.foldl step {}).Closed)
    {first : List Char} (hfirst : back.head? = some first) {paths : Option (String × String)}
    (hread : HeaderLine.read first = .file paths) :
    run (front ++ back)
      = run front ++ (run back).map (DiffSection.behind front.length (front.foldl step {}).runs) := by
  obtain ⟨rest, rfl⟩ := List.head?_eq_some_iff.1 hfirst
  have hfinish := (hclosed.begins_file hread).finish rest
  rw [lineCount_foldl_empty] at hfinish
  rw [run, List.foldl_append, hfinish]
  rfl

end DiffScan

/-! ## §3. Files behind other lines. -/

/-- An error with its place in the diff behind other lines. -/
def AnalysisError.behind (count : Nat) : AnalysisError → AnalysisError := renumber (count + ·)

/-- A section behind other lines makes the same file, or the same error with a higher line number. -/
theorem DiffSection.toFile_behind (count shift : Nat) (sources : SourceLookup) (part : DiffSection) :
    (part.behind count shift).toFile sources = (part.toFile sources).mapError (AnalysisError.behind count) :=
  part.toFile_renumber (count + ·) shift sources

/-- A diff in two parts: the first ends a line and leaves no hunk open, the second starts with the first line
    of a file. Its files are those of the first part and those of the second, each read as if its part stood
    alone; only the errors of the second part name lines that are further down. -/
theorem FileDiff.parse_append (front back : String) (sources : SourceLookup)
    (hend : front.toList.getLast? = some '\n')
    (hclosed : ((Text.lines front.toList).foldl DiffScan.step {}).Closed)
    (hfirst : ∃ first, (Text.lines back.toList).head? = some first ∧ "diff --git ".toList <+: first) :
    FileDiff.parse (front ++ back) sources = FileDiff.parse front sources
      ++ (FileDiff.parse back sources).map
          (Except.mapError (AnalysisError.behind (Text.lines front.toList).length)) := by
  obtain ⟨first, hhead, rest, hrest⟩ := hfirst
  have hread : HeaderLine.read first = .file (HeaderLine.filePaths rest) := by
    unfold HeaderLine.read
    rw [← hrest, Text.after?_append]
  unfold FileDiff.parse
  rw [String.toList_append, Text.lines_append hend, DiffScan.run_append hclosed hhead hread, List.map_append,
    List.map_map, List.map_map]
  congr 2
  funext part
  exact DiffSection.toFile_behind _ _ sources part

/-- A file with an unreadable hunk and one that has only its first line. -/
def FileDiff.brokenFront : String :=
  "--- a/X.java\n+++ b/X.java\n@@ -1 @@\n-old\ndiff --git a/Y.java b/Y.java\n"

/-- A file whose hunk holds a line that it does not allow. -/
def FileDiff.brokenBack : String :=
  "diff --git a/Z.java b/Z.java\n--- a/Z.java\n+++ b/Z.java\n@@ -1 +1 @@\n-old\nwhat\n"

theorem FileDiff.parse_append_broken :
    FileDiff.parse (brokenFront ++ brokenBack) {} = FileDiff.parse brokenFront {}
        ++ (FileDiff.parse brokenBack {}).map (Except.mapError (AnalysisError.behind 5))
      ∧ FileDiff.parse brokenBack {} = [.error (.malformedDiff 6 .bodyMismatch)]
      ∧ FileDiff.parse brokenFront {} = [.error (.malformedDiff 3 (.unreadableHeader "@@ -1 @@")),
        .ok ⟨some "Y.java", some "Y.java", none, none, [], []⟩] :=
  ⟨FileDiff.parse_append brokenFront brokenBack {} (by decide +kernel) (by decide +kernel)
      ⟨"diff --git a/Z.java b/Z.java".toList, by decide +kernel, by decide +kernel⟩,
    by decide +kernel, by decide +kernel⟩

end PatchPresence
