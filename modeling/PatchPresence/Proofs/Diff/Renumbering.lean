/-
  PatchPresence.Proofs.Diff.Renumbering — numbers of lines and runs are carried along and never looked at.

  A scan writes down the numbers of lines and compares none of them. So it commutes with every renumbering: if
  lines are counted differently, sections are the same but for their places in the diff, files are the same
  throughout, and an error names the new number of its line. Runs are counted through all sections, and their
  numbers are compared within a section only, so that a count which starts elsewhere makes no difference to
  files. Sections that are behind play no part either.

  Main results:
    * `DiffScan.step_renumber`, `DiffScan.foldl_step_renumber` — a line, and every list of lines, does the same
      to a renumbered scan.
    * `DiffScan.foldl_step_eq_renumber` — only the numbers of lines that were read can be told apart.
    * `DiffSection.toFile_renumber` — a renumbered section makes the same file, or the same error elsewhere.
-/
import PatchPresence.Proofs.Collections
import PatchPresence.Proofs.Diff.Scan
import PatchPresence.Proofs.Outcome

namespace PatchPresence

/-! ## §1. Sections. -/

/-- A changed line with another place in the diff, behind other runs. -/
def LineChange.renumber (f : Nat → Nat) (shift : Nat) (change : LineChange) : LineChange :=
  { change with diffLine := f change.diffLine, run := shift + change.run }

namespace DiffSection

/-- A section with other places in the diff, behind other runs. -/
def renumber (f : Nat → Nat) (shift : Nat) (part : DiffSection) : DiffSection :=
  { part with
    firstLine := f part.firstLine
    changes := part.changes.map (LineChange.renumber f shift)
    runs := shift + part.runs
    fault := part.fault.map fun fault => (f fault.1, fault.2) }

variable (f : Nat → Nat) (shift : Nat) (part : DiffSection)

theorem fail_renumber (number : Nat) (fault : DiffFault) :
    (part.renumber f shift).fail (f number) fault = (part.fail number fault).renumber f shift := by
  unfold fail renumber
  cases part.fault with
  | none => rfl
  | some first => rfl

theorem resume_renumber (hunk : OpenHunk) :
    (part.renumber f shift).resume hunk = (part.resume hunk).renumber f shift := rfl

theorem change_renumber (hunk : OpenHunk) (number : Nat) (side : Side) :
    (part.renumber f shift).change hunk (f number) side = (part.change hunk number side).renumber f shift := by
  unfold change
  cases hunk.change? side with
  | none => exact part.fail_renumber f shift number _
  | some found =>
    have hrun : (if hunk.inRun then shift + part.runs else shift + part.runs + 1)
        = shift + if hunk.inRun then part.runs else part.runs + 1 := by split <;> rfl
    simp only [resume, renumber, List.map_append, List.map_cons, List.map_nil, LineChange.renumber, hrun]

theorem body_renumber (hunk : OpenHunk) (number : Nat) (line : List Char) :
    (part.renumber f shift).body hunk (f number) line = (part.body hunk number line).renumber f shift := by
  unfold body
  split
  · rfl
  · cases hunk.context? with
    | none => exact part.fail_renumber f shift number _
    | some next => exact part.resume_renumber f shift next
  · cases hunk.context? with
    | none => exact part.fail_renumber f shift number _
    | some next => exact part.resume_renumber f shift next
  · exact part.change_renumber f shift hunk number .old
  · exact part.change_renumber f shift hunk number .new
  · exact part.fail_renumber f shift number _

theorem withHunk_renumber (number : Nat) (line : List Char) (ranges : Option Hunk) :
    (part.renumber f shift).withHunk (f number) line ranges
      = (part.withHunk number line ranges).renumber f shift := by
  have hfault : (part.renumber f shift).fault.isSome = part.fault.isSome := Option.isSome_map
  unfold withHunk
  rw [hfault]
  split
  · rfl
  · cases ranges with
    | none => exact part.fail_renumber f shift number _
    | some hunk => rfl

end DiffSection

/-! ## §2. Scans. -/

namespace DiffScan

/-- A scan behind other sections and runs that has counted `count` lines and numbered them by `f`. -/
def renumber (before : List DiffSection) (f : Nat → Nat) (shift count : Nat) (scan : DiffScan) : DiffScan :=
  ⟨before ++ scan.done.map (DiffSection.renumber f shift), scan.current.map (DiffSection.renumber f shift),
    count⟩

variable (before : List DiffSection) (f : Nat → Nat) (shift count : Nat) (scan : DiffScan)

theorem sections_renumber :
    (scan.renumber before f shift count).sections
      = before ++ scan.sections.map (DiffSection.renumber f shift) := by
  unfold sections renumber
  cases scan.current <;> simp

theorem update_renumber {change change' : DiffSection → DiffSection}
    (h : ∀ part : DiffSection, change' (part.renumber f shift) = (change part).renumber f shift) :
    (scan.renumber before f shift count).update change'
      = (scan.update change).renumber before f shift count := by
  unfold update renumber
  simp only [Option.map_map, Function.comp_def, h]

theorem start_renumber (part : DiffSection) :
    (scan.renumber before f shift count).start (part.renumber f shift)
      = (scan.start part).renumber before f shift count := by
  unfold start
  rw [sections_renumber]
  rfl

variable {shift scan} in
/-- The count of runs goes on from the current section; before the first section it is zero. -/
theorem runs_renumber (h : scan.current.isSome = true ∨ shift = 0) :
    (scan.renumber before f shift count).runs = shift + scan.runs := by
  have hcurrent : (scan.renumber before f shift count).current
      = scan.current.map (DiffSection.renumber f shift) := rfl
  unfold runs
  rw [hcurrent]
  cases hpart : scan.current with
  | some part => rfl
  | none =>
    rcases h with hsome | rfl
    · rw [hpart] at hsome
      cases hsome
    · rfl

variable {shift scan} in
theorem header_renumber (h : scan.current.isSome = true ∨ shift = 0) (number : Nat) (line : List Char) :
    (scan.renumber before f shift count).header (f number) line
      = (scan.header number line).renumber before f shift count := by
  have hcurrent : (scan.renumber before f shift count).current
      = scan.current.map (DiffSection.renumber f shift) := rfl
  unfold header
  rw [runs_renumber before f count h]
  cases HeaderLine.read line with
  | file paths =>
    exact scan.start_renumber before f shift count
      { firstLine := number, filePaths := paths, runs := scan.runs }
  | oldFile path =>
    have hstart := scan.start_renumber before f shift count
      (DiffSection.withOldFile { firstLine := number, runs := scan.runs } path)
    cases hpart : scan.current with
    | none =>
      simp only [hcurrent, hpart, Option.map_none]
      exact hstart
    | some part =>
      have hawaits : (part.renumber f shift).awaitsOldHeader = part.awaitsOldHeader := rfl
      simp only [hcurrent, hpart, Option.map_some, hawaits]
      split
      · exact scan.update_renumber before f shift count fun _ => rfl
      · exact hstart
  | newFile path => exact scan.update_renumber before f shift count fun _ => rfl
  | revisions range =>
    cases range with
    | none => rfl
    | some range => exact scan.update_renumber before f shift count fun _ => rfl
  | hunk ranges =>
    cases hpart : scan.current with
    | none =>
      simp only [hcurrent, hpart, Option.map_none]
      rw [← start_renumber, ← DiffSection.withHunk_renumber]
      rfl
    | some part =>
      simp only [hcurrent, hpart, Option.map_some]
      exact scan.update_renumber before f shift count fun part =>
        part.withHunk_renumber f shift number line ranges
  | other => rfl

theorem Closed.renumber {scan : DiffScan} (h : scan.Closed) :
    (scan.renumber before f shift count).Closed := by
  intro part hpart
  obtain ⟨old, hold, rfl⟩ := Option.map_eq_some_iff.1 hpart
  exact h old hold

theorem lineCount_header (number : Nat) (line : List Char) :
    (scan.header number line).lineCount = scan.lineCount := by
  unfold header
  cases HeaderLine.read line with
  | file => rfl
  | oldFile =>
    dsimp only
    split
    · split <;> rfl
    · rfl
  | newFile => rfl
  | revisions range => cases range <;> rfl
  | hunk =>
    dsimp only
    split <;> rfl
  | other => rfl

theorem lineCount_step (line : List Char) : (scan.step line).lineCount = scan.lineCount + 1 := by
  unfold step
  dsimp only
  split
  · split
    · rfl
    · exact lineCount_header _ _ _
  · exact lineCount_header _ _ _

theorem lineCount_foldl (lines : List (List Char)) :
    (lines.foldl step scan).lineCount = scan.lineCount + lines.length := by
  induction lines generalizing scan with
  | nil => rfl
  | cons line lines ih =>
    rw [List.foldl_cons, ih, lineCount_step, List.length_cons]
    omega

/-- A scan has counted the lines that it has read. -/
theorem lineCount_foldl_empty (lines : List (List Char)) : (lines.foldl step {}).lineCount = lines.length := by
  rw [lineCount_foldl]
  exact Nat.zero_add _

theorem isSome_current_header {scan : DiffScan} (h : scan.current.isSome = true) (number : Nat)
    (line : List Char) : (scan.header number line).current.isSome = true := by
  have hupdate : ∀ change, (scan.update change).current.isSome = true := by
    intro change
    rwa [update, Option.isSome_map]
  unfold header
  cases HeaderLine.read line with
  | file => rfl
  | oldFile =>
    dsimp only
    split
    · split
      · exact hupdate _
      · rfl
    · rfl
  | newFile => exact hupdate _
  | revisions range =>
    cases range with
    | none => exact h
    | some range => exact hupdate _
  | hunk =>
    dsimp only
    split
    · exact hupdate _
    · rfl
  | other => exact h

/-- A section that is begun is there until another one begins. -/
theorem isSome_current_step {scan : DiffScan} (h : scan.current.isSome = true) (line : List Char) :
    (scan.step line).current.isSome = true := by
  by_cases hclosed : scan.Closed
  · rw [hclosed.step]
    have hcounted : ({ scan with lineCount := scan.lineCount + 1 } : DiffScan).current.isSome = true := h
    exact isSome_current_header hcounted _ line
  · obtain ⟨part, hunk, hcurrent, hopen⟩ := exists_of_not_closed hclosed
    rw [step_of_open hcurrent hopen, update, Option.isSome_map]
    exact h

variable {shift scan}

/-- A line does the same to a scan that counts it under another number. -/
theorem step_renumber (h : scan.current.isSome = true ∨ shift = 0)
    (hnumber : f (scan.lineCount + 1) = count + 1) (line : List Char) :
    (scan.renumber before f shift count).step line
      = (scan.step line).renumber before f shift (count + 1) := by
  have hcount : (scan.renumber before f shift count).lineCount + 1 = f (scan.lineCount + 1) := hnumber.symm
  by_cases hclosed : scan.Closed
  · have hheader := @header_renumber before f shift (count + 1) { scan with lineCount := scan.lineCount + 1 } h
      (scan.lineCount + 1) line
    rw [hclosed.step, (hclosed.renumber before f shift count).step, hcount, ← hnumber]
    rw [← hnumber] at hheader
    exact hheader
  · obtain ⟨part, hunk, hcurrent, hopen⟩ := exists_of_not_closed hclosed
    have hrenumbered : (scan.renumber before f shift count).current = some (part.renumber f shift) :=
      congrArg (Option.map (DiffSection.renumber f shift)) hcurrent
    rw [step_of_open hcurrent hopen, step_of_open hrenumbered hopen, hcount, ← hnumber]
    exact update_renumber before f shift _ { scan with lineCount := scan.lineCount + 1 } fun part =>
      part.body_renumber f shift hunk (scan.lineCount + 1) line

/-- So does every list of lines, when the lines behind it are numbered from the count on. -/
theorem foldl_step_renumber (h : scan.current.isSome = true ∨ shift = 0) {lines : List (List Char)}
    (hnumber : ∀ n < lines.length, f (scan.lineCount + 1 + n) = count + 1 + n) :
    lines.foldl step (scan.renumber before f shift count)
      = (lines.foldl step scan).renumber before f shift (count + lines.length) := by
  induction lines generalizing scan count with
  | nil => rfl
  | cons line lines ih =>
    -- the first line moves both counts by one, so the numbers still agree from there on
    rw [List.foldl_cons, List.foldl_cons, step_renumber before f count h (hnumber 0 (Nat.succ_pos _)), ih]
    · rw [List.length_cons, Nat.add_assoc, Nat.add_comm 1]
    · exact h.imp_left fun hsome => isSome_current_step hsome line
    · intro n hn
      have hnext := hnumber (n + 1) (Nat.succ_lt_succ hn)
      rw [lineCount_step]
      rwa [Nat.add_comm n, ← Nat.add_assoc, ← Nat.add_assoc] at hnext

/-- A renumbering that leaves the lines of a diff alone leaves its scan alone. -/
theorem foldl_step_eq_renumber {lines : List (List Char)} (h : ∀ n < lines.length, f (n + 1) = n + 1) :
    lines.foldl step {} = (lines.foldl step {}).renumber [] f 0 lines.length := by
  have hempty : ({} : DiffScan) = renumber [] f 0 0 {} := rfl
  have hnumber : ∀ n < lines.length, f (lineCount {} + 1 + n) = 0 + 1 + n := by
    intro n hn
    rw [Nat.zero_add, Nat.add_comm 1]
    exact h n hn
  conv => lhs; rw [hempty, foldl_step_renumber [] f 0 (.inr rfl) hnumber, Nat.zero_add]

theorem finish_renumber (h : scan.Closed ∨ f scan.lineCount = count) :
    (scan.renumber before f shift count).finish
      = before ++ scan.finish.map (DiffSection.renumber f shift) := by
  rcases h with hclosed | hcount
  -- the last number is needed only for a hunk that the text leaves open
  · rw [hclosed.finish, (hclosed.renumber before f shift count).finish, sections_renumber]
  · unfold finish
    rw [← sections_renumber before f shift count]
    congr 1
    apply update_renumber
    intro part
    have hopen : (part.renumber f shift).openHunk = part.openHunk := rfl
    have hlast : (scan.renumber before f shift count).lineCount = f scan.lineCount := hcount.symm
    rw [hopen, hlast]
    split
    · exact part.fail_renumber f shift scan.lineCount .unfinishedHunk
    · rfl

end DiffScan

/-! ## §3. Files. -/

/-- An error with another place in the diff. -/
def AnalysisError.renumber (f : Nat → Nat) : AnalysisError → AnalysisError
  | .malformedDiff line fault => .malformedDiff (f line) fault
  | error => error

section Files

variable (f : Nat → Nat) (shift : Nat)

theorem LineChange.place_renumber (tree : Option SyntaxTree) (change : LineChange) :
    (change.renumber f shift).place tree = (change.place tree).mapError (AnalysisError.renumber f) := by
  unfold LineChange.place
  cases tree with
  | none => rfl
  | some tree =>
    show (if change.line = 0 || tree.lineCount < change.line then _ else _) = _
    dsimp only
    split
    · rfl
    · rfl

theorem segments_renumber (changes : List LineChange) (side : Side) (tree : Option SyntaxTree) :
    segments (changes.map (LineChange.renumber f shift)) side tree =
      (segments changes side tree).mapError (AnalysisError.renumber f) := by
  unfold segments
  have hside : (changes.map (LineChange.renumber f shift)).filter (·.side = side) =
      (changes.filter (·.side = side)).map (LineChange.renumber f shift) := by
    rw [List.filter_map]
    rfl
  rw [hside, mapM_map_mapError _ (LineChange.place_renumber f shift tree), mapError_bind]
  rfl

theorem BlockDiff.ofRun_renumber (pre post : Option SyntaxTree) (changes : List LineChange) :
    ofRun pre post (changes.map (LineChange.renumber f shift)) =
      (ofRun pre post changes).mapError (AnalysisError.renumber f) := by
  unfold ofRun
  rw [segments_renumber, segments_renumber, mapError_bind]
  congr 1
  funext deletions
  rw [mapError_bind]
  rfl

theorem BlockDiff.ofChanges_renumber (pre post : Option SyntaxTree) (changes : List LineChange) :
    ofChanges pre post (changes.map (LineChange.renumber f shift)) =
      (ofChanges pre post changes).mapError (AnalysisError.renumber f) := by
  unfold ofChanges
  have hsame : ∀ a b : LineChange,
      ((a.renumber f shift).run == (b.renumber f shift).run) = (a.run == b.run) := by
    intro a b
    simp [LineChange.renumber]
  rw [splitBy_map (s := fun a b => a.run == b.run) hsame,
    mapM_map_mapError _ (BlockDiff.ofRun_renumber f shift pre post), mapError_bind]
  rfl

/-- A renumbered section makes the same file, or the same error at the new number of its line. The numbers of
    its runs are not found in either. -/
theorem DiffSection.toFile_renumber (sources : SourceLookup) (part : DiffSection) :
    (part.renumber f shift).toFile sources = (part.toFile sources).mapError (AnalysisError.renumber f) := by
  unfold DiffSection.toFile
  cases hfault : part.fault with
  | some fault =>
    simp only [renumber, hfault, Option.map_some]
    rfl
  | none =>
    simp only [renumber, hfault, Option.map_none]
    generalize (if part.hasOldHeader then part.oldPath else part.filePaths.map Prod.fst) = oldPath
    generalize (if part.hasOldHeader then part.newPath else part.filePaths.map Prod.snd) = newPath
    split
    · rfl
    · rw [BlockDiff.ofChanges_renumber, mapError_bind]
      rfl

end Files

namespace FileDiff

/-- Files of a diff given by its lines. -/
def ofLines (lines : List (List Char)) (sources : SourceLookup) : List (Outcome FileDiff) :=
  (DiffScan.run lines).map (DiffSection.toFile sources)

/-- Files of a text given by its characters. A text that is written out is one without being encoded first. -/
theorem parse_ofList (text : List Char) (sources : SourceLookup) :
    parse (String.ofList text) sources = ofLines (Text.lines text) sources := by
  rw [parse, String.toList_ofList, ofLines]

theorem ofLines_of_run_eq {lines other : List (List Char)} {f : Nat → Nat} {shift : Nat}
    (h : DiffScan.run lines = (DiffScan.run other).map (DiffSection.renumber f shift)) (sources : SourceLookup) :
    ofLines lines sources = (ofLines other sources).map (Except.mapError (AnalysisError.renumber f)) := by
  rw [ofLines, ofLines, h, List.map_map, List.map_map]
  congr 1
  funext part
  exact part.toFile_renumber f shift sources

end FileDiff

end PatchPresence
