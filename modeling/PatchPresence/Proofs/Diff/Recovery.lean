/-
  PatchPresence.Proofs.Diff.Recovery — the files behind a file that is cut short.

  A line that does not fit its hunk is spent on the fault: it closes the hunk and is not read again as a header.
  So a hunk that ends too early takes the first line of the next file with it, and what that file says before
  its line `---` goes to the section that has failed. From there the scan is out of step with a scan of the
  next files alone, until a line starts a section for both. What both read from that line on is the same.

  Main results:
    * `DiffScan.exists_finish_of_related` — two scans read the same from the first line that starts a section
      for both.
    * `DiffScan.trails_step` — a scan that lost the first line of a file leaves the file where a scan that did
      not lose it does.
    * `FileDiff.parse_append_cut` — the files behind the next one are always read, and the next one is when
      nothing is recorded before its line `---`.
-/
import PatchPresence.Proofs.Diff.Accounting
import PatchPresence.Proofs.Diff.Headers
import PatchPresence.Proofs.Diff.Independence

namespace PatchPresence

/-! ## §1. Two scans of the same lines. -/

namespace DiffScan

variable {scan : DiffScan} {part : DiffSection} {line : List Char}

theorem Closed.begins_oldFile (h : scan.Closed) (hcurrent : scan.current = some part)
    (hawaits : part.awaitsOldHeader = false) {path : Option String}
    (hread : HeaderLine.read line = .oldFile path) : scan.Begins line where
  closed := h
  fresh := by
    rw [closed_empty.step, header, hread]
    rfl
  step := by
    rw [h.step, closed_empty.step, header, header, hread]
    simp only [hcurrent, hawaits, Bool.false_eq_true, if_false]
    unfold start sections DiffScan.behind DiffScan.renumber
    simp [DiffSection.renumber, DiffSection.withOldFile, runs, hcurrent]

/-- Two scans that stay related until a line begins a section for both read the same from that line on. -/
theorem exists_finish_of_related {R : DiffScan → DiffScan → Prop}
    (hstep : ∀ a b line, R a b → (a.Begins line ∧ b.Begins line) ∨ R (a.step line) (b.step line))
    (lines : List (List Char)) {a b : DiffScan} (h : R a b) :
    ∃ a' b' later, R a' b'
      ∧ (lines.foldl step a).finish = a'.finish ++ (run later).map (DiffSection.behind a'.lineCount a'.runs)
      ∧ (lines.foldl step b).finish = b'.finish ++ (run later).map (DiffSection.behind b'.lineCount b'.runs) := by
  induction lines generalizing a b with
  | nil => exact ⟨a, b, [], h, (List.append_nil _).symm, (List.append_nil _).symm⟩
  | cons line lines ih =>
    rcases hstep a b line h with ⟨ha, hb⟩ | hrelated
    · exact ⟨a, b, line :: lines, h, ha.finish lines, hb.finish lines⟩
    · exact ih hrelated

end DiffScan

/-! ## §2. A scan that lost the first line of a file. -/

namespace DiffSection

/-- The section that lines go to when the first line of a file was lost, beside the section of the file: it is
    inside a hunk only when the file is inside the same hunk. -/
structure Trails (cut part : DiffSection) : Prop where
  whole : part.fault = none
  apart : cut.awaitsOldHeader = false
  hunk : cut.openHunk = none ∨ cut.openHunk = part.openHunk

variable {cut part : DiffSection}

theorem openHunk_body (h : cut.openHunk = part.openHunk) (hunk : OpenHunk) (number number' : Nat)
    (line : List Char) : (cut.body hunk number line).openHunk = (part.body hunk number' line).openHunk := by
  have hchange : ∀ side, (cut.change hunk number side).openHunk = (part.change hunk number' side).openHunk := by
    intro side
    unfold change
    cases hunk.change? side <;> rfl
  unfold body
  split
  · exact h
  · cases hunk.context? <;> rfl
  · cases hunk.context? <;> rfl
  · exact hchange .old
  · exact hchange .new
  · rfl

theorem Trails.body (h : cut.Trails part) {hunk : OpenHunk} (hsame : cut.openHunk = part.openHunk)
    (number number' : Nat) (line : List Char) (hwhole : (part.body hunk number' line).fault = none) :
    (cut.body hunk number line).Trails (part.body hunk number' line) where
  whole := hwhole
  apart := (awaitsOldHeader_body hunk number line).trans h.apart
  hunk := .inr (openHunk_body hsame hunk number number' line)

/-- The header of a hunk opens it in both sections, or in that of the file alone. -/
theorem openHunk_heard (h : cut.openHunk = none) (hwhole : part.fault = none) (number number' : Nat)
    (line : List Char) :
    (cut.heard number line).openHunk = none
      ∨ (cut.heard number line).openHunk = (part.heard number' line).openHunk := by
  unfold heard
  split
  · exact .inl h
  · exact .inl h
  · next ranges _ =>
    cases hfault : cut.fault.isSome with
    | true =>
      rw [withHunk_of_fault hfault]
      exact .inl h
    | false =>
      right
      cases ranges with
      | none => simp [withHunk, hfault, hwhole, fail]
      | some hunk => simp [withHunk, hfault, hwhole, resume]
  · exact .inl h

theorem Trails.heard (h : cut.Trails part) (hcut : cut.openHunk = none) (number number' : Nat)
    (line : List Char) (hwhole : (part.heard number' line).fault = none) :
    (cut.heard number line).Trails (part.heard number' line) where
  whole := hwhole
  apart := awaitsOldHeader_heard h.apart number line
  hunk := openHunk_heard hcut h.whole number number' line

end DiffSection

namespace DiffScan

/-- A scan that goes on behind other sections without the first line of a file, beside a scan of the file. -/
def Trails (joined alone : DiffScan) : Prop :=
  ∃ before cut part, joined.IsAt before cut ∧ alone.IsAt [] part ∧ cut.Trails part

variable {joined alone : DiffScan}

/-- A scan that goes on behind a cut file stays with a scan of the next file alone until both leave it, unless
    that file has a fault itself. -/
theorem trails_step (h : joined.Trails alone) (line : List Char) :
    (joined.Begins line ∧ alone.Begins line) ∨ (joined.step line).Trails (alone.step line)
      ∨ (alone.step line).Faulted := by
  obtain ⟨before, cut, part, hcut, hpart, htrails⟩ := h
  cases hopen : part.openHunk with
  | some hunk =>
    have hbody := hpart.step_body hopen line
    by_cases hwhole : (part.body hunk (alone.lineCount + 1) line).fault = none
    · right; left
      rcases htrails.hunk with hclosed | hsame
      · -- lines of the file's hunk are read as headers here, and fit a hunk there
        have hfits : ∀ sign ∉ ['\\', ' ', '-', '+'], line.head? ≠ some sign := by
          intro sign hmisfit hsign
          rw [DiffSection.body_of_misfit hsign hmisfit] at hwhole
          cases hwhole
        obtain ⟨before', cut', hcut', hclosed', hawaits'⟩ := hcut.step_apart hclosed htrails.apart
          (fun paths hread => hfits _ (by decide) (HeaderLine.head?_of_read_file hread))
          (fun ranges hread => hfits _ (by decide) (HeaderLine.head?_of_read_hunk hread))
        exact ⟨before', cut', _, hcut', hbody, hwhole, hawaits', .inl hclosed'⟩
      · have hcutBody := hcut.step_body (hsame.trans hopen) line
        exact ⟨before, _, _, hcutBody, hbody, htrails.body hsame _ _ line hwhole⟩
    · exact .inr (.inr (Faulted.of_isAt hbody hwhole))
  | none =>
    have hclosed : cut.openHunk = none := by
      rcases htrails.hunk with hclosed | hsame
      · exact hclosed
      · exact hsame.trans hopen
    cases hread : HeaderLine.read line with
    | file paths =>
      exact .inl ⟨(hcut.closed hclosed).begins_file hread, (hpart.closed hopen).begins_file hread⟩
    | oldFile path =>
      cases hawaits : part.awaitsOldHeader with
      | false =>
        exact .inl ⟨(hcut.closed hclosed).begins_oldFile hcut.current htrails.apart hread,
          (hpart.closed hopen).begins_oldFile hpart.current hawaits hread⟩
      | true =>
        -- the file goes on with the path of its old file, the other scan starts a section with it
        have hfile : ∀ paths, HeaderLine.read line ≠ .file paths := by simp [hread]
        have hhunk : ∀ ranges, HeaderLine.read line ≠ .hunk ranges := by simp [hread]
        obtain ⟨before', cut', hcut', hclosed', hawaits'⟩ :=
          hcut.step_apart hclosed htrails.apart hfile hhunk
        have holdFile : (alone.step line).IsAt [] (part.withOldFile path) := by
          rw [(hpart.closed hopen).step]
          exact (hpart.counted _).header_oldFile hread hawaits _
        exact .inr (.inl ⟨before', cut', _, hcut', holdFile, htrails.whole, hawaits', .inl hclosed'⟩)
    | _ =>
      have hstarts : (HeaderLine.read line).startsSection = false := by rw [hread]; rfl
      have hheard := hpart.step_heard hopen hstarts
      by_cases hwhole : (part.heard (alone.lineCount + 1) line).fault = none
      · exact .inr (.inl ⟨before, _, _, hcut.step_heard hclosed hstarts, hheard,
          htrails.heard hclosed _ _ line hwhole⟩)
      · exact .inr (.inr (Faulted.of_isAt hheard hwhole))

end DiffScan

/-! ## §3. A scan of a file from its line `---` on. -/

namespace DiffSection

/-- The section with another first line: at another place, and with other paths on it. -/
def renamed (part : DiffSection) (firstLine : Nat) (paths : Option (String × String)) : DiffSection :=
  { part with firstLine := firstLine, filePaths := paths }

variable {part : DiffSection} (firstLine : Nat) (paths : Option (String × String))

theorem body_renamed (hunk : OpenHunk) (number : Nat) (line : List Char) :
    (part.renamed firstLine paths).body hunk number line =
      (part.body hunk number line).renamed firstLine paths := by
  have hchange : ∀ side, (part.renamed firstLine paths).change hunk number side =
      (part.change hunk number side).renamed firstLine paths := by
    intro side
    unfold change
    cases hunk.change? side <;> rfl
  unfold body
  split
  · rfl
  · cases hunk.context? <;> rfl
  · cases hunk.context? <;> rfl
  · exact hchange .old
  · exact hchange .new
  · rfl

theorem heard_renamed (number : Nat) (line : List Char) :
    (part.renamed firstLine paths).heard number line =
      (part.heard number line).renamed firstLine paths := by
  unfold heard
  split
  · rfl
  · rfl
  · next ranges _ =>
    unfold withHunk
    have hfault : (part.renamed firstLine paths).fault = part.fault := rfl
    rw [hfault]
    split
    · rfl
    · cases ranges <;> rfl
  · rfl

theorem heard_behind (count shift number : Nat) (line : List Char) :
    (part.behind count shift).heard (count + number) line = (part.heard number line).behind count shift := by
  unfold heard
  split
  · rfl
  · rfl
  · exact part.withHunk_behind count shift number line _
  · rfl

/-- A file whose old path has a line of its own does not take its paths from the first line. -/
theorem toFile_renamed (h : part.hasOldHeader = true) (sources : SourceLookup) (file : FileDiff) :
    (part.renamed firstLine paths).toFile sources = .ok file ↔ part.toFile sources = .ok file := by
  unfold toFile renamed
  cases part.fault with
  | some fault => simp
  | none =>
    simp only [h, if_true]
    split
    · simp
    · rfl

end DiffSection

namespace DiffScan

/-- A scan of a file from its line `---` on, beside a scan of the whole file. -/
def Mirrors (firstLine : Nat) (paths : Option (String × String)) (count : Nat) (bare alone : DiffScan) : Prop :=
  ∃ part, bare.IsAt [] part ∧ alone.IsAt [] ((part.behind count 0).renamed firstLine paths)
    ∧ part.hasOldHeader = true ∧ alone.lineCount = count + bare.lineCount

variable {firstLine count : Nat} {paths : Option (String × String)} {bare alone : DiffScan}

theorem mirrors_step (h : Mirrors firstLine paths count bare alone) (line : List Char) :
    (bare.Begins line ∧ alone.Begins line)
      ∨ Mirrors firstLine paths count (bare.step line) (alone.step line) := by
  obtain ⟨part, hbare, halone, hheader, hcount⟩ := h
  have hnumber : alone.lineCount + 1 = count + (bare.lineCount + 1) := by omega
  have hcount' : (alone.step line).lineCount = count + (bare.step line).lineCount := by
    rw [lineCount_step, lineCount_step, hnumber]
  cases hopen : part.openHunk with
  | some hunk =>
    right
    refine ⟨_, hbare.step_body hopen line, ?_, (part.header_body hunk _ line).1.trans hheader, hcount'⟩
    have hbody := halone.step_body hopen line
    rw [DiffSection.body_renamed, hnumber, DiffSection.body_behind] at hbody
    exact hbody
  | none =>
    have hclosed : alone.Closed := halone.closed hopen
    have hawaits : part.awaitsOldHeader = false := by simp [DiffSection.awaitsOldHeader, hheader]
    cases hread : HeaderLine.read line with
    | file named => exact .inl ⟨(hbare.closed hopen).begins_file hread, hclosed.begins_file hread⟩
    | oldFile path =>
      exact .inl ⟨(hbare.closed hopen).begins_oldFile hbare.current hawaits hread,
        hclosed.begins_oldFile halone.current hawaits hread⟩
    | _ =>
      right
      have hstarts : (HeaderLine.read line).startsSection = false := by rw [hread]; rfl
      refine ⟨_, hbare.step_heard hopen hstarts, ?_, (part.hasOldHeader_heard _ line).trans hheader, hcount'⟩
      have hheard := halone.step_heard hopen hstarts
      rw [DiffSection.heard_renamed, hnumber, DiffSection.heard_behind] at hheard
      exact hheard

theorem Mirrors.finish (h : Mirrors firstLine paths count bare alone) :
    ∃ part, bare.finish = [part] ∧ alone.finish = [(part.behind count 0).renamed firstLine paths]
      ∧ part.hasOldHeader = true := by
  obtain ⟨part, hbare, halone, hheader, hcount⟩ := h
  have hopen : ((part.behind count 0).renamed firstLine paths).openHunk = part.openHunk := rfl
  refine ⟨_, hbare.finish, ?_, ?_⟩
  · rw [halone.finish, hopen, hcount]
    split
    · rw [← DiffSection.fail_behind]
      rfl
    · rfl
  · split
    · exact hheader
    · exact hheader

end DiffScan

/-! ## §4. Sections behind a cut file. -/

namespace DiffScan

variable {first : List Char} {paths : Option (String × String)}

/-- A hunk that is cut short takes the first line of the next file. -/
theorem exists_cut {front : List (List Char)} (hopen : ¬ (front.foldl step {}).Closed)
    (hread : HeaderLine.read first = .file paths) :
    ∃ before cut, ((front.foldl step {}).step first).IsAt before cut ∧ cut.openHunk = none
      ∧ cut.awaitsOldHeader = false := by
  obtain ⟨part, hunk, hcurrent, hhunk⟩ := exists_of_not_closed hopen
  have hat : (front.foldl step {}).IsAt (front.foldl step {}).done part := ⟨rfl, hcurrent⟩
  have hmem : part ∈ (front.foldl step {}).sections := by simp [hat.sections]
  have hhunks : part.hunks ≠ [] := forall_mem_foldl DiffSection.lasting_hunks front part hmem (by simp [hhunk])
  have hstep := hat.step_body hhunk first
  rw [DiffSection.body_of_misfit (HeaderLine.head?_of_read_file hread) (by decide)] at hstep
  exact ⟨_, _, hstep, rfl, by simp [DiffSection.awaitsOldHeader, DiffSection.fail, hhunks]⟩

theorem isAt_first (hread : HeaderLine.read first = .file paths) :
    (step {} first).IsAt [] { firstLine := 1, filePaths := paths } := by
  rw [closed_empty.step]
  exact header_file hread 1

/-- Behind a cut file, all sections but the first are those of the next files alone. -/
theorem exists_run_cut {front rest : List (List Char)} (hopen : ¬ (front.foldl step {}).Closed)
    (hread : HeaderLine.read first = .file paths) (hwhole : ∀ part ∈ run (first :: rest), part.fault = none) :
    ∃ (part : DiffSection) (parts before : List DiffSection) (count shift count' shift' : Nat),
      run (first :: rest) = part :: parts.map (DiffSection.behind count shift)
        ∧ run (front ++ first :: rest) = before ++ parts.map (DiffSection.behind count' shift') := by
  obtain ⟨before, cut, hcut, hclosed, hawaits⟩ := exists_cut hopen hread
  have hstart : ((front.foldl step {}).step first).Trails (step {} first) :=
    ⟨before, cut, _, hcut, isAt_first hread, rfl, hawaits, .inl hclosed⟩
  have hstep : ∀ (a b : DiffScan) (line : List Char), a.Trails b ∨ b.Faulted →
      (a.Begins line ∧ b.Begins line) ∨ (a.step line).Trails (b.step line) ∨ (b.step line).Faulted := by
    rintro a b line (htrails | hfaulted)
    · exact trails_step htrails line
    · exact .inr (.inr (hfaulted.step line))
  obtain ⟨joined, alone, later, hrelated, hjoined, halone⟩ :=
    exists_finish_of_related hstep rest (.inl hstart)
  have hrun : run (front ++ first :: rest) = (rest.foldl step ((front.foldl step {}).step first)).finish := by
    rw [run, List.foldl_append, List.foldl_cons]
  rcases hrelated with ⟨_, _, part, -, hpart, -⟩ | hfaulted
  · have hfirst := hpart.finish
    rw [hfirst] at halone
    exact ⟨_, run later, joined.finish, _, _, _, _, halone, hrun.trans hjoined⟩
  · -- a fault of the next file would still be there at its end
    obtain ⟨part, hmem, hfault⟩ := hfaulted.finish
    have hnone : part.fault = none := hwhole part (by
      show part ∈ (rest.foldl step (step {} first)).finish
      rw [halone]
      exact List.mem_append_left _ hmem)
    rw [hnone] at hfault
    cases hfault

variable {silent : List (List Char)} {line : List Char} {path : Option String}

/-- Behind a cut file, lines that record nothing go to the section that failed, and a line `---` begins a section. -/
theorem exists_run_cut_of_oldFile {front later : List (List Char)} (hopen : ¬ (front.foldl step {}).Closed)
    (hread : HeaderLine.read first = .file paths)
    (hsilent : ∀ line ∈ silent, (HeaderLine.read line).isSilent = true)
    (hline : HeaderLine.read line = .oldFile path) :
    ∃ before count shift, run (front ++ first :: (silent ++ line :: later)) =
      before ++ (run (line :: later)).map (DiffSection.behind count shift) := by
  obtain ⟨before, cut, hcut, hclosed, hawaits⟩ := exists_cut hopen hread
  have hcut' := hcut.foldl_silent hclosed hsilent
  have hbegins := (hcut'.closed hclosed).begins_oldFile hcut'.current hawaits hline
  have hrun : run (front ++ first :: (silent ++ line :: later)) =
      ((line :: later).foldl step (silent.foldl step ((front.foldl step {}).step first))).finish := by
    rw [run, List.foldl_append, List.foldl_cons, List.foldl_append]
  exact ⟨_, _, _, hrun.trans (hbegins.finish later)⟩

/-- Lines that record nothing before the line `---` of a file make no difference but to the first line of its
    section and to line numbers. -/
theorem exists_run_of_oldFile (later : List (List Char)) (hread : HeaderLine.read first = .file paths)
    (hsilent : ∀ line ∈ silent, (HeaderLine.read line).isSilent = true)
    (hline : HeaderLine.read line = .oldFile path) :
    ∃ (part : DiffSection) (parts : List DiffSection) (moved count shift count' shift' : Nat),
      run (line :: later) = part :: parts.map (DiffSection.behind count shift)
        ∧ run (first :: (silent ++ line :: later)) =
            (part.behind moved 0).renamed 1 paths :: parts.map (DiffSection.behind count' shift')
        ∧ part.hasOldHeader = true := by
  have hfirst := (isAt_first hread).foldl_silent rfl hsilent
  have hmirrors : Mirrors 1 paths (1 + silent.length) (step {} line)
      ((silent.foldl step (step {} first)).step line) := by
    refine ⟨DiffSection.withOldFile { firstLine := 1 } path, ?_, ?_, rfl, ?_⟩
    · rw [closed_empty.step, header, hline]
      exact ⟨rfl, rfl⟩
    · rw [(hfirst.closed rfl).step]
      exact (hfirst.counted _).header_oldFile hline rfl _
    · rw [lineCount_step, lineCount_foldl, lineCount_step, lineCount_step]
  obtain ⟨bare, alone, others, hrelated, hbare, halone⟩ :=
    exists_finish_of_related (fun _ _ line h => mirrors_step h line) later hmirrors
  obtain ⟨part, hpart, hrenamed, hheader⟩ := hrelated.finish
  refine ⟨part, run others, 1 + silent.length, bare.lineCount, bare.runs, alone.lineCount, alone.runs, ?_, ?_,
    hheader⟩
  · rw [hpart] at hbare
    exact hbare
  · rw [run, List.foldl_cons, List.foldl_append, List.foldl_cons, halone, hrenamed]
    rfl

end DiffScan

/-! ## §5. Files behind a cut file. -/

namespace DiffSection

theorem toFile_behind_eq_ok (count shift : Nat) (part : DiffSection) (sources : SourceLookup)
    (file : FileDiff) : (part.behind count shift).toFile sources = .ok file ↔ part.toFile sources = .ok file := by
  rw [toFile_behind]
  cases part.toFile sources with
  | error error => simp [Except.mapError]
  | ok found => rfl

/-- Sections behind other lines make the same files, when they make files. -/
theorem map_toFile_behind_eq_ok (count shift : Nat) (sources : SourceLookup) (parts : List DiffSection)
    (files : List FileDiff) :
    (parts.map (behind count shift)).map (toFile sources) = files.map .ok
      ↔ parts.map (toFile sources) = files.map .ok := by
  induction parts generalizing files with
  | nil => rfl
  | cons part parts ih =>
    cases files with
    | nil => simp
    | cons file files =>
      simp only [List.map_cons, List.cons.injEq, toFile_behind_eq_ok, ih]

end DiffSection

section

variable {front rest : List (List Char)} {first : List Char} {paths : Option (String × String)}
  {sources : SourceLookup} {files : List FileDiff}

/-- Behind a cut file, all files but the first are those of the next files alone. -/
theorem DiffScan.tail_suffix_of_cut (hopen : ¬ (front.foldl step {}).Closed)
    (hread : HeaderLine.read first = .file paths)
    (hfiles : (run (first :: rest)).map (DiffSection.toFile sources) = files.map .ok) :
    files.tail.map .ok <:+ (run (front ++ first :: rest)).map (DiffSection.toFile sources) := by
  have hwhole : ∀ part ∈ run (first :: rest), part.fault = none := by
    intro part hpart
    have hfile : part.toFile sources ∈ files.map Except.ok := hfiles ▸ List.mem_map_of_mem hpart
    obtain ⟨file, -, hfile⟩ := List.mem_map.1 hfile
    exact (DiffSection.of_toFile hfile.symm).1
  obtain ⟨part, parts, before, _, _, count, shift, halone, hjoined⟩ := exists_run_cut hopen hread hwhole
  rw [hjoined, List.map_append]
  rw [halone, List.map_cons] at hfiles
  cases files with
  | nil => cases hfiles
  | cons file files =>
    rw [List.map_cons, List.cons.injEq, DiffSection.map_toFile_behind_eq_ok] at hfiles
    rw [List.tail_cons, (DiffSection.map_toFile_behind_eq_ok count shift sources parts files).2 hfiles.2]
    exact List.suffix_append _ _

/-- A file is read from its line `---` on as it is read as a whole, when nothing is recorded before. -/
theorem DiffScan.files_of_oldFile {silent later : List (List Char)} {line : List Char} {path : Option String}
    (hread : HeaderLine.read first = .file paths)
    (hsilent : ∀ line ∈ silent, (HeaderLine.read line).isSilent = true)
    (hline : HeaderLine.read line = .oldFile path)
    (hfiles : (run (first :: (silent ++ line :: later))).map (DiffSection.toFile sources) = files.map .ok) :
    (run (line :: later)).map (DiffSection.toFile sources) = files.map .ok := by
  obtain ⟨part, parts, moved, count, shift, _, _, hbare, halone, hpart⟩ :=
    exists_run_of_oldFile later hread hsilent hline
  have hheader : (part.behind moved 0).hasOldHeader = true := hpart
  rw [halone, List.map_cons] at hfiles
  cases files with
  | nil => cases hfiles
  | cons file files =>
    rw [List.map_cons, List.cons.injEq, DiffSection.toFile_renamed _ _ hheader, DiffSection.toFile_behind_eq_ok,
      DiffSection.map_toFile_behind_eq_ok] at hfiles
    rw [hbare, List.map_cons, List.map_cons, hfiles.1,
      (DiffSection.map_toFile_behind_eq_ok count shift sources parts files).2 hfiles.2]

/-- Behind a cut file, all files are those of the next files alone, when nothing is recorded before the first
    line `---`. -/
theorem DiffScan.suffix_of_cut (hopen : ¬ (front.foldl step {}).Closed)
    (hread : HeaderLine.read first = .file paths) (hheader : HeaderLine.oldFileFirst rest = true)
    (hfiles : (run (first :: rest)).map (DiffSection.toFile sources) = files.map .ok) :
    files.map .ok <:+ (run (front ++ first :: rest)).map (DiffSection.toFile sources) := by
  obtain ⟨silent, line, later, path, rfl, hsilent, hline⟩ := HeaderLine.exists_of_oldFileFirst hheader
  obtain ⟨before, count, shift, hjoined⟩ := exists_run_cut_of_oldFile hopen hread hsilent hline
  have hbare := files_of_oldFile hread hsilent hline hfiles
  rw [hjoined, List.map_append, (DiffSection.map_toFile_behind_eq_ok count shift sources _ files).2 hbare]
  exact List.suffix_append _ _

end

/-- A diff in two parts: the first ends a line inside a hunk that is cut short, the second starts with the first
    line of a file and all its files are read. Behind the cut, all files of the second part but its first are
    read as they are read alone; the first is as well, when its line `---` is the first to record anything. -/
theorem FileDiff.parse_append_cut (front back : String) (sources : SourceLookup) (files : List FileDiff)
    (hend : front.toList.getLast? = some '\n')
    (hopen : ¬ ((Text.lines front.toList).foldl DiffScan.step {}).Closed)
    (hfirst : ∃ first, (Text.lines back.toList).head? = some first ∧ "diff --git ".toList <+: first)
    (hfiles : FileDiff.parse back sources = files.map .ok) :
    files.tail.map .ok <:+ FileDiff.parse (front ++ back) sources
      ∧ (HeaderLine.oldFileFirst (Text.lines back.toList).tail = true →
        files.map .ok <:+ FileDiff.parse (front ++ back) sources) := by
  obtain ⟨first, hhead, name, hname⟩ := hfirst
  have hread : HeaderLine.read first = .file (HeaderLine.filePaths name) := by
    unfold HeaderLine.read
    rw [← hname, Text.after?_append]
  obtain ⟨rest, hrest⟩ := List.head?_eq_some_iff.1 hhead
  unfold FileDiff.parse at hfiles ⊢
  rw [String.toList_append, Text.lines_append hend]
  rw [hrest] at hfiles ⊢
  exact ⟨DiffScan.tail_suffix_of_cut hopen hread hfiles,
    fun hheader => DiffScan.suffix_of_cut hopen hread hheader hfiles⟩

theorem FileDiff.parse_ofList_append (front back : List Char) (sources : SourceLookup) :
    FileDiff.parse (String.ofList front ++ String.ofList back) sources
      = FileDiff.ofLines (Text.lines (front ++ back)) sources := by
  rw [← String.ofList_append, parse_ofList]

/-- A file whose hunk announces two lines of each side and has one. -/
def FileDiff.cutFront : String := "--- a/X\n+++ b/X\n@@ -1,2 +1,2 @@\n-old\n"

/-- A file with a new mode, whose hunk has lines that look like headers, and a file that is renamed. -/
def FileDiff.modeBack : String :=
  "diff --git a/Y b/Y\nold mode 644\n--- a/Y\n+++ b/Y\n@@ -3 +3 @@\n--- a\n+++ b\ndiff --git a/V b/W\n"

/-- The files of `modeBack`. -/
def FileDiff.modeFiles : List FileDiff :=
  [⟨some "Y", some "Y", none, none, [⟨3, 1, 3, 1⟩], [⟨.modification, ⟨none, none, none, none⟩, [3], [3]⟩]⟩,
    ⟨some "V", some "W", none, none, [], []⟩]

theorem FileDiff.parse_append_cut_mode :
    ¬ ((Text.lines cutFront.toList).foldl DiffScan.step {}).Closed
      ∧ FileDiff.parse modeBack {} = modeFiles.map .ok
      ∧ HeaderLine.oldFileFirst (Text.lines modeBack.toList).tail = true
      ∧ modeFiles.map .ok <:+ FileDiff.parse (cutFront ++ modeBack) {} := by
  have hopen : ¬ ((Text.lines cutFront.toList).foldl DiffScan.step {}).Closed := by decide +kernel
  have hfiles : FileDiff.parse modeBack {} = modeFiles.map .ok :=
    (parse_ofList _ _).trans (by decide +kernel)
  have hlines : modeBack.toList = _ := String.toList_ofList
  have hheader : HeaderLine.oldFileFirst (Text.lines modeBack.toList).tail = true := by
    rw [hlines]
    decide +kernel
  refine ⟨hopen, hfiles, hheader, (parse_append_cut cutFront modeBack {} modeFiles ?_ hopen ?_ hfiles).2 hheader⟩
  · decide +kernel
  · rw [hlines]
    exact ⟨_, rfl, "a/Y b/Y".toList, by decide +kernel⟩

/-- A file that is renamed and not changed. -/
def FileDiff.renamedBack : String := "diff --git a/Y b/Z\nrename from Y\nrename to Z\n"

/-- A file with revisions. -/
def FileDiff.revisedBack : String :=
  "diff --git a/Y b/Y\nindex 1a..2b 644\n--- a/Y\n+++ b/Y\n@@ -1 +1 @@\n-x\n+y\n"

/-- Behind a file that is cut short, a file without a line `---` is not read at all, and a file with revisions
    before its line `---` is read without them. -/
theorem FileDiff.parse_append_cut_loses :
    ¬ ((Text.lines cutFront.toList).foldl DiffScan.step {}).Closed
      ∧ (∃ file, FileDiff.parse renamedBack {} = [.ok file]
        ∧ ¬ FileDiff.parse renamedBack {} <:+ FileDiff.parse (cutFront ++ renamedBack) {})
      ∧ ∃ file, FileDiff.parse revisedBack {} = [.ok file]
        ∧ ¬ FileDiff.parse revisedBack {} <:+ FileDiff.parse (cutFront ++ revisedBack) {} := by
  have hrenamed : FileDiff.parse renamedBack {} = [.ok ⟨some "Y", some "Z", none, none, [], []⟩] :=
    (parse_ofList _ _).trans (by decide +kernel)
  have hhidden : FileDiff.parse (cutFront ++ renamedBack) {} = [.error (.malformedDiff 5 .bodyMismatch)] :=
    (parse_ofList_append _ _ _).trans (by decide +kernel)
  have hrevised : FileDiff.parse revisedBack {} = [.ok ⟨some "Y", some "Y", some "1a", some "2b",
      [⟨1, 1, 1, 1⟩], [⟨.modification, ⟨none, none, none, none⟩, [1], [1]⟩]⟩] :=
    (parse_ofList _ _).trans (by decide +kernel)
  have hdamaged : FileDiff.parse (cutFront ++ revisedBack) {} = [.error (.malformedDiff 5 .bodyMismatch),
      .ok ⟨some "Y", some "Y", none, none, [⟨1, 1, 1, 1⟩],
        [⟨.modification, ⟨none, none, none, none⟩, [1], [1]⟩]⟩] :=
    (parse_ofList_append _ _ _).trans (by decide +kernel)
  refine ⟨by decide +kernel, ⟨_, hrenamed, ?_⟩, ⟨_, hrevised, ?_⟩⟩
  · rw [hrenamed, hhidden]
    decide
  · rw [hrevised, hdamaged]
    decide

end PatchPresence
