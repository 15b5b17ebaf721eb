/-
  PatchPresence.Proofs.Diff.Headers — what a line outside hunks does to the section that it goes to.

  A header starts a section or is heard by the one in progress. Nothing it says changes the lines of a hunk, and
  nothing the lines of a hunk say is heard. A fault is never taken back.

  Main results:
    * `DiffSection.body_of_misfit` — a line that starts with no sign of a hunk is a fault inside one.
    * `DiffScan.IsAt.step_heard` — a header that starts no section is heard by the last one.
    * `DiffScan.FaultAt.finish` — a section with a fault still has that fault at the end of the diff.
-/
import PatchPresence.Proofs.Diff.Scan

namespace PatchPresence

/-! ## §1. Headers. -/

theorem Text.head?_of_after? {w : Char} {word text rest : List Char} (h : after? (w :: word) text = some rest) :
    text.head? = some w := by
  cases text with
  | nil => cases h
  | cons c text =>
    by_cases hc : w = c
    · rw [hc]
      rfl
    · rw [after?_cons_of_ne hc] at h
      cases h

namespace HeaderLine

/-- Whether a line outside hunks may start a section. -/
def startsSection : HeaderLine → Bool
  | .file _ | .oldFile _ => true
  | _ => false

variable {line : List Char}

theorem head?_of_read_file {paths : Option (String × String)} (h : read line = .file paths) :
    line.head? = some 'd' := by
  unfold read at h
  split at h
  · next hafter => exact Text.head?_of_after? hafter
  · split at h
    · cases h
    · split at h
      · cases h
      · split at h
        · cases h
        · split at h <;> cases h

theorem head?_of_read_hunk {ranges : Option Hunk} (h : read line = .hunk ranges) :
    line.head? = some '@' := by
  unfold read at h
  split at h
  · cases h
  · split at h
    · cases h
    · split at h
      · cases h
      · split at h
        · cases h
        · split at h
          · next hafter =>
            obtain ⟨rest, hrest⟩ := Option.isSome_iff_exists.1 hafter
            exact Text.head?_of_after? hrest
          · cases h

/-- A line outside hunks that records nothing. -/
def isSilent : HeaderLine → Bool
  | .revisions none | .other => true
  | _ => false

/-- Of the lines behind the first line of a file, the first that records anything is a line `---`. -/
def oldFileFirst : List (List Char) → Bool
  | [] => false
  | line :: rest =>
    match read line with
    | .oldFile _ => true
    | header => header.isSilent && oldFileFirst rest

theorem exists_of_oldFileFirst {lines : List (List Char)} (h : oldFileFirst lines = true) :
    ∃ silent line rest path, lines = silent ++ line :: rest
      ∧ (∀ other ∈ silent, (read other).isSilent = true) ∧ read line = .oldFile path := by
  induction lines with
  | nil => cases h
  | cons line lines ih =>
    unfold oldFileFirst at h
    split at h
    · next path hread => exact ⟨[], line, lines, path, rfl, by simp, hread⟩
    · obtain ⟨hline, hlines⟩ := Bool.and_eq_true_iff.1 h
      obtain ⟨silent, old, rest, path, rfl, hsilent, hread⟩ := ih hlines
      exact ⟨line :: silent, old, rest, path, rfl, List.forall_mem_cons.2 ⟨hline, hsilent⟩, hread⟩

end HeaderLine

/-! ## §2. Sections. -/

namespace DiffSection

/-- The section behind a header that starts no section. -/
def heard (part : DiffSection) (number : Nat) (line : List Char) : DiffSection :=
  match HeaderLine.read line with
  | .newFile path => { part with newPath := path }
  | .revisions (some range) => { part with revisions := some range }
  | .hunk ranges => part.withHunk number line ranges
  | _ => part

variable {part : DiffSection}

/-- The lines of a hunk leave the headers of their section alone. -/
theorem header_body (hunk : OpenHunk) (number : Nat) (line : List Char) :
    (part.body hunk number line).hasOldHeader = part.hasOldHeader
      ∧ (part.body hunk number line).hunks = part.hunks := by
  rcases part.body_cases hunk number line with heq | ⟨next, -, heq⟩ | ⟨side, place, next, run, -, heq⟩ |
    ⟨fault, heq⟩
  all_goals rw [heq]; exact ⟨rfl, rfl⟩

theorem awaitsOldHeader_body (hunk : OpenHunk) (number : Nat) (line : List Char) :
    (part.body hunk number line).awaitsOldHeader = part.awaitsOldHeader := by
  obtain ⟨hheader, hhunks⟩ := part.header_body hunk number line
  rw [awaitsOldHeader, hheader, hhunks, awaitsOldHeader]

theorem openHunk_heard_of_ne {line : List Char} (hhunk : ∀ ranges, HeaderLine.read line ≠ .hunk ranges)
    (number : Nat) : (part.heard number line).openHunk = part.openHunk := by
  unfold heard
  split
  · rfl
  · rfl
  · next ranges hread => exact absurd hread (hhunk ranges)
  · rfl

theorem hasOldHeader_heard (number : Nat) (line : List Char) :
    (part.heard number line).hasOldHeader = part.hasOldHeader := by
  unfold heard
  split
  · rfl
  · rfl
  · next ranges _ =>
    unfold withHunk
    split
    · rfl
    · cases ranges <;> rfl
  · rfl

theorem awaitsOldHeader_heard (h : part.awaitsOldHeader = false) (number : Nat) (line : List Char) :
    (part.heard number line).awaitsOldHeader = false := by
  unfold heard
  split
  · exact h
  · exact h
  · next ranges _ =>
    unfold withHunk
    split
    · exact h
    · cases ranges with
      | none => exact h
      | some hunk => simp [resume, awaitsOldHeader]
  · exact h

/-- A line that starts with none of the signs of a hunk fits no hunk. -/
theorem body_of_misfit {line : List Char} {sign : Char} (hsign : line.head? = some sign)
    (hmisfit : sign ∉ ['\\', ' ', '-', '+']) (hunk : OpenHunk) (number : Nat) :
    part.body hunk number line = part.fail number .bodyMismatch := by
  have hother : ∀ other ∈ ['\\', ' ', '-', '+'], line.head? ≠ some other := by
    intro other hmem heq
    rw [hsign, Option.some.injEq] at heq
    exact hmisfit (heq ▸ hmem)
  unfold body
  split
  · next hhead => exact absurd hhead (hother _ (by simp))
  · next hhead => exact absurd hhead (hother _ (by simp))
  · next hhead =>
    rw [hsign] at hhead
    cases hhead
  · next hhead => exact absurd hhead (hother _ (by simp))
  · next hhead => exact absurd hhead (hother _ (by simp))
  · rfl

/-- A section with a hunk in progress has a hunk. -/
theorem lasting_hunks : Lasting fun part => part.openHunk.isSome = true → part.hunks ≠ [] where
  start _ _ _ h := by cases h
  oldFile _ _ h := h
  newFile _ _ h := h
  revisions _ _ h := h
  hunk part number line ranges _ h := by
    unfold withHunk
    split
    · exact h
    · cases ranges with
      | none =>
        intro hopen
        cases hopen
      | some hunk =>
        intro _
        simp [resume]
  body part hunk number line hopen h := by
    intro _
    rw [(part.header_body hunk number line).2]
    exact h (by rw [hopen]; rfl)
  fail _ _ _ _ h := by cases h

theorem fault_fail {fault : Nat × DiffFault} (h : part.fault = some fault) (number : Nat) (later : DiffFault) :
    (part.fail number later).fault = some fault := by
  rw [fail, h]
  rfl

/-- No line of a hunk takes a fault back or puts another in its place. -/
theorem fault_body {fault : Nat × DiffFault} (h : part.fault = some fault) (hunk : OpenHunk) (number : Nat)
    (line : List Char) : (part.body hunk number line).fault = some fault := by
  rcases part.body_cases hunk number line with heq | ⟨next, -, heq⟩ | ⟨side, place, next, run, -, heq⟩ |
    ⟨later, heq⟩
  · rw [heq]
    exact h
  · rw [heq]
    exact h
  · rw [heq]
    exact h
  · rw [heq]
    exact fault_fail h number later

theorem withHunk_of_fault (h : part.fault.isSome = true) (number : Nat) (line : List Char)
    (ranges : Option Hunk) : part.withHunk number line ranges = part := if_pos h

end DiffSection

/-! ## §3. Scans. -/

namespace DiffScan

variable {scan : DiffScan} {before : List DiffSection} {part : DiffSection} {line : List Char}

theorem IsAt.step_heard (h : scan.IsAt before part) (hopen : part.openHunk = none)
    (hread : (HeaderLine.read line).startsSection = false) :
    (scan.step line).IsAt before (part.heard (scan.lineCount + 1) line) := by
  rw [(h.closed hopen).step]
  have hcounted := h.counted (scan.lineCount + 1)
  unfold DiffSection.heard
  cases hline : HeaderLine.read line with
  | file paths => simp [hline, HeaderLine.startsSection] at hread
  | oldFile path => simp [hline, HeaderLine.startsSection] at hread
  | newFile path => exact hcounted.header_newFile hline _
  | revisions range =>
    rw [header, hline]
    cases range with
    | none => exact hcounted
    | some range => exact hcounted.update _
  | hunk ranges => exact hcounted.header_hunk hline _
  | other =>
    rw [header, hline]
    exact hcounted

theorem IsAt.foldl_silent (h : scan.IsAt before part) (hopen : part.openHunk = none) {lines : List (List Char)}
    (hsilent : ∀ line ∈ lines, (HeaderLine.read line).isSilent = true) :
    (lines.foldl step scan).IsAt before part := by
  induction lines generalizing scan with
  | nil => exact h
  | cons line lines ih =>
    obtain ⟨hline, hlines⟩ := List.forall_mem_cons.1 hsilent
    refine ih ?_ hlines
    have hstarts : (HeaderLine.read line).startsSection = false := by
      cases hread : HeaderLine.read line <;> simp_all [HeaderLine.isSilent, HeaderLine.startsSection]
    have hheard : part.heard (scan.lineCount + 1) line = part := by
      unfold DiffSection.heard
      split <;> simp_all [HeaderLine.isSilent]
    exact hheard ▸ h.step_heard hopen hstarts

/-- A header that is neither the first line of a file nor that of a hunk leaves the scan outside hunks, in a
    section that does not take a line `---`. -/
theorem IsAt.step_apart (h : scan.IsAt before part) (hopen : part.openHunk = none)
    (hawaits : part.awaitsOldHeader = false) (hfile : ∀ paths, HeaderLine.read line ≠ .file paths)
    (hhunk : ∀ ranges, HeaderLine.read line ≠ .hunk ranges) :
    ∃ before' part', (scan.step line).IsAt before' part' ∧ part'.openHunk = none
      ∧ part'.awaitsOldHeader = false := by
  cases hstarts : (HeaderLine.read line).startsSection with
  | false =>
    exact ⟨before, _, h.step_heard hopen hstarts, (DiffSection.openHunk_heard_of_ne hhunk _).trans hopen,
      DiffSection.awaitsOldHeader_heard hawaits _ _⟩
  | true =>
    obtain ⟨path, hread⟩ : ∃ path, HeaderLine.read line = .oldFile path := by
      cases hread : HeaderLine.read line with
      | file paths => exact absurd hread (hfile paths)
      | oldFile path => exact ⟨path, rfl⟩
      | _ => simp [hread, HeaderLine.startsSection] at hstarts
    -- the section in progress takes no line `---`, so this one starts another
    have hstart : (scan.step line).IsAt (scan.done ++ [part])
        (DiffSection.withOldFile { firstLine := scan.lineCount + 1, runs := part.runs } path) := by
      rw [(h.closed hopen).step, header, hread]
      simp only [h.current, hawaits, Bool.false_eq_true, if_false]
      exact ⟨rfl, rfl⟩
    exact ⟨_, _, hstart, rfl, rfl⟩

theorem IsAt.finish {scan : DiffScan} {before : List DiffSection} {part : DiffSection}
    (h : scan.IsAt before part) :
    scan.finish =
      before ++ [if part.openHunk.isSome then part.fail scan.lineCount .unfinishedHunk else part] :=
  (h.update _).sections

/-! ## §4. Faults stay. -/

/-- The section at a place among the sections has a fault. -/
def FaultAt (scan : DiffScan) (i : Nat) (fault : Nat × DiffFault) : Prop :=
  ∃ part, scan.sections[i]? = some part ∧ part.fault = some fault

/-- One of the sections has a fault. -/
def Faulted (scan : DiffScan) : Prop := ∃ part ∈ scan.sections, part.fault.isSome = true

variable {i : Nat} {fault : Nat × DiffFault}

theorem faulted_iff : scan.Faulted ↔ ∃ i fault, scan.FaultAt i fault := by
  constructor
  · rintro ⟨part, hpart, hfault⟩
    obtain ⟨i, hi⟩ := List.mem_iff_getElem?.1 hpart
    obtain ⟨fault, hfault⟩ := Option.isSome_iff_exists.1 hfault
    exact ⟨i, fault, part, hi, hfault⟩
  · rintro ⟨i, fault, part, hpart, hfault⟩
    exact ⟨part, List.mem_of_getElem? hpart, by rw [hfault]; rfl⟩

theorem FaultAt.start (h : scan.FaultAt i fault) (fresh : DiffSection) : (scan.start fresh).FaultAt i fault := by
  obtain ⟨part, hpart, hfault⟩ := h
  refine ⟨part, ?_, hfault⟩
  obtain ⟨hi, -⟩ := List.getElem?_eq_some_iff.1 hpart
  exact (List.getElem?_append_left hi).trans hpart

theorem FaultAt.update (h : scan.FaultAt i fault) {change : DiffSection → DiffSection}
    (hchange : ∀ part, part.fault = some fault → (change part).fault = some fault) :
    (scan.update change).FaultAt i fault := by
  obtain ⟨part, hpart, hfault⟩ := h
  by_cases hi : i < scan.done.length
  · rw [sections, List.getElem?_append_left hi] at hpart
    exact ⟨part, (List.getElem?_append_left hi).trans hpart, hfault⟩
  · -- the section is the one in progress
    have hdone := Nat.le_of_not_lt hi
    rw [sections, List.getElem?_append_right hdone] at hpart
    refine ⟨change part, ?_, hchange part hfault⟩
    show (scan.done ++ (scan.current.map change).toList)[i]? = some (change part)
    rw [List.getElem?_append_right hdone, Option.toList_map, List.getElem?_map, hpart]
    rfl

theorem FaultAt.header (h : scan.FaultAt i fault) (number : Nat) (line : List Char) :
    (scan.header number line).FaultAt i fault := by
  unfold DiffScan.header
  split
  · exact h.start _
  · split
    · split
      · exact h.update fun _ hfault => hfault
      · exact h.start _
    · exact h.start _
  · exact h.update fun _ hfault => hfault
  · exact h.update fun _ hfault => hfault
  · exact h
  · split
    · refine h.update fun part hfault => ?_
      rw [part.withHunk_of_fault (by rw [hfault]; rfl)]
      exact hfault
    · exact h.start _
  · exact h

theorem FaultAt.step (h : scan.FaultAt i fault) (line : List Char) : (scan.step line).FaultAt i fault := by
  have hcounted : FaultAt { scan with lineCount := scan.lineCount + 1 } i fault := h
  by_cases hclosed : scan.Closed
  · rw [hclosed.step]
    exact hcounted.header _ line
  · obtain ⟨part, hunk, hcurrent, hopen⟩ := exists_of_not_closed hclosed
    rw [step_of_open hcurrent hopen]
    exact hcounted.update fun part hfault => part.fault_body hfault hunk _ line

theorem FaultAt.foldl (h : scan.FaultAt i fault) (lines : List (List Char)) :
    (lines.foldl DiffScan.step scan).FaultAt i fault := by
  induction lines generalizing scan with
  | nil => exact h
  | cons line lines ih => exact ih (h.step line)

/-- A fault is reported for its section, whatever the lines behind it are. -/
theorem FaultAt.finish (h : scan.FaultAt i fault) :
    ∃ part, scan.finish[i]? = some part ∧ part.fault = some fault := by
  apply h.update
  intro part hfault
  split
  · exact part.fault_fail hfault _ _
  · exact hfault

theorem Faulted.step (h : scan.Faulted) (line : List Char) : (scan.step line).Faulted := by
  obtain ⟨i, fault, hat⟩ := faulted_iff.1 h
  exact faulted_iff.2 ⟨i, fault, hat.step line⟩

theorem Faulted.finish (h : scan.Faulted) : ∃ part ∈ scan.finish, part.fault.isSome = true := by
  obtain ⟨i, fault, hat⟩ := faulted_iff.1 h
  obtain ⟨part, hpart, hfault⟩ := hat.finish
  exact ⟨part, List.mem_of_getElem? hpart, by rw [hfault]; rfl⟩

theorem Faulted.of_isAt (h : scan.IsAt before part) (hfault : part.fault ≠ none) : scan.Faulted :=
  ⟨part, by simp [h.sections], Option.isSome_iff_ne_none.2 hfault⟩

end DiffScan

end PatchPresence
