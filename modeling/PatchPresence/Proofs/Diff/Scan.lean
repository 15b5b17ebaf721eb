/-
  PatchPresence.Proofs.Diff.Scan — what a line of a diff can do to the sections, whatever it says.

  A line inside a hunk is passed over, is a context line, is recorded as a change or is a fault; a line outside
  hunks starts a section or sets something in the last one. A property that a new section has and that each of
  these keeps holds of every section of every diff.

  Main results:
    * `DiffSection.body_cases` — the four things that a line inside a hunk can do.
    * `DiffScan.forall_mem_run` — a lasting property holds of every section.
    * `DiffScan.openHunk_of_mem_run` — no section is left with an open hunk.
-/
import PatchPresence.Proofs.Diff.RoundTrip

namespace PatchPresence

/-! ## §1. Lines inside a hunk. -/

namespace OpenHunk

variable {hunk behind : OpenHunk}

theorem context?_eq_some (h : hunk.context? = some behind) (side : Side) :
    behind.next side = hunk.next side + 1 ∧ hunk.left side = behind.left side + 1 := by
  unfold context? at h
  split at h
  · cases h
  · next hleft =>
    rw [Bool.not_eq_true, Bool.or_eq_false_iff, decide_eq_false_iff_not, decide_eq_false_iff_not] at hleft
    cases h
    cases side with
    | old =>
      show hunk.oldLine + 1 = hunk.oldLine + 1 ∧ hunk.oldLeft = hunk.oldLeft - 1 + 1
      omega
    | new =>
      show hunk.newLine + 1 = hunk.newLine + 1 ∧ hunk.newLeft = hunk.newLeft - 1 + 1
      omega

/-- A changed line takes a line of its own side and leaves the other side alone. -/
theorem change?_eq_some {side : Side} {line : Nat} (h : hunk.change? side = some (line, behind)) :
    line = hunk.next side ∧ behind.next side = hunk.next side + 1 ∧ hunk.left side = behind.left side + 1
      ∧ ∀ other, other ≠ side → behind.next other = hunk.next other ∧ behind.left other = hunk.left other := by
  cases side with
  | old =>
    rw [change?] at h
    split at h
    · cases h
    · next hleft =>
      cases h
      refine ⟨rfl, rfl, ?_, ?_⟩
      · show hunk.oldLeft = hunk.oldLeft - 1 + 1
        omega
      · intro other hother
        cases other with
        | old => exact absurd rfl hother
        | new => exact ⟨rfl, rfl⟩
  | new =>
    rw [change?] at h
    split at h
    · cases h
    · next hleft =>
      cases h
      refine ⟨rfl, rfl, ?_, ?_⟩
      · show hunk.newLeft = hunk.newLeft - 1 + 1
        omega
      · intro other hother
        cases other with
        | old => exact ⟨rfl, rfl⟩
        | new => exact absurd rfl hother

end OpenHunk

namespace DiffSection

/-- A changed line is recorded, or the hunk has no line left on its side. -/
theorem change_cases (part : DiffSection) (hunk : OpenHunk) (number : Nat) (side : Side) :
    (∃ line next run, hunk.change? side = some (line, next)
        ∧ part.change hunk number side =
          resume { part with runs := run, changes := part.changes ++ [⟨side, line, number, run⟩] } next)
      ∨ ∃ fault, part.change hunk number side = part.fail number fault := by
  unfold change
  cases hchange : hunk.change? side with
  | none => exact .inr ⟨_, rfl⟩
  | some found => exact .inl ⟨_, _, _, rfl, rfl⟩

/-- A line inside a hunk is passed over, is a context line, is recorded as a change, or is a fault. -/
theorem body_cases (part : DiffSection) (hunk : OpenHunk) (number : Nat) (line : List Char) :
    part.body hunk number line = part
      ∨ (∃ next, hunk.context? = some next ∧ part.body hunk number line = part.resume next)
      ∨ (∃ side place next run, hunk.change? side = some (place, next)
        ∧ part.body hunk number line =
          resume { part with runs := run, changes := part.changes ++ [⟨side, place, number, run⟩] } next)
      ∨ ∃ fault, part.body hunk number line = part.fail number fault := by
  unfold body
  split
  · exact .inl rfl
  · cases hunk.context? with
    | none => exact .inr (.inr (.inr ⟨_, rfl⟩))
    | some next => exact .inr (.inl ⟨next, rfl, rfl⟩)
  -- an empty line is a context line too
  · cases hunk.context? with
    | none => exact .inr (.inr (.inr ⟨_, rfl⟩))
    | some next => exact .inr (.inl ⟨next, rfl, rfl⟩)
  · rcases part.change_cases hunk number .old with hrecorded | hfault
    · exact .inr (.inr (.inl ⟨.old, hrecorded⟩))
    · exact .inr (.inr (.inr hfault))
  · rcases part.change_cases hunk number .new with hrecorded | hfault
    · exact .inr (.inr (.inl ⟨.new, hrecorded⟩))
    · exact .inr (.inr (.inr hfault))
  · exact .inr (.inr (.inr ⟨_, rfl⟩))

/-! ## §2. Lasting properties. -/

/-- A property of a new section that no line takes away. Headers are read while no hunk is open. -/
structure Lasting (P : DiffSection → Prop) : Prop where
  start : ∀ number paths runs, P { firstLine := number, filePaths := paths, runs := runs }
  oldFile : ∀ part path, P part → P (part.withOldFile path)
  newFile : ∀ part path, P part → P { part with newPath := path }
  revisions : ∀ part range, P part → P { part with revisions := some range }
  hunk : ∀ part number line ranges, part.openHunk = none → P part → P (part.withHunk number line ranges)
  body : ∀ part hunk number line, part.openHunk = some hunk → P part → P (part.body hunk number line)
  fail : ∀ part number fault, P part → P (part.fail number fault)

end DiffSection

namespace DiffScan

variable {P : DiffSection → Prop} {scan : DiffScan}

theorem forall_mem_update {change : DiffSection → DiffSection} (h : ∀ part ∈ scan.sections, P part)
    (hchange : ∀ part, scan.current = some part → P part → P (change part)) :
    ∀ part ∈ (scan.update change).sections, P part := by
  intro part hpart
  rcases List.mem_append.1 hpart with hdone | hcurrent
  · exact h part (List.mem_append_left _ hdone)
  · obtain ⟨old, hold, rfl⟩ := Option.map_eq_some_iff.1 (Option.mem_toList.1 hcurrent)
    exact hchange old hold (h old (List.mem_append_right _ (Option.mem_toList.2 hold)))

theorem forall_mem_start {fresh : DiffSection} (h : ∀ part ∈ scan.sections, P part) (hfresh : P fresh) :
    ∀ part ∈ (scan.start fresh).sections, P part := by
  intro part hpart
  rcases List.mem_append.1 hpart with hdone | hcurrent
  · exact h part hdone
  · obtain rfl : fresh = part := Option.some.inj (Option.mem_toList.1 hcurrent)
    exact hfresh

theorem closed_iff : scan.Closed ↔ scan.current.bind DiffSection.openHunk = none :=
  Option.bind_eq_none_iff.symm

instance : Decidable scan.Closed := decidable_of_iff _ closed_iff.symm

theorem closed_empty : Closed {} := by
  intro part hpart
  cases hpart

theorem exists_of_not_closed (h : ¬ scan.Closed) :
    ∃ part hunk, scan.current = some part ∧ part.openHunk = some hunk := by
  simpa [Closed, Option.ne_none_iff_exists'] using h

/-- While a hunk is open, every line goes to it. -/
theorem step_of_open {part : DiffSection} {hunk : OpenHunk} (hcurrent : scan.current = some part)
    (hopen : part.openHunk = some hunk) (line : List Char) :
    scan.step line = update { scan with lineCount := scan.lineCount + 1 }
      (·.body hunk (scan.lineCount + 1) line) := by
  simp only [step, hcurrent, hopen]

theorem forall_mem_header (hP : DiffSection.Lasting P) (hclosed : scan.Closed)
    (h : ∀ part ∈ scan.sections, P part) (number : Nat) (line : List Char) :
    ∀ part ∈ (scan.header number line).sections, P part := by
  unfold header
  split
  · exact forall_mem_start h (hP.start _ _ _)
  · split
    · split
      · exact forall_mem_update h fun part _ hpart => hP.oldFile part _ hpart
      · exact forall_mem_start h (hP.oldFile _ _ (hP.start _ _ _))
    · exact forall_mem_start h (hP.oldFile _ _ (hP.start _ _ _))
  · exact forall_mem_update h fun part _ hpart => hP.newFile part _ hpart
  · exact forall_mem_update h fun part _ hpart => hP.revisions part _ hpart
  · exact h
  · split
    · exact forall_mem_update h fun part hcurrent hpart => hP.hunk part _ _ _ (hclosed part hcurrent) hpart
    · exact forall_mem_start h (hP.hunk _ _ _ _ rfl (hP.start _ _ _))
  · exact h

theorem forall_mem_step (hP : DiffSection.Lasting P) (h : ∀ part ∈ scan.sections, P part)
    (line : List Char) : ∀ part ∈ (scan.step line).sections, P part := by
  by_cases hclosed : scan.Closed
  · rw [hclosed.step]
    apply forall_mem_header hP
    · exact hclosed
    · exact h
  · obtain ⟨part, hunk, hcurrent, hopen⟩ := exists_of_not_closed hclosed
    rw [step_of_open hcurrent hopen]
    refine forall_mem_update h fun other hother hpart => ?_
    obtain rfl : part = other := Option.some.inj (hcurrent.symm.trans hother)
    exact hP.body part hunk _ line hopen hpart

theorem forall_mem_foldl (hP : DiffSection.Lasting P) (lines : List (List Char)) :
    ∀ part ∈ (lines.foldl step {}).sections, P part := by
  have hempty : ∀ part ∈ sections {}, P part := by
    intro part hpart
    cases hpart
  refine List.foldlRecOn (motive := fun scan => ∀ part ∈ scan.sections, P part) lines step hempty ?_
  intro scan hbefore line _
  exact forall_mem_step hP hbefore line

theorem forall_mem_run (hP : DiffSection.Lasting P) (lines : List (List Char)) :
    ∀ part ∈ run lines, P part := by
  apply forall_mem_update (forall_mem_foldl hP lines)
  intro part _ hpart
  split
  · exact hP.fail part _ _ hpart
  · exact hpart

/-! ## §3. Sections that are behind. -/

/-- A header starts a section behind the others or changes the last one. -/
theorem done_header (scan : DiffScan) (number : Nat) (line : List Char) :
    (scan.header number line).done = scan.done ∨ (scan.header number line).done = scan.sections := by
  unfold header
  split
  · exact .inr rfl
  · split
    · split
      · exact .inl rfl
      · exact .inr rfl
    · exact .inr rfl
  · exact .inl rfl
  · exact .inl rfl
  · exact .inl rfl
  · split
    · exact .inl rfl
    · exact .inr rfl
  · exact .inl rfl

theorem Closed.openHunk_of_mem (h : scan.Closed) (hdone : ∀ part ∈ scan.done, part.openHunk = none) :
    ∀ part ∈ scan.sections, part.openHunk = none := by
  intro part hpart
  rcases List.mem_append.1 hpart with hmem | hcurrent
  · exact hdone part hmem
  · exact h part (Option.mem_toList.1 hcurrent)

/-- A section is left only while no hunk is open. -/
theorem openHunk_done_step (hdone : ∀ part ∈ scan.done, part.openHunk = none) (line : List Char) :
    ∀ part ∈ (scan.step line).done, part.openHunk = none := by
  by_cases hclosed : scan.Closed
  · rw [hclosed.step]
    rcases done_header { scan with lineCount := scan.lineCount + 1 } (scan.lineCount + 1) line with hsame | hall
    · rw [hsame]
      exact hdone
    · rw [hall]
      exact hclosed.openHunk_of_mem hdone
  · obtain ⟨part, hunk, hcurrent, hopen⟩ := exists_of_not_closed hclosed
    rw [step_of_open hcurrent hopen]
    exact hdone

theorem openHunk_of_mem_run (lines : List (List Char)) : ∀ part ∈ run lines, part.openHunk = none := by
  have hempty : ∀ part ∈ done {}, part.openHunk = none := by
    intro part hpart
    cases hpart
  have hscan : ∀ part ∈ (lines.foldl step {}).done, part.openHunk = none := by
    refine List.foldlRecOn (motive := fun scan => ∀ part ∈ scan.done, part.openHunk = none) lines step hempty ?_
    intro scan hbefore line _
    exact openHunk_done_step hbefore line
  intro part hpart
  rcases List.mem_append.1 hpart with hmem | hcurrent
  · exact hscan part hmem
  · obtain ⟨last, -, rfl⟩ := Option.map_eq_some_iff.1 (Option.mem_toList.1 hcurrent)
    split
    · rfl
    · next hopen => simpa using hopen

end DiffScan

end PatchPresence
