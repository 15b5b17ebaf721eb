/-
  PatchPresence.Proofs.Diff.Accounting — the changed lines of a file against the counts of its hunks.

  A hunk header announces lines of either side. Every context line takes one of each, every changed line one of
  its own side. So in a section without a fault the lines announced for a side are the changed lines of that
  side, those still to come, and a number of context lines that both sides share.

  Main results:
    * `DiffSection.lasting_accounted` — the account is kept by every line of every diff.
    * `FileDiff.lines_balance` — the account of a file that was read.
-/
import PatchPresence.Proofs.Collections
import PatchPresence.Proofs.Diff.Scan

namespace PatchPresence

/-! ## §1. Accounts of sections. -/

namespace Hunk

/-- First line of the file of a side. -/
def start (hunk : Hunk) : Side → Nat
  | .old => hunk.oldStart
  | .new => hunk.newStart

/-- Number of lines of the file of a side. -/
def count (hunk : Hunk) : Side → Nat
  | .old => hunk.oldCount
  | .new => hunk.newCount

/-- Whether a line of the file of a side is in the range of the hunk. -/
def Covers (hunk : Hunk) (side : Side) (line : Nat) : Prop :=
  hunk.start side ≤ line ∧ line < hunk.start side + hunk.count side

end Hunk

namespace OpenHunk

/-- A hunk in progress stands inside the range of its header, with the rest of the range to come. -/
structure Continues (hunk : OpenHunk) (whole : Hunk) : Prop where
  begun : ∀ side, whole.start side ≤ hunk.next side
  ends : ∀ side, hunk.next side + hunk.left side = whole.start side + whole.count side

variable {hunk next : OpenHunk} {whole : Hunk}

theorem continues_start (whole : Hunk) : (start whole).Continues whole where
  begun side := by cases side <;> exact Nat.le_refl _
  ends side := by cases side <;> rfl

theorem Continues.context (h : hunk.Continues whole) (hcontext : hunk.context? = some next) :
    next.Continues whole := by
  refine ⟨fun side => ?_, fun side => ?_⟩
  · have hstep := context?_eq_some hcontext side
    have hbegun := h.begun side
    omega
  · have hstep := context?_eq_some hcontext side
    have hends := h.ends side
    omega

/-- A changed line is in the range of its hunk. -/
theorem Continues.change {side : Side} {line : Nat} (h : hunk.Continues whole)
    (hchange : hunk.change? side = some (line, next)) : whole.Covers side line ∧ next.Continues whole := by
  obtain ⟨rfl, hnext, hleft, hothers⟩ := change?_eq_some hchange
  have hline : hunk.next side < whole.start side + whole.count side := by
    have hends := h.ends side
    omega
  refine ⟨⟨h.begun side, hline⟩, fun other => ?_, fun other => ?_⟩
  · have hbegun := h.begun other
    by_cases hsame : other = side
    · subst hsame
      omega
    · have hkept := hothers other hsame
      omega
  · have hends := h.ends other
    by_cases hsame : other = side
    · subst hsame
      omega
    · have hkept := hothers other hsame
      omega

end OpenHunk

namespace DiffSection

/-- Lines of a side that the open hunk still has to come. -/
def left (part : DiffSection) (side : Side) : Nat := (part.openHunk.map (·.left side)).getD 0

/-- The account of a section: the lines that its hunks announce, and where its changed lines stand. -/
structure Accounted (part : DiffSection) : Prop where
  balance : ∃ context, ∀ side, sumOf (·.count side) part.hunks =
    context + (changedLines side part.changes).length + part.left side
  covered : ∀ change ∈ part.changes, ∃ hunk ∈ part.hunks, hunk.Covers change.side change.line
  continues : ∀ hunk, part.openHunk = some hunk → ∃ whole ∈ part.hunks, hunk.Continues whole

/-- A hunk is left when it has no lines to come, so no lines to come are lost. -/
theorem left_resume (part : DiffSection) (hunk : OpenHunk) (side : Side) :
    (part.resume hunk).left side = hunk.left side := by
  unfold resume
  by_cases hdone : hunk.isDone = true
  · simp [left, hdone, hunk.isDone_iff.1 hdone side]
  · simp [left, hdone]

theorem left_of_open {part : DiffSection} {hunk : OpenHunk} (h : part.openHunk = some hunk) (side : Side) :
    part.left side = hunk.left side := by
  simp [left, h]

theorem left_of_closed {part : DiffSection} (h : part.openHunk = none) (side : Side) : part.left side = 0 := by
  simp [left, h]

theorem eq_of_openHunk_resume {part : DiffSection} {hunk other : OpenHunk}
    (h : (part.resume hunk).openHunk = some other) : other = hunk := by
  unfold resume at h
  by_cases hdone : hunk.isDone = true
  · simp [hdone] at h
  · simpa [hdone] using h.symm

variable {part : DiffSection} {hunk next : OpenHunk}

theorem Accounted.start_hunk (h : part.Accounted) (hopen : part.openHunk = none) (whole : Hunk) :
    Accounted (resume { part with hunks := part.hunks ++ [whole] } (.start whole)) := by
  obtain ⟨context, hbalance⟩ := h.balance
  refine ⟨⟨context, fun side => ?_⟩, ?_, ?_⟩
  · have hcount : sumOf (·.count side) [whole] = (OpenHunk.start whole).left side := by
      cases side <;> rfl
    have hside := hbalance side
    rw [left_of_closed hopen] at hside
    rw [left_resume]
    show sumOf (·.count side) (part.hunks ++ [whole]) = context + (changedLines side part.changes).length + _
    rw [sumOf_append, hcount]
    omega
  · intro change hchange
    obtain ⟨other, hother, hcovers⟩ := h.covered change hchange
    exact ⟨other, List.mem_append_left _ hother, hcovers⟩
  · intro other hother
    obtain rfl := eq_of_openHunk_resume hother
    exact ⟨whole, List.mem_append_right _ List.mem_cons_self, OpenHunk.continues_start whole⟩

/-- A context line takes one line of either side. -/
theorem Accounted.context (h : part.Accounted) (hopen : part.openHunk = some hunk)
    (hcontext : hunk.context? = some next) : (part.resume next).Accounted := by
  obtain ⟨context, hbalance⟩ := h.balance
  obtain ⟨whole, hwhole, hcontinues⟩ := h.continues hunk hopen
  refine ⟨⟨context + 1, fun side => ?_⟩, h.covered, ?_⟩
  · have hside := hbalance side
    have hleft := left_of_open hopen side
    have hstep := OpenHunk.context?_eq_some hcontext side
    rw [left_resume]
    show sumOf (·.count side) part.hunks = context + 1 + (changedLines side part.changes).length + _
    omega
  · intro other hother
    obtain rfl := eq_of_openHunk_resume hother
    exact ⟨whole, hwhole, hcontinues.context hcontext⟩

/-- A changed line takes one line of its own side, the next one in the range of the hunk. -/
theorem Accounted.change (h : part.Accounted) (hopen : part.openHunk = some hunk) {side : Side} {line : Nat}
    (hchange : hunk.change? side = some (line, next)) (number run : Nat) :
    Accounted (resume { part with runs := run, changes := part.changes ++ [⟨side, line, number, run⟩] }
      next) := by
  obtain ⟨context, hbalance⟩ := h.balance
  obtain ⟨whole, hwhole, hcontinues⟩ := h.continues hunk hopen
  obtain ⟨hcovers, hnextContinues⟩ := hcontinues.change hchange
  obtain ⟨rfl, -, hleft, hothers⟩ := OpenHunk.change?_eq_some hchange
  refine ⟨⟨context, fun other => ?_⟩, ?_, ?_⟩
  · have hbefore := hbalance other
    have hopenLeft := left_of_open hopen other
    rw [left_resume]
    show sumOf (·.count other) part.hunks = context
      + (changedLines other (part.changes ++ [⟨side, hunk.next side, number, run⟩])).length + next.left other
    rw [changedLines_append, List.length_append]
    by_cases hother : other = side
    · subst hother
      have hone : (changedLines other [⟨other, hunk.next other, number, run⟩]).length = 1 := by
        simp [changedLines]
      omega
    · have hkept := hothers other hother
      have hnone : (changedLines other [⟨side, hunk.next side, number, run⟩]).length = 0 := by
        simp [changedLines, Ne.symm hother]
      omega
  · intro change hmem
    rcases List.mem_append.1 hmem with hold | hnew
    · exact h.covered change hold
    · rw [List.mem_singleton] at hnew
      subst hnew
      exact ⟨whole, hwhole, hcovers⟩
  · intro other hother
    obtain rfl := eq_of_openHunk_resume hother
    exact ⟨whole, hwhole, hnextContinues⟩

/-- A section that has not failed has its account. A fault drops the rest of a hunk, and the account with it. -/
theorem lasting_accounted : Lasting fun part => part.fault = none → part.Accounted where
  start _ _ _ _ := ⟨⟨0, fun _ => rfl⟩, fun _ hchange => absurd hchange List.not_mem_nil,
    fun _ hopen => absurd hopen.symm (Option.some_ne_none _)⟩
  oldFile _ _ h hfault := ⟨(h hfault).balance, (h hfault).covered, (h hfault).continues⟩
  newFile _ _ h hfault := ⟨(h hfault).balance, (h hfault).covered, (h hfault).continues⟩
  revisions _ _ h hfault := ⟨(h hfault).balance, (h hfault).covered, (h hfault).continues⟩
  hunk part number line ranges hopen h hfault := by
    unfold withHunk at hfault ⊢
    split
    · next hfailed =>
      rw [if_pos hfailed] at hfault
      exact h hfault
    · next hfine =>
      rw [Option.not_isSome_iff_eq_none] at hfine
      rw [if_neg (by simp [hfine])] at hfault
      cases ranges with
      | none => cases hfault
      | some whole => exact (h hfine).start_hunk hopen whole
  body part hunk number line hopen h hfault := by
    rcases part.body_cases hunk number line with hsame | ⟨next, hcontext, hbody⟩ |
      ⟨side, place, next, run, hchange, hbody⟩ | ⟨fault, hbody⟩
    · rw [hsame] at hfault ⊢
      exact h hfault
    · rw [hbody] at hfault ⊢
      exact (h hfault).context hopen hcontext
    · rw [hbody] at hfault ⊢
      exact (h hfault).change hopen hchange number run
    · rw [hbody] at hfault
      cases hfault
  fail _ _ _ _ hfault := by cases hfault

end DiffSection

/-! ## §2. Accounts of files. -/

/-- Every line of a block lies in the range of a hunk. -/
theorem DiffSection.Accounted.covers_of_mem {part : DiffSection} (h : part.Accounted) {side : Side}
    {blocks : List BlockDiff} (hperm : (blocks.flatMap (·.lines side)).Perm (changedLines side part.changes))
    {block : BlockDiff} (hblock : block ∈ blocks) {line : Nat} (hline : line ∈ block.lines side) :
    ∃ hunk ∈ part.hunks, hunk.Covers side line := by
  have hmem : line ∈ changedLines side part.changes :=
    hperm.subset (List.mem_flatMap.2 ⟨block, hblock, hline⟩)
  obtain ⟨change, hchange, rfl⟩ := List.mem_map.1 hmem
  obtain ⟨hrecorded, hside⟩ := List.mem_filter.1 hchange
  obtain rfl : change.side = side := of_decide_eq_true hside
  exact h.covered change hrecorded

/-- In every file of every diff, whatever the sources, the added lines and the lines that the hunks announce
    for the old file are as many as the deleted lines and the lines announced for the new file. Deleted lines
    lie in the old range of a hunk, added lines in the new range of one. -/
theorem FileDiff.lines_balance (text : String) (sources : SourceLookup) (file : FileDiff)
    (h : .ok file ∈ FileDiff.parse text sources) :
    sumOf (·.added.length) file.blocks + sumOf Hunk.oldCount file.hunks =
        sumOf (·.deleted.length) file.blocks + sumOf Hunk.newCount file.hunks
      ∧ (∀ block ∈ file.blocks, ∀ line ∈ block.deleted, ∃ hunk ∈ file.hunks,
          hunk.oldStart ≤ line ∧ line < hunk.oldStart + hunk.oldCount)
      ∧ (∀ block ∈ file.blocks, ∀ line ∈ block.added, ∃ hunk ∈ file.hunks,
          hunk.newStart ≤ line ∧ line < hunk.newStart + hunk.newCount) := by
  obtain ⟨part, hpart, hfile⟩ := List.mem_map.1 h
  obtain ⟨hfault, hhunks, hblocks⟩ := DiffSection.of_toFile hfile
  have haccount : part.Accounted := DiffScan.forall_mem_run DiffSection.lasting_accounted _ part hpart hfault
  have hclosed : part.openHunk = none := DiffScan.openHunk_of_mem_run _ part hpart
  have hperm := BlockDiff.perm_lines_ofChanges hblocks
  rw [hhunks]
  refine ⟨?_, ?_, ?_⟩
  · obtain ⟨context, hbalance⟩ := haccount.balance
    have hside : ∀ side, sumOf (·.count side) part.hunks =
        context + sumOf (fun block => (block.lines side).length) file.blocks := by
      intro side
      rw [hbalance side, DiffSection.left_of_closed hclosed, sumOf_length, (hperm side).length_eq, Nat.add_zero]
    have hold : sumOf Hunk.oldCount part.hunks = context + sumOf (·.deleted.length) file.blocks := hside .old
    have hnew : sumOf Hunk.newCount part.hunks = context + sumOf (·.added.length) file.blocks := hside .new
    omega
  · intro block hblock line hline
    exact haccount.covers_of_mem (hperm .old) hblock hline
  · intro block hblock line hline
    exact haccount.covers_of_mem (hperm .new) hblock hline

/-- A file with a context line, a mark that is no line, and a hunk that announces no line of the new file. -/
def FileDiff.twoHunks : String :=
  "--- a/X.java\n+++ b/X.java\n@@ -2,2 +2,3 @@\n-old\n+new\n+more\n keep\n\\ No newline at end of file\n"
    ++ "@@ -9 +10,0 @@\n-gone\n"

theorem FileDiff.lines_balance_twoHunks :
    ∃ file, .ok file ∈ FileDiff.parse twoHunks {}
      ∧ file.blocks.flatMap (·.deleted) = [2, 9] ∧ file.blocks.flatMap (·.added) = [2, 3]
      ∧ sumOf (·.added.length) file.blocks + sumOf Hunk.oldCount file.hunks =
        sumOf (·.deleted.length) file.blocks + sumOf Hunk.newCount file.hunks
      ∧ ∀ block ∈ file.blocks, ∀ line ∈ block.deleted, ∃ hunk ∈ file.hunks,
          hunk.oldStart ≤ line ∧ line < hunk.oldStart + hunk.oldCount := by
  have hread : .ok ⟨some "X.java", some "X.java", none, none, [⟨2, 2, 2, 3⟩, ⟨9, 1, 10, 0⟩],
      [⟨.modification, ⟨none, none, none, none⟩, [2], [2, 3]⟩,
        ⟨.deletion, ⟨none, none, none, none⟩, [9], []⟩]⟩ ∈ FileDiff.parse twoHunks {} := by
    decide +kernel
  obtain ⟨hbalance, hdeleted, -⟩ := FileDiff.lines_balance _ _ _ hread
  exact ⟨_, hread, rfl, rfl, hbalance, hdeleted⟩

end PatchPresence
