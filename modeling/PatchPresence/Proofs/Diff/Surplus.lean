/-
  PatchPresence.Proofs.Diff.Surplus — added lines that a hunk has no room for.

  Whether an added line too many is noticed depends on the other side of its hunk. While old lines are still to
  come the hunk is open, and the line is a fault. Once both counts are used up the hunk is closed, the line is
  read as a header, says nothing as one, and is dropped: the diff is read as if it did not hold the line.

  Main results:
    * `DiffScan.run_insert` — a line that says nothing changes the numbers of the lines behind it only.
    * `FileDiff.parse_surplus` — what becomes of a surplus line, in an open hunk and behind one.
-/
import PatchPresence.Proofs.Diff.Headers
import PatchPresence.Proofs.Diff.Renumbering

namespace PatchPresence

/-! ## §1. Lines that say nothing. -/

/-- An added line says nothing as a header, unless it names the new file. -/
theorem HeaderLine.read_of_plus {line : List Char} (hsign : line.head? = some '+')
    (hname : ¬ "+++ ".toList <+: line) : HeaderLine.read line = .other := by
  have hhead : ∀ {w : Char} {word rest : List Char}, Text.after? (w :: word) line = some rest → w = '+' := by
    intro w word rest hafter
    exact Option.some.inj ((Text.head?_of_after? hafter).symm.trans hsign)
  unfold HeaderLine.read
  split
  · next hafter => exact absurd (hhead hafter) (by decide)
  · split
    · next hafter => exact absurd (hhead hafter) (by decide)
    · split
      · next hafter => exact absurd (Text.isPrefix_of_after? hafter) hname
      · split
        · next hafter => exact absurd (hhead hafter) (by decide)
        · split
          · next hafter =>
            obtain ⟨rest, hrest⟩ := Option.isSome_iff_exists.1 hafter
            exact absurd (hhead hrest) (by decide)
          · rfl

/-- Number of a line of a diff into which a line is put behind the first `count` lines. -/
def numberPast (count number : Nat) : Nat := if number ≤ count then number else number + 1

namespace DiffScan

variable {scan : DiffScan} {front back : List (List Char)} {line : List Char}

theorem Closed.step_silent (h : scan.Closed) (hsilent : (HeaderLine.read line).isSilent = true) :
    scan.step line = { scan with lineCount := scan.lineCount + 1 } := by
  rw [h.step, header]
  cases hread : HeaderLine.read line with
  | other => rfl
  | revisions range =>
    cases range with
    | none => rfl
    | some range => simp [hread, HeaderLine.isSilent] at hsilent
  | _ => simp [hread, HeaderLine.isSilent] at hsilent

/-- Outside hunks, a line that says nothing does nothing but count. -/
theorem run_insert (hclosed : (front.foldl step {}).Closed)
    (hsilent : (HeaderLine.read line).isSilent = true) :
    run (front ++ line :: back)
      = (run (front ++ back)).map (DiffSection.renumber (numberPast front.length) 0) := by
  -- the lines before the inserted one keep their numbers, those behind it get the next ones
  have hbefore : ∀ n < front.length, numberPast front.length (n + 1) = n + 1 := fun n hn => if_pos hn
  have hbehind : ∀ n < back.length,
      numberPast front.length ((front.foldl step {}).lineCount + 1 + n) = front.length + 1 + 1 + n := by
    intro n _
    rw [lineCount_foldl_empty, numberPast, if_neg (by omega)]
    omega
  have hinserted : (front.foldl step {}).step line
      = (front.foldl step {}).renumber [] (numberPast front.length) 0 (front.length + 1) := by
    rw [hclosed.step_silent hsilent, lineCount_foldl_empty]
    exact congrArg (fun scan => { scan with lineCount := front.length + 1 })
      (foldl_step_eq_renumber (numberPast front.length) hbefore)
  unfold run
  rw [List.foldl_append, List.foldl_cons, hinserted, foldl_step_renumber _ _ _ (.inr rfl) hbehind,
    List.foldl_append, finish_renumber, List.nil_append]
  cases back with
  | nil => exact .inl hclosed
  | cons first back =>
    refine .inr ?_
    rw [lineCount_foldl, lineCount_foldl_empty, numberPast, if_neg (by simp)]
    omega

end DiffScan

/-! ## §2. Lines beyond the count of an open hunk. -/

namespace DiffSection

/-- A section with a hunk in progress has no fault. -/
theorem lasting_faultless : Lasting fun part => part.openHunk.isSome = true → part.fault = none where
  start _ _ _ _ := rfl
  oldFile _ _ h := h
  newFile _ _ h := h
  revisions _ _ h := h
  hunk part number line ranges _ h := by
    -- behind a fault no hunk is opened
    unfold withHunk
    split
    · exact h
    · next hfault =>
      cases ranges with
      | none =>
        intro hopen
        cases hopen
      | some hunk =>
        intro _
        exact Option.not_isSome_iff_eq_none.1 hfault
  body part hunk number line hopen h := by
    have hnone : part.fault = none := h (by rw [hopen]; rfl)
    rcases part.body_cases hunk number line with heq | ⟨next, -, heq⟩ | ⟨side, place, next, run, -, heq⟩ |
      ⟨fault, heq⟩
    · rw [heq]
      exact h
    · rw [heq]
      exact fun _ => hnone
    · rw [heq]
      exact fun _ => hnone
    · rw [heq]
      intro hopen
      cases hopen
  fail _ _ _ _ h := by cases h

theorem body_of_surplus (part : DiffSection) {hunk : OpenHunk} (hleft : hunk.newLeft = 0) (number : Nat)
    {line : List Char} (hsign : line.head? = some '+') :
    part.body hunk number line = part.fail number .bodyMismatch := by
  unfold body
  rw [hsign]
  show part.change hunk number .new = _
  rw [change, OpenHunk.change?, if_pos hleft]

end DiffSection

namespace DiffScan

variable {front : List (List Char)} {line : List Char} {part : DiffSection} {hunk : OpenHunk}

/-- An added line too many is a fault of its section while the hunk is open. -/
theorem faultAt_of_surplus (hcurrent : (front.foldl step {}).current = some part)
    (hopen : part.openHunk = some hunk) (hleft : hunk.newLeft = 0) (hsign : line.head? = some '+') :
    ((front.foldl step {}).step line).FaultAt (front.foldl step {}).done.length
      (front.length + 1, .bodyMismatch) := by
  have hmem : part ∈ (front.foldl step {}).sections :=
    List.mem_append_right _ (Option.mem_toList.2 hcurrent)
  have hnone : part.fault = none :=
    forall_mem_foldl DiffSection.lasting_faultless front part hmem (by rw [hopen]; rfl)
  have hat : (front.foldl step {}).IsAt (front.foldl step {}).done part := ⟨rfl, hcurrent⟩
  have hbody := hat.step_body hopen line
  rw [part.body_of_surplus hleft _ hsign, lineCount_foldl_empty] at hbody
  refine ⟨part.fail (front.length + 1) .bodyMismatch, ?_, ?_⟩
  · rw [hbody.sections]
    exact List.getElem?_concat_length
  · rw [DiffSection.fail, hnone]
    rfl

end DiffScan

/-! ## §3. Files. -/

namespace FileDiff

/-- An added line beyond what its hunk has room for. While old lines of the hunk are to come, the line fails its
    section. Behind the hunk, the files are those of the diff without the line; errors behind it name lines
    further down. -/
theorem parse_surplus {text : String} {front back : List (List Char)} {line : List Char}
    (sources : SourceLookup) (hlines : Text.lines text.toList = front ++ line :: back)
    (hsign : line.head? = some '+') (hname : ¬ "+++ ".toList <+: line) :
    (∀ part hunk, (front.foldl DiffScan.step {}).current = some part → part.openHunk = some hunk →
        hunk.newLeft = 0 →
        (parse text sources)[(front.foldl DiffScan.step {}).done.length]?
          = some (.error (.malformedDiff (front.length + 1) .bodyMismatch)))
      ∧ ((front.foldl DiffScan.step {}).Closed →
        parse text sources = (ofLines (front ++ back) sources).map
          (Except.mapError (AnalysisError.renumber (numberPast front.length)))) := by
  have hparse : parse text sources = ofLines (front ++ line :: back) sources := by
    rw [parse, hlines, ofLines]
  rw [hparse]
  constructor
  · intro part hunk hcurrent hopen hleft
    have hat := (DiffScan.faultAt_of_surplus hcurrent hopen hleft hsign).foldl back
    obtain ⟨failed, hfailed, hfault⟩ := hat.finish
    have hrun : (DiffScan.run (front ++ line :: back))[(front.foldl DiffScan.step {}).done.length]?
        = some failed := by
      rw [DiffScan.run, List.foldl_append, List.foldl_cons]
      exact hfailed
    rw [ofLines, List.getElem?_map, hrun, Option.map_some, DiffSection.toFile, hfault]
  · intro hclosed
    have hsilent : (HeaderLine.read line).isSilent = true := by
      rw [HeaderLine.read_of_plus hsign hname]
      rfl
    exact ofLines_of_run_eq (DiffScan.run_insert hclosed hsilent) sources

/-- An added line too many stands before the old line of its hunk. -/
def surplusInside : String := "--- a/X\n+++ b/X\n@@ -1 +1 @@\n+new\n+more\n-old\n"

/-- An added line too many stands behind its hunk, and a hunk that cannot be read behind that. -/
def surplusBehind : String := "--- a/X\n+++ b/X\n@@ -1 +1 @@\n-old\n+new\n+more\n@@ -9 @@\n"

theorem parse_surplus_inside_behind :
    (parse surplusInside {})[0]? = some (.error (.malformedDiff 5 .bodyMismatch))
      ∧ parse surplusBehind {} = (ofLines ["--- a/X".toList, "+++ b/X".toList, "@@ -1 +1 @@".toList,
          "-old".toList, "+new".toList, "@@ -9 @@".toList] {}).map
        (Except.mapError (AnalysisError.renumber (numberPast 5)))
      ∧ parse surplusBehind {} = [.error (.malformedDiff 7 (.unreadableHeader "@@ -9 @@"))] := by
  have hinside : Text.lines surplusInside.toList = ["--- a/X".toList, "+++ b/X".toList, "@@ -1 +1 @@".toList,
      "+new".toList] ++ "+more".toList :: ["-old".toList] := by decide +kernel
  have hbehind : Text.lines surplusBehind.toList = ["--- a/X".toList, "+++ b/X".toList, "@@ -1 +1 @@".toList,
      "-old".toList, "+new".toList] ++ "+more".toList :: ["@@ -9 @@".toList] := by decide +kernel
  refine ⟨(parse_surplus {} hinside rfl (by decide +kernel)).1 _ ⟨1, 2, 1, 0, true⟩ rfl rfl rfl,
    (parse_surplus {} hbehind rfl (by decide +kernel)).2 (by decide +kernel), ?_⟩
  exact (parse_ofList _ _).trans (by decide +kernel)

/-- A hunk with one added line more than its header announces. -/
def surplusAccepted : String := "--- a/X\n+++ b/X\n@@ -1 +1 @@\n-old\n+new\n+more\n"

/-- The counts of a hunk can disagree with its lines without being noticed. -/
theorem parse_surplus_accepted :
    parse surplusAccepted {} = [.ok ⟨some "X", some "X", none, none, [⟨1, 1, 1, 1⟩],
      [⟨.modification, ⟨none, none, none, none⟩, [1], [1]⟩]⟩] :=
  (parse_ofList _ _).trans (by decide +kernel)

end FileDiff

end PatchPresence
