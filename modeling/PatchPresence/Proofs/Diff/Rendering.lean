/-
  PatchPresence.Proofs.Diff.Rendering — unified diffs as they are written, and how their headers are read.

  A written diff is a list of files with their hunks. Line counts are not part of it: they follow from the
  lines of a hunk, so that a header never disagrees with what stands below it.

  Main results:
    * `UnifiedFile.read_oldText`, `UnifiedFile.read_newText` — the paths of a file are read back.
    * `UnifiedHunk.read_header` — the ranges of a hunk header are read back.
    * `UnifiedFile.lines_render` — the lines of a written diff are read back, up to carriage returns.
-/
import Mathlib.Data.List.TakeWhile
import PatchPresence.Diff.Section
import PatchPresence.Proofs.Text.Cut

namespace PatchPresence

/-! ## §1. Written diffs. -/

/-- A line of a hunk: a context line, or a line that only the file of one side has. -/
structure UnifiedLine where
  /-- The side of a deleted or inserted line; none for a context line. -/
  side? : Option Side
  content : String
  oneLine : '\n' ∉ content.toList

namespace UnifiedLine

/-- Whether the file of a side has the line. -/
def standsIn (side : Side) (line : UnifiedLine) : Bool := line.side? = none || line.side? = some side

/-- Whether only the file of a side has the line. -/
def changes (side : Side) (line : UnifiedLine) : Bool := line.side? = some side

/-- The character that stands before the content. -/
def sign (line : UnifiedLine) : Char :=
  match line.side? with
  | none => ' '
  | some .old => '-'
  | some .new => '+'

def text (line : UnifiedLine) : List Char := line.sign :: line.content.toList

theorem exists_standsIn (line : UnifiedLine) : ∃ side, line.standsIn side = true := by
  cases hline : line.side? with
  | none => exact ⟨.old, by simp [standsIn, hline]⟩
  | some side => exact ⟨side, by simp [standsIn, hline]⟩

/-- Numbers of the lines that only the file of a side has, when the lines of that file are numbered
    from `start` on. -/
def changedNumbers (side : Side) (start : Nat) (lines : List UnifiedLine) : List Nat :=
  (((lines.filter (standsIn side)).zipIdx start).filter fun numbered => numbered.1.changes side).map
    Prod.snd

theorem changedNumbers_cons (side : Side) (start : Nat) (line : UnifiedLine) (lines : List UnifiedLine) :
    changedNumbers side start (line :: lines) =
      (if line.changes side then [start] else []) ++
        changedNumbers side (start + if line.standsIn side then 1 else 0) lines := by
  have hstands : line.changes side = true → line.standsIn side = true := by
    intro hchanges
    rw [standsIn, Bool.or_eq_true]
    exact Or.inr hchanges
  by_cases hline : line.standsIn side = true
  · by_cases hchanges : line.changes side = true
    · simp [changedNumbers, hline, hchanges, List.zipIdx_cons]
    · simp [changedNumbers, hline, hchanges, List.zipIdx_cons]
  · have hchanges : ¬ line.changes side = true := fun h => hline (hstands h)
    simp [changedNumbers, hline, hchanges]

end UnifiedLine

/-- A range of lines in a hunk header. -/
def rangeText (start count : Nat) : List Char := Text.numeral start ++ ',' :: Text.numeral count

/-- The header of a hunk. -/
def Hunk.text (ranges : Hunk) : List Char :=
  "@@ ".toList ++ ('-' :: rangeText ranges.oldStart ranges.oldCount ++
    ' ' :: '+' :: (rangeText ranges.newStart ranges.newCount ++ " @@".toList))

/-- A hunk: where it starts in both files, and its lines. -/
structure UnifiedHunk where
  start : Side → Nat
  lines : List UnifiedLine
  fits : ∀ side, start side + lines.countP (·.standsIn side) < UInt64.size

namespace UnifiedHunk

/-- Number of lines of the hunk in the file of a side. -/
def count (hunk : UnifiedHunk) (side : Side) : Nat := hunk.lines.countP (·.standsIn side)

/-- Line ranges of the hunk. -/
def ranges (hunk : UnifiedHunk) : Hunk :=
  ⟨hunk.start .old, hunk.count .old, hunk.start .new, hunk.count .new⟩

/-- Numbers of the deleted or inserted lines. -/
def changedNumbers (hunk : UnifiedHunk) (side : Side) : List Nat :=
  UnifiedLine.changedNumbers side (hunk.start side) hunk.lines

def texts (hunk : UnifiedHunk) : List (List Char) :=
  hunk.ranges.text :: hunk.lines.map UnifiedLine.text

end UnifiedHunk

/-- A changed file: its path before and behind the patch, and its hunks. -/
structure UnifiedFile where
  path : String
  hunks : List UnifiedHunk
  nonempty : path ≠ ""
  noTab : '\t' ∉ path.toList
  oneLine : '\n' ∉ path.toList
  noBlankEnd : ∀ last ∈ path.toList.getLast?, Text.isBlank last = false

namespace UnifiedFile

def firstText (file : UnifiedFile) : List Char :=
  "diff --git a/".toList ++ file.path.toList ++ " b/".toList ++ file.path.toList

def oldText (file : UnifiedFile) : List Char := "--- a/".toList ++ file.path.toList

def newText (file : UnifiedFile) : List Char := "+++ b/".toList ++ file.path.toList

/-- Numbers of the deleted or inserted lines of all hunks. -/
def changedNumbers (file : UnifiedFile) (side : Side) : List Nat :=
  file.hunks.flatMap (·.changedNumbers side)

def texts (file : UnifiedFile) : List (List Char) :=
  [file.firstText, file.oldText, file.newText] ++ file.hunks.flatMap UnifiedHunk.texts

/-- The text of a diff. -/
def render (files : List UnifiedFile) : String := String.ofList (Text.unlines (files.flatMap texts))

/-! ## §2. Reading the paths of a file. -/

theorem exists_concat (file : UnifiedFile) :
    ∃ front last, file.path.toList = front ++ [last] ∧ Text.isBlank last = false := by
  rcases List.eq_nil_or_concat file.path.toList with hnil | ⟨front, last, hconcat⟩
  · exact absurd (String.toList_eq_nil_iff.1 hnil) file.nonempty
  · rw [List.concat_eq_append] at hconcat
    refine ⟨front, last, hconcat, file.noBlankEnd last ?_⟩
    rw [hconcat, List.getLast?_concat]
    rfl

/-- A line that ends with the path is read with all its characters. -/
theorem chomp_append_path (file : UnifiedFile) (front : List Char) :
    Text.chomp (front ++ file.path.toList) = front ++ file.path.toList := by
  obtain ⟨pathFront, last, hpath, hblank⟩ := file.exists_concat
  have hlast : last ≠ '\r' := by
    rintro rfl
    exact absurd hblank (by decide)
  rw [hpath, ← List.append_assoc, Text.chomp_concat hlast]

/-- Nothing of the path is taken for a time or for white space at the end. -/
theorem trimEnd_takeWhile_path (file : UnifiedFile) {mark : List Char} (h : '\t' ∉ mark) :
    Text.trimEnd ((mark ++ file.path.toList).takeWhile (· ≠ '\t')) = mark ++ file.path.toList := by
  have hnoTab : ∀ c ∈ mark ++ file.path.toList, (decide (c ≠ '\t')) = true := by
    intro c hc
    refine decide_eq_true ?_
    rintro rfl
    exact (List.mem_append.1 hc).elim h file.noTab
  rw [List.takeWhile_eq_self_iff.2 hnoTab]
  obtain ⟨front, last, hpath, hblank⟩ := file.exists_concat
  rw [hpath, ← List.append_assoc, Text.trimEnd_concat hblank]

theorem path_old (file : UnifiedFile) :
    HeaderLine.path ("a/".toList ++ file.path.toList) = some file.path := by
  have htrim := file.trimEnd_takeWhile_path (by decide : '\t' ∉ "a/".toList)
  have hfile : "a/".toList ++ file.path.toList ≠ "/dev/null".toList :=
    fun heq => absurd (List.cons.inj heq).1 (by decide)
  simp only [HeaderLine.path, htrim]
  rw [if_neg hfile, Text.after?_append]
  exact congrArg some String.ofList_toList

theorem path_new (file : UnifiedFile) :
    HeaderLine.path ("b/".toList ++ file.path.toList) = some file.path := by
  have htrim := file.trimEnd_takeWhile_path (by decide : '\t' ∉ "b/".toList)
  have hmark : Text.after? "a/".toList ("b/".toList ++ file.path.toList) = none := rfl
  have hfile : "b/".toList ++ file.path.toList ≠ "/dev/null".toList :=
    fun heq => absurd (List.cons.inj heq).1 (by decide)
  simp only [HeaderLine.path, htrim]
  rw [if_neg hfile, hmark, Text.dropWord, Text.after?_append, Option.getD_some, String.ofList_toList]

theorem read_firstText (file : UnifiedFile) : ∃ paths, HeaderLine.read file.firstText = .file paths :=
  ⟨_, rfl⟩

theorem read_oldText (file : UnifiedFile) : HeaderLine.read file.oldText = .oldFile (some file.path) :=
  congrArg HeaderLine.oldFile file.path_old

theorem read_newText (file : UnifiedFile) : HeaderLine.read file.newText = .newFile (some file.path) :=
  congrArg HeaderLine.newFile file.path_new

end UnifiedFile

/-! ## §3. Reading the header of a hunk. -/

theorem notMem_rangeText {c : Char} (hdigit : c.isDigit = false) (hcomma : c ≠ ',') (start count : Nat) :
    c ∉ rangeText start count := by
  rw [rangeText, List.mem_append, List.mem_cons]
  rintro (hstart | heq | hcount)
  · exact Text.notMem_numeral hdigit start hstart
  · exact hcomma heq
  · exact Text.notMem_numeral hdigit count hcount

theorem range?_rangeText {start count : Nat} (hstart : start < UInt64.size) (hcount : count < UInt64.size) :
    HeaderLine.range? (rangeText start count) = some (start, count) := by
  have hcut : Text.cut? [','] (rangeText start count) = some (Text.numeral start, Text.numeral count) :=
    Text.cut?_append (Text.notMem_numeral (by decide) start) [] _
  rw [HeaderLine.range?, hcut]
  simp [Text.natural?_numeral hstart, Text.natural?_numeral hcount]

namespace Hunk

theorem chomp_text (ranges : Hunk) : Text.chomp ranges.text = ranges.text := by
  have hshape : ∀ mark old new : List Char, mark ++ ('-' :: old ++ ' ' :: '+' :: (new ++ " @@".toList)) =
      mark ++ ('-' :: old ++ ' ' :: '+' :: (new ++ " @".toList)) ++ ['@'] := by
    intro mark old new
    simp
  exact (congrArg Text.chomp (hshape _ _ _)).trans
    ((Text.chomp_concat (by decide) _).trans (hshape _ _ _).symm)

/-- The ranges end at the second blank: the first one has a plus sign behind it. -/
theorem cut?_ranges (old new : List Char) (hold : ' ' ∉ old) (hnew : ' ' ∉ new) :
    Text.cut? " @@".toList (old ++ ' ' :: '+' :: (new ++ " @@".toList)) =
      some (old ++ ' ' :: '+' :: new, []) := by
  have hplus : ' ' ∉ '+' :: new := by
    rw [List.mem_cons]
    exact not_or.2 ⟨by decide, hnew⟩
  have hsecond : Text.cut? " @@".toList ('+' :: new ++ " @@".toList) = some ('+' :: new, []) :=
    Text.cut?_append hplus "@@".toList []
  have hfirst : Text.after? " @@".toList (' ' :: '+' :: (new ++ " @@".toList)) = none := rfl
  show Text.cut? (' ' :: "@@".toList) _ = _
  rw [Text.cut?_skip hold]
  show (Text.cut? " @@".toList _).map _ = _
  rw [Text.cut?_cons_of_after?_eq_none hfirst, ← List.cons_append, hsecond]
  rfl

theorem ranges?_of_ranges {old new : List Char} {oldStart oldCount newStart newCount : Nat}
    (hold : ' ' ∉ old) (hnew : ' ' ∉ new) (holdRange : HeaderLine.range? old = some (oldStart, oldCount))
    (hnewRange : HeaderLine.range? new = some (newStart, newCount)) :
    HeaderLine.ranges? ("@@ ".toList ++ ('-' :: old ++ ' ' :: '+' :: (new ++ " @@".toList))) =
      some ⟨oldStart, oldCount, newStart, newCount⟩ := by
  have hminus : ' ' ∉ '-' :: old := by
    rw [List.mem_cons]
    exact not_or.2 ⟨by decide, hold⟩
  have hends := cut?_ranges ('-' :: old) new hminus hnew
  have hsides : Text.cut? [' '] ('-' :: old ++ ' ' :: '+' :: new) = some ('-' :: old, '+' :: new) :=
    Text.cut?_append hminus [] ('+' :: new)
  have holdText : Text.after? ['-'] ('-' :: old) = some old := Text.after?_append ['-'] old
  have hnewText : Text.after? ['+'] ('+' :: new) = some new := Text.after?_append ['+'] new
  rw [HeaderLine.ranges?, Text.after?_append]
  simp only [hends, hsides, holdText, holdRange, hnewText, hnewRange, Option.bind_eq_bind,
    Option.bind_some, pure]

theorem read_text {ranges : Hunk} (holdStart : ranges.oldStart < UInt64.size)
    (holdCount : ranges.oldCount < UInt64.size) (hnewStart : ranges.newStart < UInt64.size)
    (hnewCount : ranges.newCount < UInt64.size) : HeaderLine.read ranges.text = .hunk (some ranges) := by
  have hblank : ∀ start count, ' ' ∉ rangeText start count := notMem_rangeText (by decide) (by decide)
  have hread : HeaderLine.read ranges.text = .hunk (HeaderLine.ranges? ranges.text) := rfl
  rw [hread]
  exact congrArg HeaderLine.hunk (ranges?_of_ranges (hblank _ _) (hblank _ _)
    (range?_rangeText holdStart holdCount) (range?_rangeText hnewStart hnewCount))

end Hunk

theorem UnifiedHunk.read_header (hunk : UnifiedHunk) :
    HeaderLine.read hunk.ranges.text = .hunk (some hunk.ranges) := by
  have hfits : ∀ side, hunk.start side < UInt64.size ∧ hunk.count side < UInt64.size := by
    intro side
    have hside : hunk.start side + hunk.count side < UInt64.size := hunk.fits side
    omega
  exact Hunk.read_text (hfits .old).1 (hfits .old).2 (hfits .new).1 (hfits .new).2

/-! ## §4. The lines of a written diff. -/

/-- A line of a hunk keeps its sign when it is read. -/
theorem UnifiedLine.head?_chomp_text (line : UnifiedLine) :
    (Text.chomp line.text).head? = some line.sign := by
  have hsign : line.sign ≠ '\r' := by
    unfold sign
    split <;> decide
  exact Text.head?_chomp_cons hsign line.content.toList

theorem UnifiedLine.newline_notMem_text (line : UnifiedLine) : '\n' ∉ line.text := by
  have hsign : '\n' ≠ line.sign := by
    unfold sign
    split <;> decide
  rw [text, List.mem_cons]
  exact not_or.2 ⟨hsign, line.oneLine⟩

theorem UnifiedHunk.newline_notMem_texts (hunk : UnifiedHunk) : ∀ text ∈ hunk.texts, '\n' ∉ text := by
  have hrange : ∀ start count, '\n' ∉ rangeText start count := notMem_rangeText (by decide) (by decide)
  intro text htext
  rcases List.mem_cons.1 htext with rfl | hline
  · simp [Hunk.text, hrange]
  · obtain ⟨line, -, rfl⟩ := List.mem_map.1 hline
    exact line.newline_notMem_text

theorem UnifiedFile.newline_notMem_texts (file : UnifiedFile) : ∀ text ∈ file.texts, '\n' ∉ text := by
  have hpath : ∀ front, '\n' ∉ front → '\n' ∉ front ++ file.path.toList := by
    intro front hfront hmem
    exact (List.mem_append.1 hmem).elim hfront file.oneLine
  have hsecond : '\n' ∉ "diff --git a/".toList ++ file.path.toList ++ " b/".toList := by
    intro hmem
    exact (List.mem_append.1 hmem).elim (hpath _ (by decide)) (by decide)
  have hheader : ∀ text ∈ [file.firstText, file.oldText, file.newText], '\n' ∉ text :=
    List.forall_mem_cons.2 ⟨hpath _ hsecond, List.forall_mem_cons.2 ⟨hpath _ (by decide),
      List.forall_mem_singleton.2 (hpath _ (by decide))⟩⟩
  intro text htext
  rcases List.mem_append.1 htext with hmem | hmem
  · exact hheader text hmem
  · obtain ⟨hunk, -, hmem⟩ := List.mem_flatMap.1 hmem
    exact hunk.newline_notMem_texts text hmem

theorem UnifiedFile.lines_render (files : List UnifiedFile) :
    Text.lines (render files).toList = (files.flatMap texts).map Text.chomp := by
  rw [render, String.toList_ofList]
  apply Text.lines_unlines
  intro text htext
  obtain ⟨file, -, hmem⟩ := List.mem_flatMap.1 htext
  exact file.newline_notMem_texts text hmem

end PatchPresence
