/-
  PatchPresence.Diff.Section — the file sections of a unified diff, line by line.

  A section collects the header, the hunks and the changed lines of one file. A fault closes the open
  hunk of its section; the lines after it are read as headers again, so that it stays with its section.
-/
import PatchPresence.Diff.Header
import PatchPresence.Error

namespace PatchPresence

/-! ## §1. Hunks in progress. -/

/-- Which file a changed line belongs to. -/
inductive Side
  | old
  | new
deriving DecidableEq, Repr

/-- One deleted or added line. -/
structure LineChange where
  side : Side
  /-- Line number in the file of that side. -/
  line : Nat
  /-- Line number in the diff. -/
  diffLine : Nat
  /-- Number of its run: changed lines without a context line between them share one. -/
  run : Nat
deriving DecidableEq, Repr

/-- A hunk whose lines are being read. Its lines are counted without a bound, so that hunks which start so near
    2^64 that a number of 64 bits cannot count them are left out. -/
structure OpenHunk where
  /-- Next line of the old file. -/
  oldLine : Nat
  /-- Next line of the new file. -/
  newLine : Nat
  /-- Lines of the old file still to come. -/
  oldLeft : Nat
  /-- Lines of the new file still to come. -/
  newLeft : Nat
  /-- Whether the line before was a changed line. It belongs to the hunk, since every hunk starts with false. -/
  inRun : Bool
deriving DecidableEq, Repr

namespace OpenHunk

/-- A hunk of which no line has been read. -/
def start (hunk : Hunk) : OpenHunk :=
  ⟨hunk.oldStart, hunk.newStart, hunk.oldCount, hunk.newCount, false⟩

/-- Whether no line is left. -/
def isDone (hunk : OpenHunk) : Bool := hunk.oldLeft = 0 && hunk.newLeft = 0

/-- The hunk behind a context line. -/
def context? (hunk : OpenHunk) : Option OpenHunk :=
  if hunk.oldLeft = 0 || hunk.newLeft = 0 then
    none
  else
    some ⟨hunk.oldLine + 1, hunk.newLine + 1, hunk.oldLeft - 1, hunk.newLeft - 1, false⟩

/-- Number of a changed line of a side, and the hunk behind it. -/
def change? (hunk : OpenHunk) : Side → Option (Nat × OpenHunk)
  | .old =>
    if hunk.oldLeft = 0 then none
    else some (hunk.oldLine,
      { hunk with oldLine := hunk.oldLine + 1, oldLeft := hunk.oldLeft - 1, inRun := true })
  | .new =>
    if hunk.newLeft = 0 then none
    else some (hunk.newLine,
      { hunk with newLine := hunk.newLine + 1, newLeft := hunk.newLeft - 1, inRun := true })

end OpenHunk

/-! ## §2. Sections. -/

/-- What is known of one file of a diff. -/
structure DiffSection where
  /-- Line of the diff at which the section starts. -/
  firstLine : Nat
  /-- Path after `---`. -/
  oldPath : Option String := none
  /-- Path after `+++`. -/
  newPath : Option String := none
  /-- Paths of the first line of the file. -/
  filePaths : Option (String × String) := none
  revisions : Option (String × String) := none
  /-- Whether there was a line `---`. -/
  hasOldHeader : Bool := false
  hunks : List Hunk := []
  changes : List LineChange := []
  /-- Number of runs of changed lines so far, those of the sections before it included. -/
  runs : Nat := 0
  /-- The hunk whose lines are being read. -/
  openHunk : Option OpenHunk := none
  /-- First fault, with its line in the diff. -/
  fault : Option (Nat × DiffFault) := none
deriving DecidableEq, Repr

namespace DiffSection

/-- Records a fault, unless there is one, and leaves the hunk. -/
def fail (part : DiffSection) (line : Nat) (fault : DiffFault) : DiffSection :=
  { part with openHunk := none, fault := some (part.fault.getD (line, fault)) }

/-- Goes on with a hunk, and leaves it when no line of it is left. -/
def resume (part : DiffSection) (hunk : OpenHunk) : DiffSection :=
  { part with openHunk := if hunk.isDone then none else some hunk }

/-- Records a changed line of a hunk. -/
def change (part : DiffSection) (hunk : OpenHunk) (diffLine : Nat) (side : Side) : DiffSection :=
  match hunk.change? side with
  | none => part.fail diffLine .bodyMismatch
  | some (line, next) =>
    let run := if hunk.inRun then part.runs else part.runs + 1
    resume { part with runs := run, changes := part.changes ++ [⟨side, line, diffLine, run⟩] } next

/-- Reads a line inside a hunk. -/
def body (part : DiffSection) (hunk : OpenHunk) (diffLine : Nat) (line : List Char) : DiffSection :=
  match line.head? with
  | some '\\' => part
  | some ' ' | none =>
    match hunk.context? with
    | some next => part.resume next
    | none => part.fail diffLine .contextBeyondHunk
  | some '-' => part.change hunk diffLine .old
  | some '+' => part.change hunk diffLine .new
  | some _ => part.fail diffLine .bodyMismatch

/-- Whether a line `---` still belongs to the section. -/
def awaitsOldHeader (part : DiffSection) : Bool := !part.hasOldHeader && part.hunks.isEmpty

/-- Records the path of the old file. -/
def withOldFile (part : DiffSection) (path : Option String) : DiffSection :=
  { part with hasOldHeader := true, oldPath := path }

/-- Reads a hunk header; behind a fault it is passed over. -/
def withHunk (part : DiffSection) (diffLine : Nat) (line : List Char) (ranges : Option Hunk) :
    DiffSection :=
  if part.fault.isSome then
    part
  else
    match ranges with
    | some hunk => resume { part with hunks := part.hunks ++ [hunk] } (.start hunk)
    | none => part.fail diffLine (.unreadableHeader (String.ofList line))

end DiffSection

/-! ## §3. The whole text. -/

/-- Sections read so far. -/
structure DiffScan where
  /-- Sections that are behind. -/
  done : List DiffSection := []
  /-- The section that lines go to. -/
  current : Option DiffSection := none
  /-- Number of lines read. -/
  lineCount : Nat := 0
deriving DecidableEq, Repr

namespace DiffScan

/-- All sections in order. -/
def sections (scan : DiffScan) : List DiffSection := scan.done ++ scan.current.toList

/-- Number of runs of changed lines so far. -/
def runs (scan : DiffScan) : Nat := (scan.current.map DiffSection.runs).getD 0

/-- Changes the current section. -/
def update (scan : DiffScan) (change : DiffSection → DiffSection) : DiffScan :=
  { scan with current := scan.current.map change }

/-- Starts a section. -/
def start (scan : DiffScan) (part : DiffSection) : DiffScan :=
  { scan with done := scan.sections, current := some part }

/-- Reads a line outside hunks. -/
def header (scan : DiffScan) (number : Nat) (line : List Char) : DiffScan :=
  match HeaderLine.read line with
  | .file paths => scan.start { firstLine := number, filePaths := paths, runs := scan.runs }
  | .oldFile path =>
    match scan.current with
    | some part =>
      if part.awaitsOldHeader then scan.update (·.withOldFile path)
      else scan.start (DiffSection.withOldFile { firstLine := number, runs := scan.runs } path)
    | none => scan.start (DiffSection.withOldFile { firstLine := number, runs := scan.runs } path)
  | .newFile path => scan.update ({ · with newPath := path })
  | .revisions (some range) => scan.update ({ · with revisions := some range })
  | .revisions none => scan
  | .hunk ranges =>
    match scan.current with
    | some _ => scan.update (·.withHunk number line ranges)
    | none => scan.start (DiffSection.withHunk { firstLine := number, runs := scan.runs } number line ranges)
  | .other => scan

/-- Reads a line. -/
def step (scan : DiffScan) (line : List Char) : DiffScan :=
  let number := scan.lineCount + 1
  let next := { scan with lineCount := number }
  match scan.current with
  | some part =>
    match part.openHunk with
    | some hunk => next.update (·.body hunk number line)
    | none => next.header number line
  | none => next.header number line

/-- The last section fails when the text ends inside one of its hunks. -/
def finish (scan : DiffScan) : List DiffSection :=
  (scan.update fun part =>
    if part.openHunk.isSome then part.fail scan.lineCount .unfinishedHunk else part).sections

/-- Sections of a diff given by its lines. -/
def run (lines : List (List Char)) : List DiffSection := (lines.foldl step {}).finish

end DiffScan

end PatchPresence
