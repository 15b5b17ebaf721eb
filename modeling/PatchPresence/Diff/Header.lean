/-
  PatchPresence.Diff.Header — the lines of a unified diff that stand between hunks.
-/
import PatchPresence.Text.Blank
import PatchPresence.Text.Cut

namespace PatchPresence

/-- Line ranges that a hunk covers in the old and in the new file. -/
structure Hunk where
  oldStart : Nat
  oldCount : Nat
  newStart : Nat
  newCount : Nat
deriving DecidableEq, Repr

/-- A line outside hunks. -/
inductive HeaderLine
  /-- First line of a file, with the paths that it names. -/
  | file (paths : Option (String × String))
  /-- Path of the old file; none when there is no old file. -/
  | oldFile (path : Option String)
  /-- Path of the new file; none when there is no new file. -/
  | newFile (path : Option String)
  /-- Revisions of the old and the new file. -/
  | revisions (range : Option (String × String))
  /-- Header of a hunk; none when it cannot be read. -/
  | hunk (ranges : Option Hunk)
  /-- Any other line. -/
  | other
deriving DecidableEq, Repr

namespace HeaderLine

/-- Paths in the rest of a line `diff --git a/x b/y`. -/
def filePaths (rest : List Char) : Option (String × String) := do
  let (old, new) ← Text.cut? " b/".toList rest
  return (String.ofList (Text.dropWord "a/".toList old), String.ofList new)

/-- Path in the rest of a line that starts with `---` or `+++`; what follows a tab is a time. -/
def path (rest : List Char) : Option String :=
  let path := Text.trimEnd (rest.takeWhile (· ≠ '\t'))
  if path = "/dev/null".toList then
    none
  else
    match Text.after? "a/".toList path with
    | some tail => some (String.ofList tail)
    | none => some (String.ofList (Text.dropWord "b/".toList path))

/-- Revisions in the rest of a line `index x..y mode`. -/
def revisionRange (rest : List Char) : Option (String × String) := do
  let (old, new) ← Text.cut? "..".toList (Text.firstWord rest)
  return (String.ofList old, String.ofList new)

/-- First line and number of lines of a range; a count that is left out is one. -/
def range? (text : List Char) : Option (Nat × Nat) :=
  match Text.cut? [','] text with
  | some (start, count) => do return (← Text.natural? start, ← Text.natural? count)
  | none => do return (← Text.natural? text, 1)

/-- Ranges of a line `@@ -a,b +c,d @@`. -/
def ranges? (line : List Char) : Option Hunk := do
  let body ← Text.after? "@@ ".toList line
  let (ranges, _) ← Text.cut? " @@".toList body
  let (old, new) ← Text.cut? [' '] ranges
  let (oldStart, oldCount) ← range? (← Text.after? ['-'] old)
  let (newStart, newCount) ← range? (← Text.after? ['+'] new)
  return ⟨oldStart, oldCount, newStart, newCount⟩

/-- What a line outside hunks says. -/
def read (line : List Char) : HeaderLine :=
  match Text.after? "diff --git ".toList line with
  | some rest => .file (filePaths rest)
  | none =>
    match Text.after? "--- ".toList line with
    | some rest => .oldFile (path rest)
    | none =>
      match Text.after? "+++ ".toList line with
      | some rest => .newFile (path rest)
      | none =>
        match Text.after? "index ".toList line with
        | some rest => .revisions (revisionRange rest)
        | none => if (Text.after? "@@".toList line).isSome then .hunk (ranges? line) else .other

end HeaderLine

end PatchPresence
