/-
  PatchPresence.Diff.File — the files of a unified diff, with changed lines placed in source blocks.
-/
import PatchPresence.Data.Ascending
import PatchPresence.Data.Table
import PatchPresence.Diff.Section
import PatchPresence.Source.Tree

namespace PatchPresence

/-! ## §1. Changes of a file. -/

/-- How a block changes. -/
inductive ChangeKind
  | addition
  | deletion
  | modification
deriving DecidableEq, Repr

/-- Smallest scope around a change in either tree. -/
structure BlockRef where
  pre : Option Nat
  post : Option Nat
  /-- Label shared by corresponding scopes of both trees. -/
  label : Option String
  method : Option MethodSignature
deriving DecidableEq, Repr

/-- Changed lines of one block. -/
structure BlockDiff where
  kind : ChangeKind
  block : BlockRef
  /-- Lines of the old file that are removed. -/
  deleted : List Nat
  /-- Lines of the new file that are added. -/
  added : List Nat
deriving DecidableEq, Repr

/-- Changes of one file. -/
structure FileDiff where
  /-- None when the patch creates the file. -/
  oldPath : Option String
  /-- None when the patch deletes the file. -/
  newPath : Option String
  oldRevision : Option String
  newRevision : Option String
  hunks : List Hunk
  blocks : List BlockDiff
deriving DecidableEq, Repr

namespace FileDiff

/-- Path behind the patch, or before it for a deleted file. -/
def path? (file : FileDiff) : Option String := file.newPath.or file.oldPath

/-- Methods that the changes touch, each once, in ascending order. -/
def methods (file : FileDiff) : List MethodSignature :=
  Ascending.ofList (file.blocks.filterMap (·.block.method))

end FileDiff

/-- Where the syntax trees before and behind a patch are looked up by path. No tree is known unless one
    is given. -/
structure SourceLookup where
  preTree? : String → Option SyntaxTree := fun _ => none
  postTree? : String → Option SyntaxTree := fun _ => none

/-- Source trees before and behind a patch by path. -/
structure SourcePair where
  pre : Table String SyntaxTree := .empty
  post : Table String SyntaxTree := .empty

/-- Lookup in the tables of both sides. -/
def SourcePair.lookup (sources : SourcePair) : SourceLookup := ⟨sources.pre.get?, sources.post.get?⟩

instance : Coe SourcePair SourceLookup := ⟨SourcePair.lookup⟩

/-! ## §2. Segments. -/

/-- Consecutive changed lines of one side in one scope. -/
structure Segment where
  scope : Option Nat
  label : Option String
  method : Option MethodSignature
  lines : List Nat
deriving DecidableEq, Repr

/-- A changed line with the scope around it. -/
structure PlacedLine where
  line : Nat
  scope : Option Nat
deriving DecidableEq, Repr

/-- Places a changed line in a tree; without a tree there is no scope. -/
def LineChange.place (tree : Option SyntaxTree) (change : LineChange) : Outcome PlacedLine :=
  match tree with
  | none => .ok ⟨change.line, none⟩
  | some tree =>
    if change.line = 0 || tree.lineCount < change.line then
      .error (.malformedDiff change.diffLine (.lineOutsideSource change.line tree.path tree.lineCount))
    else
      .ok ⟨change.line, tree.enclosingBlock? change.line⟩

/-- Segment of lines that share a scope. -/
def Segment.of (tree : Option SyntaxTree) (scope : Option Nat) (lines : List Nat) : Segment where
  scope := scope
  label := do (← tree).blockLabel? (← scope)
  method := do
    let tree ← tree
    tree.methodSignature? (← tree.enclosingMethod? (← scope))
  lines := lines

/-- Segments of the lines of a side. -/
def segments (changes : List LineChange) (side : Side) (tree : Option SyntaxTree) :
    Outcome (List Segment) := do
  let placed ← (changes.filter (·.side = side)).mapM (LineChange.place tree)
  return (placed.splitBy fun a b => a.scope == b.scope).map fun group =>
    .of tree (group.head?.bind PlacedLine.scope) (group.map PlacedLine.line)

/-! ## §3. Blocks. -/

/-- The first element with a property, and the others. -/
def extract? {α : Type} (p : α → Bool) : List α → Option (α × List α)
  | [] => none
  | a :: rest =>
    if p a then some (a, rest)
    else (extract? p rest).map fun found => (found.1, a :: found.2)

namespace BlockDiff

/-- Lines added to a scope. -/
def ofAddition (added : Segment) : BlockDiff :=
  ⟨.addition, ⟨none, added.scope, added.label, added.method⟩, [], added.lines⟩

/-- Lines removed from a scope. -/
def ofDeletion (deleted : Segment) : BlockDiff :=
  ⟨.deletion, ⟨deleted.scope, none, deleted.label, deleted.method⟩, deleted.lines, []⟩

/-- Lines replaced in a scope. -/
def ofModification (deleted added : Segment) : BlockDiff :=
  ⟨.modification, ⟨deleted.scope, added.scope, added.label, added.method.or deleted.method⟩,
    deleted.lines, added.lines⟩

/-- Blocks of a run: a deletion and the first addition left with its label make a modification. -/
def pair : List Segment → List Segment → List BlockDiff
  | [], additions => additions.map ofAddition
  | deleted :: deletions, additions =>
    match extract? (·.label == deleted.label) additions with
    | some (added, rest) => ofModification deleted added :: pair deletions rest
    | none => ofDeletion deleted :: pair deletions additions

/-- Joins neighbours that change the same block in the same way. -/
def merge : List BlockDiff → List BlockDiff
  | [] => []
  | first :: rest =>
    match merge rest with
    | [] => [first]
    | next :: others =>
      if first.kind = next.kind ∧ first.block = next.block then
        { first with deleted := first.deleted ++ next.deleted, added := first.added ++ next.added }
          :: others
      else
        first :: next :: others

/-- Blocks of one run of changed lines. -/
def ofRun (pre post : Option SyntaxTree) (changes : List LineChange) : Outcome (List BlockDiff) := do
  let deletions ← segments changes .old pre
  let additions ← segments changes .new post
  return pair deletions additions

/-- Blocks of all changed lines of a file. -/
def ofChanges (pre post : Option SyntaxTree) (changes : List LineChange) :
    Outcome (List BlockDiff) := do
  let runs ← (changes.splitBy fun a b => a.run == b.run).mapM (ofRun pre post)
  return merge runs.flatten

end BlockDiff

/-! ## §4. Files. -/

/-- The file of a section. -/
def DiffSection.toFile (sources : SourceLookup) (part : DiffSection) : Outcome FileDiff :=
  match part.fault with
  | some (line, fault) => .error (.malformedDiff line fault)
  | none =>
    let oldPath := if part.hasOldHeader then part.oldPath else part.filePaths.map Prod.fst
    let newPath := if part.hasOldHeader then part.newPath else part.filePaths.map Prod.snd
    if oldPath.isNone && newPath.isNone && !part.hunks.isEmpty then
      .error (.malformedDiff part.firstLine .missingFileHeader)
    else do
      let blocks ← BlockDiff.ofChanges (oldPath.bind sources.preTree?)
        (newPath.bind sources.postTree?) part.changes
      return ⟨oldPath, newPath, part.revisions.map Prod.fst, part.revisions.map Prod.snd,
        part.hunks, blocks⟩

/-- Files of a diff, each read or failed by itself. -/
def FileDiff.parse (text : String) (sources : SourceLookup) : List (Outcome FileDiff) :=
  (DiffScan.run (Text.lines text.toList)).map (DiffSection.toFile sources)

end PatchPresence
