/-
  PatchPresence.Patch.Coordinates — names of published artifacts.
-/
import PatchPresence.Text.Blank
import PatchPresence.Text.Cut

namespace PatchPresence

/-- Group, name and version of an artifact. -/
structure Coordinates where
  group : String
  artifact : String
  version : String
deriving DecidableEq, Repr

namespace Coordinates

/-- Reads three parts between colons; the version may be empty. -/
def parse? (text : String) : Option Coordinates :=
  match (Text.pieces ':' text.toList).map Text.trim with
  | [group, artifact, version] =>
    if group.isEmpty || artifact.isEmpty then none
    else some ⟨String.ofList group, String.ofList artifact, String.ofList version⟩
  | _ => none

/-- The parts with colons between them. -/
def text (coordinates : Coordinates) : String :=
  coordinates.group ++ ":" ++ coordinates.artifact ++ ":" ++ coordinates.version

end Coordinates

end PatchPresence
