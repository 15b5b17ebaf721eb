/-
  PatchPresence.Exchange.Feature — reading feature sets.
-/
import PatchPresence.Exchange.Code
import PatchPresence.Feature.Set

namespace PatchPresence.Exchange

open Decoder

/-- Names of the shapes. -/
def shapeNames : List (String × Shape) :=
  [("Throw", .throwExit), ("Monitor", .monitor), ("Switch", .switch), ("InstanceOf", .instanceOf),
    ("Return", .returnExit), ("Loop", .loop), ("BranchLt", .branchLt), ("BranchLe", .branchLe),
    ("BranchGt", .branchGt), ("BranchGe", .branchGe), ("ShiftLeft", .shiftLeft),
    ("ShiftRight", .shiftRight), ("UnsignedShiftRight", .unsignedShiftRight)]

/-- Where features come from. -/
def origin : Decoder Origin := named [("Bytecode", .bytecode), ("Source", .source)]

/-- Counts by name; of equal names the last stays. -/
def counts : Decoder (Tally String) := fun json => (entries size json).map Table.ofList

/-- Counts of shapes. -/
def shapeCounts : Decoder (Tally Shape) := fun json => do
  let pairs ← entries size json
  return .ofList (← pairs.mapM fun (name, count) => do return (← shapeNames.lookup name, count))

/-- Counts of constants; those of equal constants add up. -/
def constantCounts : Decoder (Tally Constant) := fun json =>
  (list (pair constant size) json).map Tally.ofCounts

/-- A loop signature. -/
def loopSignature : Decoder LoopSignature := fun json => do
  let record ← fields ["depth", "constant_exits", "variable_exits", "call_exits"] json
  return ⟨← record.required "depth" size, ← record.required "constant_exits" size,
    ← record.required "variable_exits" size, ← record.required "call_exits" size⟩

/-- A feature set. -/
def featureSet : Decoder FeatureSet := fun json => do
  let record ← fields ["origin", "method", "shapes", "loops", "call_sites", "constants",
    "field_accesses", "object_creations"] json
  return {
    origin := ← record.required "origin" origin
    method := ← record.required "method" string
    shapes := ← record.withDefault "shapes" .empty shapeCounts
    loops := ← record.withDefault "loops" [] (list loopSignature)
    callSites := ← record.withDefault "call_sites" [] (list counts)
    constants := ← record.withDefault "constants" .empty constantCounts
    accesses := ← record.withDefault "field_accesses" .empty counts
    creations := ← record.withDefault "object_creations" .empty counts }

end PatchPresence.Exchange
