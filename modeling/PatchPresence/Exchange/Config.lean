/-
  PatchPresence.Exchange.Config — reading settings; what is left out keeps its default.
-/
import PatchPresence.Config
import PatchPresence.Exchange.Code

namespace PatchPresence.Exchange

open Decoder

/-- Families of features. -/
def families : Decoder Families := fun json => do
  let record ← fields ["call_sites", "constants", "loops", "shapes", "field_accesses",
    "object_creations"] json
  let default : Families := {}
  return {
    callSites := ← record.withDefault "call_sites" default.callSites bool
    constants := ← record.withDefault "constants" default.constants bool
    loops := ← record.withDefault "loops" default.loops bool
    shapes := ← record.withDefault "shapes" default.shapes bool
    accesses := ← record.withDefault "field_accesses" default.accesses bool
    creations := ← record.withDefault "object_creations" default.creations bool }

/-- Weights of the families. -/
def weights : Decoder Weights := fun json => do
  let record ← fields ["call_sites", "constants", "loops", "shapes", "accesses"] json
  let default : Weights := {}
  return {
    callSites := ← record.withDefault "call_sites" default.callSites float
    constants := ← record.withDefault "constants" default.constants float
    loops := ← record.withDefault "loops" default.loops float
    shapes := ← record.withDefault "shapes" default.shapes float
    accesses := ← record.withDefault "accesses" default.accesses float }

/-- Settings. -/
def config : Decoder Config := fun json => do
  let record ← fields ["iteration_cap_factor", "strict_opcodes", "features", "weights", "margin",
    "presence_threshold", "library_constants", "source_root", "ignored_files"] json
  let default : Config := {}
  return {
    capFactor := ← record.withDefault "iteration_cap_factor" default.capFactor size
    strict := ← record.withDefault "strict_opcodes" default.strict bool
    families := ← record.withDefault "features" default.families families
    weights := ← record.withDefault "weights" default.weights weights
    margin := ← record.withDefault "margin" default.margin float
    presenceThreshold := ← record.withDefault "presence_threshold" default.presenceThreshold float
    libraryConstants := .ofList (← record.withDefault "library_constants" [] (entries constant))
    sourceRoot := ← record.optional "source_root" string
    ignoredFiles := ← record.withDefault "ignored_files" default.ignoredFiles (list string) }

end PatchPresence.Exchange
