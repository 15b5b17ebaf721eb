/-
  PatchPresence.Exchange.Patch — reading vulnerabilities, and writing reports on them.
-/
import PatchPresence.Exchange.Feature
import PatchPresence.Exchange.Tree
import PatchPresence.Patch.Report

namespace PatchPresence.Exchange

open Decoder

/-! ## §1. Vulnerabilities. -/

/-- Source trees before and behind a patch. -/
def sourcePair (style : VariantStyle) : Decoder SourcePair := fun json => do
  let record ← fields ["pre", "post"] json
  return {
    pre := .ofList (← record.withDefault "pre" [] (entries (syntaxTree style)))
    post := .ofList (← record.withDefault "post" [] (entries (syntaxTree style))) }

/-- Names of an artifact. -/
def coordinates : Decoder Coordinates := fun json => do
  let record ← fields ["group", "artifact", "version"] json
  return ⟨← record.required "group" string, ← record.required "artifact" string,
    ← record.required "version" string⟩

/-- A reference. -/
def referenceMethod : Decoder ReferenceMethod := fun json => do
  let record ← fields ["signature", "pre", "post"] json
  return ⟨← record.required "signature" signature, ← record.optional "pre" featureSet,
    ← record.optional "post" featureSet⟩

/-- A vulnerability. -/
def vulnerability (style : VariantStyle) : Decoder Vulnerability := fun json => do
  let record ← fields ["advisory_id", "artifact", "diff", "methods", "sources"] json
  return {
    advisoryId := ← record.required "advisory_id" string
    artifact := ← record.required "artifact" coordinates
    diff := ← record.withDefault "diff" "" string
    methods := ← record.withDefault "methods" [] (list referenceMethod)
    sources := ← record.optional "sources" (sourcePair style) }

/-! ## §2. Reports. -/

/-- A floating-point number as a document. -/
def floatJson (value : Float) : Json := .number (.float value)

/-- Name of a verdict. -/
def verdictName : Verdict → String
  | .patched => "PATCHED"
  | .vulnerable => "VULNERABLE"
  | .inconclusive => "INCONCLUSIVE"
  | .unmatched => "UNMATCHED"

/-- A verdict on a method as a document. -/
def methodVerdictJson (method : MethodVerdict) : Json := .object [
  ("method", .string method.method),
  ("target", Json.ofOption Json.string method.target),
  ("verdict", .string (verdictName method.verdict)),
  ("pre_score", Json.ofOption floatJson method.preScore),
  ("post_score", Json.ofOption floatJson method.postScore),
  ("discriminating", Json.ofNat method.discriminating),
  ("error", Json.ofOption Json.string method.error)]

/-- A report as a document. -/
def reportJson (report : PatchReport) : Json := .object [
  ("advisory_id", .string report.advisoryId),
  ("artifact", .string report.artifact),
  ("verdict", .string (verdictName report.verdict)),
  ("patched_ratio", Json.ofOption floatJson report.patchedRatio),
  ("methods", Json.ofList methodVerdictJson report.methods),
  ("diff_errors", Json.ofList Json.string report.diffErrors)]

end PatchPresence.Exchange
