/-
  PatchPresence.Patch.Report — whether an artifact has the patch of a vulnerability.
-/
import PatchPresence.Patch.Artifact
import PatchPresence.Patch.Coordinates
import PatchPresence.Patch.Reference

namespace PatchPresence

/-- A vulnerability and its patch. -/
structure Vulnerability where
  advisoryId : String
  artifact : Coordinates
  /-- Unified diff of the patch. -/
  diff : String
  /-- References that are known. -/
  methods : List ReferenceMethod
  /-- Sources on both sides of the patch, to derive references and to place changes. -/
  sources : Option SourcePair

/-- Verdict on one method. -/
structure MethodVerdict where
  /-- Key of the reference. -/
  method : String
  /-- Key of the method that it was compared with. -/
  target : Option String
  verdict : Verdict
  preScore : Option Float
  postScore : Option Float
  /-- Weight of the evidence. -/
  discriminating : Nat
  error : Option String
deriving DecidableEq, Repr

/-- Verdict on one vulnerability. -/
structure PatchReport where
  advisoryId : String
  artifact : String
  verdict : Verdict
  /-- Share of the decisive evidence that speaks for the patch. -/
  patchedRatio : Option Float
  methods : List MethodVerdict
  /-- Files and sources that could not be used. -/
  diffErrors : List String
deriving DecidableEq, Repr

/-! ## §1. One method. -/

namespace MethodVerdict

/-- Evidence that a method is there at all. -/
def presence (set : FeatureSet) : Nat := max set.size 1

/-- Verdict on a method that is not in the artifact. -/
def ofMissing (reference : ReferenceMethod) : Verdict × Nat :=
  match reference.pre, reference.post with
  | none, some post => (.vulnerable, presence post)
  | some pre, none => (.patched, presence pre)
  | _, _ => (.unmatched, 0)

/-- Verdict of comparing features with a reference. -/
def ofFeatures (reference : ReferenceMethod) (features : FeatureSet) (config : Config) :
    MethodVerdict :=
  let undecided : MethodVerdict :=
    ⟨reference.signature.key, none, .inconclusive, none, none, 0, none⟩
  match reference.pre, reference.post with
  | some pre, some post =>
    let outcome := MatchOutcome.compare features pre post config.margin config.weights
    { undecided with
      verdict := outcome.verdict
      preScore := some outcome.preScore
      postScore := some outcome.postScore
      discriminating := outcome.discriminating }
  | none, some post => { undecided with verdict := .patched, discriminating := presence post }
  | some pre, none => { undecided with verdict := .vulnerable, discriminating := presence pre }
  | none, none => undecided

/-- Verdict on a method of the artifact. -/
def judge (reference : ReferenceMethod) (artifact : TargetArtifact) (config : Config) :
    MethodVerdict :=
  let key := reference.signature.key
  match artifact.resolve? reference.signature with
  | none =>
    let (verdict, weight) := ofMissing reference
    ⟨key, none, verdict, none, none, weight, none⟩
  | some (found, .error error) =>
    ⟨key, some found.key, .inconclusive, none, none, 0, some error.message⟩
  | some (found, .ok features) =>
    { ofFeatures reference features config with target := some found.key }

end MethodVerdict

/-! ## §2. All methods. -/

/-- Evidence of decisive verdicts. -/
structure Evidence where
  patched : Float
  total : Float
deriving DecidableEq, Repr

namespace Evidence

/-- Adds a verdict with its weight. -/
def add (evidence : Evidence) (method : MethodVerdict) : Evidence :=
  let weight := Float.ofNat (max method.discriminating 1)
  ⟨if method.verdict = .patched then evidence.patched + weight else evidence.patched,
    evidence.total + weight⟩

/-- Evidence of all decisive verdicts of a list. -/
def ofMethods (methods : List MethodVerdict) : Evidence :=
  (methods.filter (·.verdict.isDecisive)).foldl add ⟨0.0, 0.0⟩

end Evidence

/-- Verdict on an artifact from those on its methods, with the share of the patched evidence. -/
def Verdict.aggregate (methods : List MethodVerdict) (threshold : Float) :
    Verdict × Option Float :=
  let evidence := Evidence.ofMethods methods
  if evidence.total == 0.0 then
    if !methods.isEmpty && methods.all (·.verdict = .unmatched) then (.unmatched, none)
    else (.inconclusive, none)
  else
    let ratio := evidence.patched / evidence.total
    if threshold ≤ ratio then (.patched, some ratio)
    else if ratio ≤ 1.0 - threshold then (.vulnerable, some ratio)
    else (.inconclusive, some ratio)

/-! ## §3. Sources. -/

namespace SourcePair

/-- Trees whose links are right. -/
def validTrees (trees : Table String SyntaxTree) : Table String SyntaxTree :=
  trees.filterValues fun tree => tree.validate.toBool

/-- What is wrong with the other trees, by path. -/
def treeErrors (trees : Table String SyntaxTree) : List String :=
  trees.values.filterMap fun tree =>
    match tree.validate with
    | .ok () => none
    | .error error => some error.message

/-- The trees whose links are right. -/
def valid (sources : SourcePair) : SourcePair := ⟨validTrees sources.pre, validTrees sources.post⟩

/-- What is wrong with the other trees. -/
def errors (sources : SourcePair) : List String :=
  treeErrors sources.pre ++ treeErrors sources.post

/-- Paths of all trees in ascending order. -/
def paths (sources : SourcePair) : List String :=
  Ascending.ofList (sources.pre.keys ++ sources.post.keys)

/-- References of the files that count, or why a file has none, by path. -/
def references (sources : SourcePair) (library : LibraryConstants) (config : Config) :
    List (String × Outcome (List ReferenceMethod)) :=
  (sources.paths.filter config.acceptsFile).map fun path =>
    (path, ReferenceMethod.ofTrees (sources.pre.get? path) (sources.post.get? path) library
      config.families)

end SourcePair

/-! ## §4. The report. -/

namespace PatchReport

/-- All references: those that are known, and for other methods those of the sources. -/
def references (known : List ReferenceMethod)
    (derived : List (String × Outcome (List ReferenceMethod))) :
    Table MethodSignature ReferenceMethod :=
  let others := derived.flatMap fun file =>
    match file.2 with
    | .ok methods => methods
    | .error _ => []
  others.foldl (fun table method => table.insertNew method.signature method)
    (.ofList (known.map fun method => (method.signature, method)))

/-- Why files have no references. -/
def referenceErrors (derived : List (String × Outcome (List ReferenceMethod))) : List String :=
  derived.filterMap fun file =>
    match file.2 with
    | .ok _ => none
    | .error error => some (file.1 ++ ": " ++ error.message)

/-- Methods that the files of a diff touch, in ascending order. -/
def touched (files : List (Outcome FileDiff)) (config : Config) : List MethodSignature :=
  Ascending.ofList <| files.flatMap fun
    | .ok file => if (file.path?.map config.acceptsFile).getD false then file.methods else []
    | .error _ => []

/-- Why files of a diff could not be read. -/
def fileErrors (files : List (Outcome FileDiff)) : List String :=
  files.filterMap fun
    | .ok _ => none
    | .error error => some error.message

/-- Report on one vulnerability. -/
def analyze (config : Config) (vulnerability : Vulnerability) (artifact : TargetArtifact) :
    PatchReport :=
  let given := vulnerability.sources.getD {}
  let sources := given.valid
  let derived := sources.references config.library config
  let known := references vulnerability.methods derived
  let files := FileDiff.parse vulnerability.diff sources
  let changed := touched files config
  let affected := if changed.isEmpty then known.keys else changed
  let methods := (affected.filterMap known.get?).map fun reference =>
    MethodVerdict.judge reference artifact config
  let (verdict, ratio) := Verdict.aggregate methods config.presenceThreshold
  { advisoryId := vulnerability.advisoryId
    artifact := vulnerability.artifact.text
    verdict
    patchedRatio := ratio
    methods
    diffErrors := given.errors ++ referenceErrors derived ++ fileErrors files }

/-- Reports on several vulnerabilities. -/
def analyzeAll (config : Config) (vulnerabilities : List Vulnerability)
    (artifact : TargetArtifact) : List PatchReport :=
  vulnerabilities.map fun vulnerability => analyze config vulnerability artifact

end PatchReport

end PatchPresence
