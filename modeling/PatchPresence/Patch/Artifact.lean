/-
  PatchPresence.Patch.Artifact — features of the methods of the artifact under test.
-/
import PatchPresence.Config
import PatchPresence.Feature.FromCode
import PatchPresence.Flow.Build

namespace PatchPresence

/-- Features of a method body. -/
def MethodBody.features (body : MethodBody) (config : Config) : Outcome FeatureSet := do
  let graph ← Graph.build body.instructions body.handlers
  let cap := config.iterationCap graph.size
  let dominators ← Dominators.compute graph cap
  let typing ← OperandTyping.infer graph body.signature body.handlers ⟨config.strict, cap⟩
  let code : AnalyzedCode := {
    signature := body.signature
    graph
    dominators
    loops := LoopNest.find graph dominators
    callArguments := typing.findings.callArguments }
  return code.features config.families

/-- Features of every method of an artifact, or why a method has none. -/
structure TargetArtifact where
  methods : Table MethodSignature (Outcome FeatureSet)

namespace TargetArtifact

/-- Analyses every method body; of equal signatures the last stays. -/
def analyze (bodies : List MethodBody) (config : Config) : TargetArtifact :=
  ⟨.ofList (bodies.map fun body => (body.signature, body.features config))⟩

/-- An artifact whose features are known. -/
def ofFeatures (features : List (MethodSignature × FeatureSet)) : TargetArtifact :=
  ⟨.ofList (features.map fun entry => (entry.1, .ok entry.2))⟩

/-- What is known of a method. -/
def get? (artifact : TargetArtifact) (signature : MethodSignature) : Option (Outcome FeatureSet) :=
  artifact.methods.get? signature

/-- Number of methods. -/
def size (artifact : TargetArtifact) : Nat := artifact.methods.size

/-- The method with a signature, or else the only one with its owner and name. -/
def resolve? (artifact : TargetArtifact) (signature : MethodSignature) :
    Option (MethodSignature × Outcome FeatureSet) :=
  match artifact.methods.get? signature with
  | some outcome => some (signature, outcome)
  | none =>
    match artifact.methods.entries.filter fun entry =>
      entry.1.owner = signature.owner && entry.1.name = signature.name with
    | [entry] => some entry
    | _ => none

end TargetArtifact

end PatchPresence
