/-
  PatchPresence.Patch.Comparison — which of two references a method is closer to.

  Likeness between bytecode and source is rough, so only the difference between the references counts:
  each family of features is cut down to the keys on which they differ, less what both have, and the
  target is compared with what is left of either. Counts are added up in machine words.
-/
import PatchPresence.Data.Ascending
import PatchPresence.Feature.Set

namespace PatchPresence

/-! ## §1. One family. -/

/-- Counts over the keys on which two references differ, their common part taken off. -/
structure Overlap where
  preIntersection : Nat
  preUnion : Nat
  postIntersection : Nat
  postUnion : Nat
  /-- Occurrences that tell the references apart. -/
  discriminating : Nat
  /-- Whether the target has a key of a reference. -/
  shared : Bool
deriving DecidableEq, Repr

namespace Overlap

variable {κ : Type} [Ord κ]

/-- Keys with different counts in two bags, in ascending order. -/
def differingKeys (pre post : Tally κ) : List κ :=
  (Ascending.ofList (pre.keys ++ post.keys)).filter fun key =>
    Tally.count pre key != Tally.count post key

/-- Part of a bag at a key that is not common to both references. -/
def residual (pre post bag : Tally κ) (key : κ) : Nat :=
  Tally.count bag key - min (Tally.count pre key) (Tally.count post key)

/-- Compares a bag with two references, where `sum` adds up over keys. -/
def collect (sum : (κ → Nat) → List κ → Nat) (target pre post : Tally κ) : Overlap :=
  let keys := differingKeys pre post
  let targetPart := residual pre post target
  let prePart := residual pre post pre
  let postPart := residual pre post post
  { preIntersection := sum (fun key => min (targetPart key) (prePart key)) keys
    preUnion := sum (fun key => max (targetPart key) (prePart key)) keys
    postIntersection := sum (fun key => min (targetPart key) (postPart key)) keys
    postUnion := sum (fun key => max (targetPart key) (postPart key)) keys
    discriminating := sum (fun key => distance (prePart key) (postPart key)) keys
    shared := target.keys.any fun key => pre.contains key || post.contains key }

/-- Compares a bag with two references in machine words. -/
def of (target pre post : Tally κ) : Overlap := collect wordSum target pre post

end Overlap

/-- Similarity of a target to both references in one family. -/
structure FamilyScore where
  pre : Float
  post : Float
  discriminating : Nat
  shared : Bool
deriving DecidableEq, Repr

namespace FamilyScore

/-- Share of the union that is common; full when there is nothing to compare. -/
def similarity (intersection union : Nat) : Float :=
  if union = 0 then 1.0 else Float.ofNat intersection / Float.ofNat union

/-- Score of an overlap. -/
def ofOverlap (overlap : Overlap) : FamilyScore :=
  ⟨similarity overlap.preIntersection overlap.preUnion,
    similarity overlap.postIntersection overlap.postUnion, overlap.discriminating, overlap.shared⟩

/-- Score of bags. -/
def ofBags {κ : Type} [Ord κ] (target pre post : Tally κ) : FamilyScore :=
  ofOverlap (.of target pre post)

/-- Score of loops, full for a reference whose loops are those of the target. -/
def ofLoops (target pre post : List LoopSignature) : FamilyScore :=
  let targetBag := Tally.ofKeys target
  let preBag := Tally.ofKeys pre
  let postBag := Tally.ofKeys post
  let score := ofBags targetBag preBag postBag
  if score.discriminating = 0 then
    score
  else
    { score with
      pre := if targetBag = preBag then 1.0 else score.pre
      post := if targetBag = postBag then 1.0 else score.post }

end FamilyScore

/-! ## §2. All families. -/

/-- Weight of each family of features. -/
structure Weights where
  callSites : Float := 0.35
  constants : Float := 0.25
  loops : Float := 0.15
  shapes : Float := 0.15
  /-- Accesses and creations. -/
  accesses : Float := 0.10
deriving DecidableEq, Repr

/-- The weights in a fixed order. -/
def Weights.toList (weights : Weights) : List Float :=
  [weights.callSites, weights.constants, weights.loops, weights.shapes, weights.accesses]

/-- Accesses and creations in one bag. -/
def FeatureSet.uses (set : FeatureSet) : Tally String :=
  .ofCounts <|
    set.accesses.entries.map (fun entry => ("get " ++ entry.1, entry.2)) ++
      set.creations.entries.map fun entry => ("new " ++ entry.1, entry.2)

/-- Scores of all families in the order of the weights. -/
def FeatureSet.scores (target pre post : FeatureSet) : List FamilyScore :=
  [.ofBags target.calls pre.calls post.calls,
    .ofBags target.constants pre.constants post.constants,
    .ofLoops target.loops pre.loops post.loops,
    .ofBags target.shapes pre.shapes post.shapes,
    .ofBags target.uses pre.uses post.uses]

/-- Weighted sums over families. -/
structure WeightedScore where
  weight : Float
  pre : Float
  post : Float
deriving DecidableEq, Repr

namespace WeightedScore

/-- Adds a family, unless it has no weight or does not tell the references apart. -/
def add (sum : WeightedScore) (weight : Float) (score : FamilyScore) : WeightedScore :=
  if score.discriminating = 0 || weight ≤ 0.0 then
    sum
  else
    ⟨sum.weight + weight, sum.pre + weight * score.pre, sum.post + weight * score.post⟩

/-- Sums over all families. -/
def total (weights : List Float) (scores : List FamilyScore) : WeightedScore :=
  (weights.zip scores).foldl (fun sum pair => sum.add pair.1 pair.2) ⟨0.0, 0.0, 0.0⟩

/-- Weighted means; the sums themselves when nothing has weight. -/
def mean (sum : WeightedScore) : WeightedScore :=
  if 0.0 < sum.weight then ⟨sum.weight, sum.pre / sum.weight, sum.post / sum.weight⟩ else sum

end WeightedScore

/-! ## §3. Verdicts. -/

/-- Whether a method, or an artifact, has a patch. -/
inductive Verdict
  | patched
  | vulnerable
  | inconclusive
  /-- Nothing of the references is found. -/
  | unmatched
deriving DecidableEq, Repr

/-- Whether a verdict takes a side. -/
def Verdict.isDecisive : Verdict → Bool
  | .patched | .vulnerable => true
  | _ => false

/-- Outcome of a comparison. -/
structure MatchOutcome where
  verdict : Verdict
  preScore : Float
  postScore : Float
  discriminating : Nat
deriving DecidableEq, Repr

namespace MatchOutcome

/-- Verdict of mean scores: the closer reference, if it is closer by the margin. -/
def judge (shared : Bool) (margin : Float) (score : WeightedScore) : Verdict :=
  if !shared then .unmatched
  else if score.weight == 0.0 then .inconclusive
  else if margin ≤ score.post - score.pre && score.pre < score.post then .patched
  else if margin ≤ score.pre - score.post && score.post < score.pre then .vulnerable
  else .inconclusive

/-- Compares the features of a target with those of both references. -/
def compare (target pre post : FeatureSet) (margin : Float) (weights : Weights) : MatchOutcome :=
  let scores := target.scores pre post
  let score := (WeightedScore.total weights.toList scores).mean
  ⟨judge (scores.any FamilyScore.shared) margin score, score.pre, score.post,
    wordSum FamilyScore.discriminating scores⟩

end MatchOutcome

end PatchPresence
