/-
  PatchPresence.Proofs.Patch.Symmetry — a comparison with two references takes neither side.

  With the references exchanged, every stage of a comparison gives what it gave before with both sides
  exchanged: the counts of a family, its score, the weighted sums, the means and the verdict. Sums are formed
  in the same order for both sides, so that nothing is asked of floating-point addition; only the verdict,
  which is tried for one side first, needs that no number is less than one that is less than it.

  Main result:
    * `MatchOutcome.compare_mirror` — exchanging the references mirrors the outcome.
-/
import PatchPresence.Patch.Comparison
import PatchPresence.Proofs.Float.Order
import PatchPresence.Proofs.KeyOrder

namespace PatchPresence

/-! ## §1. One family. -/

namespace Overlap

/-- The counts with the references exchanged. -/
def mirror (overlap : Overlap) : Overlap :=
  ⟨overlap.postIntersection, overlap.postUnion, overlap.preIntersection, overlap.preUnion,
    overlap.discriminating, overlap.shared⟩

variable {κ : Type} [Ord κ]

theorem distance_comm (a b : Nat) : distance a b = distance b a := Nat.add_comm _ _

theorem residual_comm (pre post bag : Tally κ) : residual post pre bag = residual pre post bag := by
  funext key
  unfold residual
  rw [Nat.min_comm]

theorem differingKeys_comm [Std.TransOrd κ] [Std.LawfulEqOrd κ] (pre post : Tally κ) :
    differingKeys post pre = differingKeys pre post := by
  unfold differingKeys
  have hkeys : Ascending.ofList (post.keys ++ pre.keys) = Ascending.ofList (pre.keys ++ post.keys) := by
    apply Ascending.ofList_eq_ofList
    intro key
    rw [List.mem_append, List.mem_append, or_comm]
  rw [hkeys]
  apply List.filter_congr
  intro key _
  exact bne_comm

/-- However counts are added up. -/
theorem collect_mirror [Std.TransOrd κ] [Std.LawfulEqOrd κ] (sum : (κ → Nat) → List κ → Nat)
    (target pre post : Tally κ) : collect sum target post pre = (collect sum target pre post).mirror := by
  have hshared : (fun key => post.contains key || pre.contains key)
      = fun key => pre.contains key || post.contains key := by
    funext key
    exact Bool.or_comm _ _
  unfold collect mirror
  simp only [differingKeys_comm pre post, residual_comm pre post, hshared, distance_comm]

theorem of_mirror [Std.TransOrd κ] [Std.LawfulEqOrd κ] (target pre post : Tally κ) :
    of target post pre = (of target pre post).mirror := collect_mirror wordSum target pre post

end Overlap

namespace FamilyScore

/-- The score with the references exchanged. -/
def mirror (score : FamilyScore) : FamilyScore :=
  ⟨score.post, score.pre, score.discriminating, score.shared⟩

theorem ofBags_mirror {κ : Type} [Ord κ] [Std.TransOrd κ] [Std.LawfulEqOrd κ]
    (target pre post : Tally κ) : ofBags target post pre = (ofBags target pre post).mirror := by
  unfold ofBags
  rw [Overlap.of_mirror]
  rfl

/-- A reference with the loops of the target is given full likeness on whichever side it stands. -/
theorem ofLoops_mirror (target pre post : List LoopSignature) :
    ofLoops target post pre = (ofLoops target pre post).mirror := by
  unfold ofLoops
  simp only [ofBags_mirror (Tally.ofKeys target) (Tally.ofKeys pre) (Tally.ofKeys post)]
  generalize ofBags (Tally.ofKeys target) (Tally.ofKeys pre) (Tally.ofKeys post) = score
  by_cases hnone : score.discriminating = 0
  · have hnone' : score.mirror.discriminating = 0 := hnone
    rw [if_pos hnone', if_pos hnone]
  · have hnone' : ¬ score.mirror.discriminating = 0 := hnone
    rw [if_neg hnone', if_neg hnone]
    rfl

end FamilyScore

/-! ## §2. All families. -/

theorem FeatureSet.scores_mirror (target pre post : FeatureSet) :
    target.scores post pre = (target.scores pre post).map FamilyScore.mirror := by
  unfold FeatureSet.scores
  simp only [List.map_cons, List.map_nil, FamilyScore.ofBags_mirror target.calls pre.calls,
    FamilyScore.ofBags_mirror target.constants pre.constants, FamilyScore.ofLoops_mirror target.loops pre.loops,
    FamilyScore.ofBags_mirror target.shapes pre.shapes, FamilyScore.ofBags_mirror target.uses pre.uses]

namespace WeightedScore

/-- The sums with the references exchanged. -/
def mirror (sum : WeightedScore) : WeightedScore := ⟨sum.weight, sum.post, sum.pre⟩

theorem add_mirror (sum : WeightedScore) (weight : Float) (score : FamilyScore) :
    sum.mirror.add weight score.mirror = (sum.add weight score).mirror := by
  show (if score.discriminating = 0 || weight ≤ 0.0 then sum.mirror else _) = _
  unfold add
  split
  · rfl
  · rfl

/-- The same families are counted, in the same order. -/
theorem total_mirror (weights : List Float) (scores : List FamilyScore) :
    total weights (scores.map FamilyScore.mirror) = (total weights scores).mirror := by
  unfold total
  rw [List.zip_map_right, List.foldl_map]
  have hempty : (⟨0.0, 0.0, 0.0⟩ : WeightedScore) = mirror ⟨0.0, 0.0, 0.0⟩ := rfl
  rw [hempty]
  apply List.foldl_hom mirror
  intro sum pair
  exact add_mirror sum pair.1 pair.2

theorem mean_mirror (sum : WeightedScore) : sum.mirror.mean = sum.mean.mirror := by
  show (if 0.0 < sum.weight then _ else _) = _
  unfold mean
  split
  · rfl
  · rfl

end WeightedScore

/-! ## §3. Verdicts. -/

namespace Verdict

/-- The verdict with the references exchanged. -/
def mirror : Verdict → Verdict
  | .patched => .vulnerable
  | .vulnerable => .patched
  | .inconclusive => .inconclusive
  | .unmatched => .unmatched

end Verdict

namespace MatchOutcome

/-- The outcome with the references exchanged. -/
def mirror (outcome : MatchOutcome) : MatchOutcome :=
  ⟨outcome.verdict.mirror, outcome.postScore, outcome.preScore, outcome.discriminating⟩

theorem judge_mirror (shared : Bool) (margin : Float) (score : WeightedScore) :
    judge shared margin score.mirror = (judge shared margin score).mirror := by
  unfold judge
  show (if !shared then _ else if score.weight == 0.0 then _
    else if margin ≤ score.pre - score.post && score.post < score.pre then _
    else if margin ≤ score.post - score.pre && score.pre < score.post then _ else _) = _
  by_cases hshared : (!shared) = true
  · rw [if_pos hshared, if_pos hshared]
    rfl
  rw [if_neg hshared, if_neg hshared]
  by_cases hweight : (score.weight == 0.0) = true
  · rw [if_pos hweight, if_pos hweight]
    rfl
  rw [if_neg hweight, if_neg hweight]
  -- the two tests come in different orders, but no two numbers pass both
  by_cases hpost : (margin ≤ score.post - score.pre && score.pre < score.post) = true
  · have hpre : ¬ (margin ≤ score.pre - score.post && score.post < score.pre) = true := by
      intro hpre
      simp only [Bool.and_eq_true, decide_eq_true_eq] at hpost hpre
      exact float_lt_asymm hpost.2 hpre.2
    rw [if_neg hpre, if_pos hpost, if_pos hpost]
    rfl
  · rw [if_neg hpost, if_neg hpost]
    split
    · rfl
    · rfl

/-- With the references exchanged both scores are exchanged, patched and vulnerable take each other's place,
    and nothing else changes. -/
theorem compare_mirror (target pre post : FeatureSet) (margin : Float) (weights : Weights) :
    compare target post pre margin weights = (compare target pre post margin weights).mirror := by
  have hshared : ((target.scores pre post).map FamilyScore.mirror).any FamilyScore.shared
      = (target.scores pre post).any FamilyScore.shared := by
    rw [List.any_map]
    rfl
  unfold compare
  simp only [FeatureSet.scores_mirror target pre post, hshared, wordSum_map, WeightedScore.total_mirror,
    WeightedScore.mean_mirror, judge_mirror]
  rfl

end MatchOutcome

end PatchPresence
