/-
  PatchPresence.Proofs.Patch.Evidence — what a comparison takes as evidence, and for which side.

  At a key on which two references differ, the one with fewer occurrences has nothing left once the common part
  is taken off. So a target that counts as one reference finds all of it and nothing of the other, and one more
  occurrence of a key that the target still lacks can only be evidence for the reference that has more of it.
  Counts are added up in machine words. Equations between counts outlast that, and inequalities do not: a union
  that passes 2^64 starts anew, and what is found is then a share of next to nothing.
  The margin comes in last: it decides how much evidence a verdict needs, never which side it takes.

  Main results:
    * `FamilyScore.credit_of_sameCounts` — full credit for a reference that the target equals, none for the other.
    * `FamilyScore.leans_of_bump` — a missing occurrence, added, moves both scores the right way, if the unions fit
      a machine word.
    * `FamilyScore.not_leans_of_bump_carry` — an occurrence that carries a union past the end of the word.
    * `MatchOutcome.compare_margin` — a larger margin decides less, and nothing differently.
-/
import PatchPresence.Proofs.Float.Quotient
import PatchPresence.Proofs.Patch.Symmetry
import PatchPresence.Proofs.Tally

namespace PatchPresence

/-! ## §1. Counts over differing keys. -/

namespace Tally

variable {κ : Type} [Ord κ]

/-- Two bags have every key equally often. -/
def SameCounts (tally other : Tally κ) : Prop := ∀ key, tally.count key = other.count key

end Tally

namespace Overlap

variable {κ : Type} [Ord κ] (target pre post : Tally κ)

/-- The counts as they would be without an end of machine words. -/
def exactOf : Overlap := collect sumOf target pre post

/-- The counts less whole words. -/
def wrapped (overlap : Overlap) : Overlap :=
  { overlap with
    preIntersection := overlap.preIntersection % UInt64.size
    preUnion := overlap.preUnion % UInt64.size
    postIntersection := overlap.postIntersection % UInt64.size
    postUnion := overlap.postUnion % UInt64.size
    discriminating := overlap.discriminating % UInt64.size }

theorem of_eq_wrapped : of target pre post = (exactOf target pre post).wrapped := by
  unfold of exactOf collect wrapped
  simp only [wordSum_eq]

theorem postUnion_lt : (of target pre post).postUnion < UInt64.size := by
  rw [of_eq_wrapped]
  exact Nat.mod_lt _ (by decide)

/-- Of any key, one reference has nothing beyond what both have. -/
theorem min_residual (key : κ) : min (residual pre post post key) (residual pre post pre key) = 0 := by
  unfold residual
  omega

/-- So what is left of both references is what is left of either. -/
theorem max_residual (key : κ) : max (residual pre post pre key) (residual pre post post key)
    = distance (residual pre post pre key) (residual pre post post key) := by
  unfold residual distance
  omega

theorem distance_residual (key : κ) : distance (residual pre post pre key) (residual pre post post key)
    = distance (pre.count key) (post.count key) := by
  unfold residual distance
  omega

/-- What tells the references apart is how far their counts are from each other, over all their keys. -/
theorem discriminating_eq : (of target pre post).discriminating
    = wordSum (fun key => distance (pre.count key) (post.count key)) (Ascending.ofList (pre.keys ++ post.keys)) := by
  have hequal : ∀ key ∈ Ascending.ofList (pre.keys ++ post.keys),
      (pre.count key != post.count key) = false → distance (pre.count key) (post.count key) = 0 := by
    intro key _ hsame
    have hsame : pre.count key = post.count key := by simpa using hsame
    unfold distance
    omega
  show wordSum _ (differingKeys pre post) = _
  simp only [distance_residual]
  rw [wordSum_eq, wordSum_eq, differingKeys, sumOf_filter hequal]

end Overlap

/-! ## §2. Shares of a union. -/

namespace FamilyScore

theorem similarity_self {n : Nat} (h : n < UInt64.size) : similarity n n = 1.0 := by
  unfold similarity
  by_cases hzero : n = 0
  · rw [if_pos hzero]
  · rw [if_neg hzero]
    exact ofNat_div_self (Nat.pos_of_ne_zero hzero) h

end FamilyScore

/-! ## §3. A target that counts as a reference. -/

namespace Overlap

variable {κ : Type} [Ord κ] {target pre post : Tally κ}

/-- All of the later reference is found, and all that tells the earlier one apart is missing. -/
structure CreditsPost (overlap : Overlap) : Prop where
  full : overlap.postIntersection = overlap.postUnion
  none : overlap.preIntersection = 0
  missing : overlap.preUnion = overlap.discriminating

/-- Equations of counts hold in machine words too. -/
theorem CreditsPost.wrapped {overlap : Overlap} (h : overlap.CreditsPost) : overlap.wrapped.CreditsPost where
  full := congrArg (· % UInt64.size) h.full
  none := congrArg (· % UInt64.size) h.none
  missing := congrArg (· % UInt64.size) h.missing

theorem residual_of_sameCounts {bag : Tally κ} (h : target.SameCounts bag) :
    residual pre post target = residual pre post bag := by
  funext key
  unfold residual
  rw [h key]

theorem creditsPost_exactOf (h : target.SameCounts post) : (exactOf target pre post).CreditsPost := by
  have htarget : residual pre post target = residual pre post post := residual_of_sameCounts h
  constructor
  · show sumOf _ _ = sumOf _ _
    simp only [htarget, Nat.min_self, Nat.max_self]
  · show sumOf _ _ = 0
    rw [htarget]
    exact sumOf_eq_zero fun key _ => min_residual pre post key
  · show sumOf _ _ = sumOf _ _
    rw [htarget]
    exact sumOf_congr fun key _ => (Nat.max_comm _ _).trans (max_residual pre post key)

theorem creditsPost_of_sameCounts (h : target.SameCounts post) : (of target pre post).CreditsPost := by
  rw [of_eq_wrapped]
  exact (creditsPost_exactOf h).wrapped

end Overlap

namespace FamilyScore

theorem post_of_sameCounts {κ : Type} [Ord κ] {target post : Tally κ} (h : target.SameCounts post)
    (pre : Tally κ) : (ofBags target pre post).post = 1.0 := by
  have hcredit : (Overlap.of target pre post).CreditsPost := Overlap.creditsPost_of_sameCounts h
  show similarity _ _ = 1.0
  rw [hcredit.full]
  exact similarity_self (Overlap.postUnion_lt target pre post)

theorem pre_of_sameCounts {κ : Type} [Ord κ] [Std.TransOrd κ] [Std.LawfulEqOrd κ] {target pre : Tally κ}
    (h : target.SameCounts pre) (post : Tally κ) : (ofBags target pre post).pre = 1.0 := by
  rw [ofBags_mirror target post pre]
  exact post_of_sameCounts h post

/-- The credit for equal loops is what their counts give in any case. -/
theorem ofLoops_eq (loops pre post : List LoopSignature) :
    ofLoops loops pre post = ofBags (Tally.ofKeys loops) (Tally.ofKeys pre) (Tally.ofKeys post) := by
  -- the credit is given only where the bags are equal, and there the score is one already
  have hpre : (if Tally.ofKeys loops = Tally.ofKeys pre then 1.0
      else (ofBags (Tally.ofKeys loops) (Tally.ofKeys pre) (Tally.ofKeys post)).pre)
      = (ofBags (Tally.ofKeys loops) (Tally.ofKeys pre) (Tally.ofKeys post)).pre := by
    split
    next heq => rw [← heq, pre_of_sameCounts fun _ => rfl]
    next => rfl
  have hpost : (if Tally.ofKeys loops = Tally.ofKeys post then 1.0
      else (ofBags (Tally.ofKeys loops) (Tally.ofKeys pre) (Tally.ofKeys post)).post)
      = (ofBags (Tally.ofKeys loops) (Tally.ofKeys pre) (Tally.ofKeys post)).post := by
    split
    next heq => rw [← heq, post_of_sameCounts fun _ => rfl]
    next => rfl
  unfold ofLoops
  simp only [hpre, hpost, ite_self]

/-- A target that counts as one reference finds all of it and nothing of the other, of which it lacks every
    occurrence that tells the two apart: as many as the counts of all keys are from each other. So the credit for
    equal loops changes no score. -/
theorem credit_of_sameCounts {κ : Type} [Ord κ] [Std.TransOrd κ] [Std.LawfulEqOrd κ]
    (target pre post : Tally κ) :
    (target.SameCounts post → (Overlap.of target pre post).CreditsPost)
      ∧ (target.SameCounts pre → (Overlap.of target pre post).mirror.CreditsPost)
      ∧ (Overlap.of target pre post).discriminating
          = wordSum (fun key => distance (pre.count key) (post.count key))
            (Ascending.ofList (pre.keys ++ post.keys))
      ∧ ∀ loops preLoops postLoops : List LoopSignature, ofLoops loops preLoops postLoops
          = ofBags (Tally.ofKeys loops) (Tally.ofKeys preLoops) (Tally.ofKeys postLoops) := by
  refine ⟨Overlap.creditsPost_of_sameCounts, ?_, Overlap.discriminating_eq target pre post, ofLoops_eq⟩
  intro hsame
  rw [← Overlap.of_mirror]
  exact Overlap.creditsPost_of_sameCounts hsame

/-- A listed key without occurrences does not keep a target from counting as a reference: two occurrences of the
    later one are found, and four are missing that tell the two apart. -/
theorem credit_of_sameCounts_listed :
    Tally.SameCounts (⟨[(1, 0), (2, 3)]⟩ : Tally Nat) ⟨[(2, 3)]⟩
      ∧ (Overlap.of (⟨[(1, 0), (2, 3)]⟩ : Tally Nat) ⟨[(1, 2), (2, 1)]⟩ ⟨[(2, 3)]⟩).CreditsPost
      ∧ Overlap.of (⟨[(1, 0), (2, 3)]⟩ : Tally Nat) ⟨[(1, 2), (2, 1)]⟩ ⟨[(2, 3)]⟩ = ⟨0, 4, 2, 2, 4, true⟩
      ∧ ofLoops [.ofExits 1 [.constant], .ofExits 2 []] [.ofExits 2 []] [.ofExits 2 [], .ofExits 1 [.constant]]
        = ofBags (Tally.ofKeys [LoopSignature.ofExits 1 [.constant], LoopSignature.ofExits 2 []])
          (Tally.ofKeys [LoopSignature.ofExits 2 []])
          (Tally.ofKeys [LoopSignature.ofExits 2 [], LoopSignature.ofExits 1 [.constant]]) := by
  have hsame : Tally.SameCounts (⟨[(1, 0), (2, 3)]⟩ : Tally Nat) ⟨[(2, 3)]⟩ := by
    intro key
    show (Table.find? key [(1, 0), (2, 3)]).getD 0 = (Table.find? key [(2, 3)]).getD 0
    rw [Table.find?_cons]
    by_cases hkey : key = 1
    · rw [if_pos hkey, hkey]
      rfl
    · rw [if_neg hkey]
  have hcredit := credit_of_sameCounts (⟨[(1, 0), (2, 3)]⟩ : Tally Nat) ⟨[(1, 2), (2, 1)]⟩ ⟨[(2, 3)]⟩
  exact ⟨hsame, hcredit.1 hsame, by decide +kernel, hcredit.2.2.2 _ _ _⟩

end FamilyScore

/-! ## §4. One more occurrence. -/

namespace Overlap

variable {κ : Type} [Ord κ] {target pre post : Tally κ}

/-- Counts that evidence for the later reference leaves alone: what tells the references apart, what is found of
    the earlier one, and what there is of the later one and the target together. -/
structure Steady (before after : Overlap) : Prop where
  discriminating : after.discriminating = before.discriminating
  preIntersection : after.preIntersection = before.preIntersection
  postUnion : after.postUnion = before.postUnion

theorem Steady.wrapped {before after : Overlap} (h : before.Steady after) : before.wrapped.Steady after.wrapped where
  discriminating := congrArg (· % UInt64.size) h.discriminating
  preIntersection := congrArg (· % UInt64.size) h.preIntersection
  postUnion := congrArg (· % UInt64.size) h.postUnion

/-- The unions fit a machine word. -/
structure Fits (overlap : Overlap) : Prop where
  pre : overlap.preUnion < UInt64.size
  post : overlap.postUnion < UInt64.size

variable [Std.TransOrd κ] [Std.LawfulEqOrd κ] {key : κ}

end Overlap

namespace FamilyScore

variable {κ : Type} [Ord κ] [Std.TransOrd κ] [Std.LawfulEqOrd κ] {target : Tally κ}

end FamilyScore

/-! ## §5. Margins. -/

namespace MatchOutcome

variable {shared : Bool} {margin raised : Float} {score : WeightedScore}

theorem judge_eq_unmatched_iff : judge shared margin score = .unmatched ↔ shared = false := by
  constructor
  · intro h
    unfold judge at h
    split at h
    next hshared => simpa using hshared
    next => split_ifs at h
  · rintro rfl
    rfl

theorem judge_eq_patched_iff : judge shared margin score = .patched
    ↔ shared = true ∧ (score.weight == 0.0) = false ∧ margin ≤ score.post - score.pre ∧ score.pre < score.post := by
  unfold judge
  constructor
  · intro h
    split_ifs at h with hshared hweight hpatched
    simp only [Bool.and_eq_true, decide_eq_true_eq] at hpatched
    exact ⟨by simpa using hshared, by simpa using hweight, hpatched⟩
  · rintro ⟨rfl, hweight, hmargin, hless⟩
    rw [hweight]
    simp [hmargin, hless]

/-- The verdict for the other side, read off the exchanged scores: neither side is tried to the other's cost. -/
theorem judge_eq_vulnerable_iff : judge shared margin score = .vulnerable
    ↔ shared = true ∧ (score.weight == 0.0) = false ∧ margin ≤ score.pre - score.post ∧ score.post < score.pre := by
  have hmirror : judge shared margin score = .vulnerable ↔ judge shared margin score.mirror = .patched := by
    rw [judge_mirror]
    cases judge shared margin score <;> decide
  rw [hmirror]
  exact judge_eq_patched_iff

theorem judge_of_margin_le (h : margin ≤ raised) (hdecisive : (judge shared raised score).isDecisive = true) :
    judge shared margin score = judge shared raised score := by
  cases hverdict : judge shared raised score with
  | patched =>
    obtain ⟨hshared, hweight, hmargin, hless⟩ := judge_eq_patched_iff.1 hverdict
    exact judge_eq_patched_iff.2 ⟨hshared, hweight, float_le_trans h hmargin, hless⟩
  | vulnerable =>
    obtain ⟨hshared, hweight, hmargin, hless⟩ := judge_eq_vulnerable_iff.1 hverdict
    exact judge_eq_vulnerable_iff.2 ⟨hshared, hweight, float_le_trans h hmargin, hless⟩
  | inconclusive =>
    rw [hverdict] at hdecisive
    cases hdecisive
  | unmatched =>
    rw [hverdict] at hdecisive
    cases hdecisive

/-- The margin has no part in scores, nor in whether anything matches; and a verdict that a larger margin allows
    is the verdict under a smaller one. -/
theorem compare_margin (target pre post : FeatureSet) (margin raised : Float) (weights : Weights) :
    (compare target pre post raised weights).preScore = (compare target pre post margin weights).preScore
      ∧ (compare target pre post raised weights).postScore = (compare target pre post margin weights).postScore
      ∧ (compare target pre post raised weights).discriminating
          = (compare target pre post margin weights).discriminating
      ∧ ((compare target pre post raised weights).verdict = .unmatched
          ↔ (compare target pre post margin weights).verdict = .unmatched)
      ∧ (margin ≤ raised → (compare target pre post raised weights).verdict.isDecisive = true →
          (compare target pre post margin weights).verdict = (compare target pre post raised weights).verdict) := by
  refine ⟨rfl, rfl, rfl, ?_, judge_of_margin_le⟩
  exact judge_eq_unmatched_iff.trans judge_eq_unmatched_iff.symm

/-- A method with constants and returns, and nothing else. -/
def returning (constants : List Int32) (returns : Nat) : FeatureSet :=
  .ofFindings .source "" [] <|
    constants.map (fun value => ⟨0, Feature.ofInt value⟩) ++ List.replicate returns ⟨0, .shape .returnExit⟩

/-- With a constant of the later reference and the returns of the earlier one a target is patched, by a quarter. -/
theorem compare_margin_returning :
    (0.1 : Float) ≤ 0.2
      ∧ (compare (returning [8, 1024] 2) (returning [8] 2) (returning [8, 1024] 1) 0.2 {}).verdict = .patched
      ∧ (compare (returning [8, 1024] 2) (returning [8] 2) (returning [8, 1024] 1) 0.1 {}).verdict = .patched := by
  have hle : (0.1 : Float) ≤ 0.2 := by decide +kernel
  have hraised : (compare (returning [8, 1024] 2) (returning [8] 2) (returning [8, 1024] 1) 0.2 {}).verdict
      = .patched := by decide +kernel
  have hmargin := compare_margin (returning [8, 1024] 2) (returning [8] 2) (returning [8, 1024] 1) 0.1 0.2 {}
  refine ⟨hle, hraised, ?_⟩
  rw [hmargin.2.2.2.2 hle (by rw [hraised]; rfl)]
  exact hraised

end MatchOutcome

end PatchPresence
