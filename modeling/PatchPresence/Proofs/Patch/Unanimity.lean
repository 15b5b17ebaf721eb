/-
  PatchPresence.Proofs.Patch.Unanimity — verdicts that all point the same way.

  When all decisive verdicts on methods are equal, the share of the patched evidence is exactly one or exactly
  zero, whatever the weights: the same roundings make the patched part and the total. A share of one reaches every
  threshold, so the artifact is patched. A share of zero is below every threshold but zero itself, and at most
  what the threshold leaves of one; so the artifact is vulnerable, except under the threshold zero, which the
  share reaches as well, and the test for patched comes first.

  Main results:
    * `Evidence.OneSided.foldl`, `Evidence.isTotal_ofMethods` — what collecting evidence keeps.
    * `Verdict.aggregate_unanimous` — the verdict on unanimous evidence, over all thresholds that are accepted.
-/
import PatchPresence.Patch.Report
import PatchPresence.Proofs.Float.Totals
import PatchPresence.Proofs.Outcome

namespace PatchPresence

/-! ## §1. Thresholds. -/

theorem Config.isShare_of_validate {config : Config} (h : config.validate = .ok ()) :
    0.0 ≤ config.presenceThreshold ∧ config.presenceThreshold ≤ 1.0 := by
  unfold validate at h
  split_ifs at h with hfactor hmargin hthreshold
  simpa [isShare] using hthreshold

/-! ## §2. One-sided evidence. -/

namespace Evidence

variable {verdict : Verdict} {evidence : Evidence} {methods : List MethodVerdict}

/-- Evidence from equal verdicts: all of it speaks for the patch, or none of it. -/
def OneSided (verdict : Verdict) (evidence : Evidence) : Prop :=
  evidence.patched = if verdict = .patched then evidence.total else 0.0

theorem OneSided.add {method : MethodVerdict} (h : OneSided verdict evidence) (hmethod : method.verdict = verdict) :
    OneSided verdict (evidence.add method) := by
  unfold OneSided at h ⊢
  unfold Evidence.add
  by_cases hpatched : verdict = .patched
  -- the weight goes to both parts, and they are rounded alike
  · simp only [hmethod, hpatched, if_true] at h ⊢
    rw [h]
  · simp only [hmethod, hpatched, if_false] at h ⊢
    exact h

theorem OneSided.foldl (h : OneSided verdict evidence) (hmethods : ∀ method ∈ methods, method.verdict = verdict) :
    OneSided verdict (methods.foldl Evidence.add evidence) := by
  induction methods generalizing evidence with
  | nil => exact h
  | cons method rest ih =>
    obtain ⟨hmethod, hrest⟩ := List.forall_mem_cons.1 hmethods
    exact ih (h.add hmethod) hrest

theorem oneSided_ofMethods
    (h : ∀ method ∈ methods, method.verdict.isDecisive = true → method.verdict = verdict) :
    OneSided verdict (ofMethods methods) := by
  refine OneSided.foldl (ite_self 0.0).symm ?_
  intro method hmethod
  obtain ⟨hmem, hdecisive⟩ := List.mem_filter.1 hmethod
  exact h method hmem hdecisive

/-! ## §3. Its total. -/

/-- A weight is a count, since evidence of no weight counts as one. -/
theorem isCount_weight {method : MethodVerdict} (h : method.discriminating < UInt64.size) :
    IsCount (max method.discriminating 1) :=
  ⟨by omega, max_lt h (by decide)⟩

theorem isTotal_foldl (h : IsTotal evidence.total)
    (hweights : ∀ method ∈ methods, method.discriminating < UInt64.size) :
    IsTotal (methods.foldl Evidence.add evidence).total := by
  induction methods generalizing evidence with
  | nil => exact h
  | cons method rest ih =>
    obtain ⟨hweight, hrest⟩ := List.forall_mem_cons.1 hweights
    exact ih (h.add (isCount_weight hweight)) hrest

theorem isTotal_ofMethods (hweights : ∀ method ∈ methods, method.discriminating < UInt64.size)
    (hdecisive : ∃ method ∈ methods, method.verdict.isDecisive = true) : IsTotal (ofMethods methods).total := by
  obtain ⟨method, hmethod, hverdict⟩ := hdecisive
  unfold ofMethods
  have hmem : method ∈ methods.filter (·.verdict.isDecisive) := List.mem_filter.2 ⟨hmethod, hverdict⟩
  have hkept : ∀ other ∈ methods.filter (·.verdict.isDecisive), other.discriminating < UInt64.size :=
    fun other hother => hweights other (List.mem_filter.1 hother).1
  -- the empty sum is zero and no total, so the first decisive method is taken off
  cases hfilter : methods.filter (·.verdict.isDecisive) with
  | nil =>
    rw [hfilter] at hmem
    cases hmem
  | cons first rest =>
    rw [hfilter] at hkept
    obtain ⟨hfirst, hrest⟩ := List.forall_mem_cons.1 hkept
    have hstart : IsTotal (Evidence.add ⟨0.0, 0.0⟩ first).total := IsTotal.of_count (isCount_weight hfirst)
    rw [List.foldl_cons]
    exact isTotal_foldl hstart hrest

theorem OneSided.ratio (h : OneSided verdict evidence) (htotal : IsTotal evidence.total) :
    evidence.patched / evidence.total = if verdict = .patched then 1.0 else 0.0 := by
  rw [h]
  by_cases hpatched : verdict = .patched
  · rw [if_pos hpatched, if_pos hpatched, htotal.div_self]
  · rw [if_neg hpatched, if_neg hpatched, htotal.zero_div]

end Evidence

/-! ## §4. The verdict. -/

namespace Verdict

/-- With a total the verdict follows from the share alone, patched before vulnerable. -/
theorem aggregate_of_ratio {methods : List MethodVerdict} {threshold ratio : Float}
    (htotal : IsTotal (Evidence.ofMethods methods).total)
    (hratio : (Evidence.ofMethods methods).patched / (Evidence.ofMethods methods).total = ratio) :
    aggregate methods threshold =
      (if threshold ≤ ratio then .patched else if ratio ≤ 1.0 - threshold then .vulnerable else .inconclusive,
        some ratio) := by
  unfold aggregate
  simp only [htotal.beq_zero, hratio, Bool.false_eq_true, if_false]
  split_ifs <;> rfl

/-- If there is a decisive verdict and all of them are equal, they are the verdict on the artifact, under every
    threshold that is accepted: patched in any case, and vulnerable unless the threshold is zero. Counts are taken
    to fit a machine word. -/
theorem aggregate_unanimous (config : Config) (methods : List MethodVerdict) (hvalid : config.validate = .ok ())
    (hweights : ∀ method ∈ methods, method.discriminating < UInt64.size)
    (hdecisive : ∃ method ∈ methods, method.verdict.isDecisive = true) :
    ((∀ method ∈ methods, method.verdict.isDecisive = true → method.verdict = .patched) →
        aggregate methods config.presenceThreshold = (.patched, some 1.0))
      ∧ ((∀ method ∈ methods, method.verdict.isDecisive = true → method.verdict = .vulnerable) →
        (aggregate methods config.presenceThreshold).2 = some 0.0
          ∧ ((aggregate methods config.presenceThreshold).1 = .vulnerable
            ↔ (config.presenceThreshold == 0.0) = false)) := by
  obtain ⟨hlow, hhigh⟩ := Config.isShare_of_validate hvalid
  have htotal := Evidence.isTotal_ofMethods hweights hdecisive
  constructor
  · intro hpatched
    have hratio := (Evidence.oneSided_ofMethods hpatched).ratio htotal
    rw [if_pos rfl] at hratio
    rw [aggregate_of_ratio htotal hratio, if_pos hhigh]
  · intro hvulnerable
    have hratio := (Evidence.oneSided_ofMethods hvulnerable).ratio htotal
    rw [if_neg (by decide)] at hratio
    rw [aggregate_of_ratio htotal hratio]
    refine ⟨rfl, ?_⟩
    -- the share is zero, so a threshold that it reaches is zero itself
    have hzero : config.presenceThreshold ≤ 0.0 ↔ (config.presenceThreshold == 0.0) = true := by
      rw [float_beq_iff_le, and_iff_left hlow]
    rw [← Bool.not_eq_true, ← hzero]
    by_cases hreached : config.presenceThreshold ≤ 0.0
    · rw [if_pos hreached]
      exact iff_of_false (by decide) (not_not_intro hreached)
    · rw [if_neg hreached, if_pos (zero_le_one_sub hlow hhigh)]
      exact iff_of_true rfl hreached

/-- A verdict on some method with its weight. -/
def weighed (verdict : Verdict) (weight : Nat) : MethodVerdict := ⟨"", none, verdict, none, none, weight, none⟩

/-- Under the greatest threshold, with undecided methods in between, a weight of zero and the largest one. -/
theorem aggregate_unanimous_one :
    ({ presenceThreshold := 1.0 } : Config).validate = .ok ()
      ∧ (aggregate [weighed .inconclusive 9, weighed .vulnerable 0, weighed .unmatched 3,
          weighed .vulnerable 18446744073709551615] 1.0).1 = .vulnerable
      ∧ aggregate [weighed .patched 0, weighed .inconclusive 9, weighed .patched 18446744073709551615] 1.0
          = (.patched, some 1.0) := by
  have hvalid : ({ presenceThreshold := 1.0 } : Config).validate = .ok () := eq_ok_of_toOption (by decide +kernel)
  have hvulnerable := aggregate_unanimous _ [weighed .inconclusive 9, weighed .vulnerable 0, weighed .unmatched 3,
    weighed .vulnerable 18446744073709551615] hvalid (by decide) (by decide)
  have hpatched := aggregate_unanimous _ [weighed .patched 0, weighed .inconclusive 9,
    weighed .patched 18446744073709551615] hvalid (by decide) (by decide)
  exact ⟨hvalid, (hvulnerable.2 (by decide)).2.2 (by decide +kernel), hpatched.1 (by decide)⟩

/-- Under the threshold zero, which is accepted, an artifact counts as patched by evidence that is all against
    it. -/
theorem aggregate_unanimous_zero :
    ({ presenceThreshold := 0.0 } : Config).validate = .ok ()
      ∧ (weighed .vulnerable 1).verdict.isDecisive = true
      ∧ aggregate [weighed .vulnerable 1] 0.0 = (.patched, some 0.0) :=
  ⟨eq_ok_of_toOption (by decide +kernel), rfl, by decide +kernel⟩

end Verdict

end PatchPresence
