/-
  PatchPresence.Proofs.Float.Order — doubles are compared by their ranks.

  A comparison of doubles looks at the sign first, then at the exponent and last at the mantissa, each the other
  way round for negative numbers. That is the order of triples of integers. A NaN has no triple, and nothing is
  known of a comparison with it; among the other doubles the order is that of the triples.

  Main results:
    * `float_le_iff`, `float_lt_iff`, `float_beq_iff` — the comparisons by ranks.
    * `float_le_trans`, `float_lt_asymm`, `float_beq_iff_le` — the order laws that hold of all doubles.
-/

namespace PatchPresence

open Float.Model (UnpackedFloat)

/-! ## §1. Ranks. -/

/-- Sign, exponent and mantissa, so that greater numbers have greater triples. -/
structure FloatRank where
  sign : Int
  exponent : Int
  mantissa : Int

namespace FloatRank

/-- Rank of an unpacked number; a NaN has none. Both zeros have the same. -/
def of : UnpackedFloat → Option FloatRank
  | .notANumber => none
  | .infinity .negative => some ⟨-2, 0, 0⟩
  | .finite .negative mantissa exponent _ => some ⟨-1, -exponent, -mantissa⟩
  | .zero _ => some ⟨0, 0, 0⟩
  | .finite .positive mantissa exponent _ => some ⟨1, exponent, mantissa⟩
  | .infinity .positive => some ⟨2, 0, 0⟩

/-- Comparison of ranks, sign first and mantissa last. -/
def order (a b : FloatRank) : Ordering :=
  (compare a.sign b.sign).then ((compare a.exponent b.exponent).then (compare a.mantissa b.mantissa))

/-- One rank comes before another. -/
def Before (a b : FloatRank) : Prop :=
  a.sign < b.sign ∨ a.sign = b.sign ∧ (a.exponent < b.exponent ∨
    a.exponent = b.exponent ∧ a.mantissa < b.mantissa)

variable {a b c : FloatRank}

theorem Before.trans (hab : a.Before b) (hbc : b.Before c) : a.Before c := by
  unfold Before at *
  omega

theorem Before.asymm (h : a.Before b) : ¬ b.Before a := by
  unfold Before at *
  omega

theorem order_eq_lt_iff : a.order b = .lt ↔ a.Before b := by
  simp only [order, Before, Ordering.then_eq_lt, Int.compare_eq_lt, Int.compare_eq_eq]

theorem order_eq_eq_iff : a.order b = .eq ↔ a = b := by
  obtain ⟨_, _, _⟩ := a
  obtain ⟨_, _, _⟩ := b
  simp only [order, Ordering.then_eq_eq, Int.compare_eq_eq, mk.injEq]

theorem isLE_order_iff : (a.order b).isLE = true ↔ a.Before b ∨ a = b := by
  rw [← order_eq_lt_iff, ← order_eq_eq_iff]
  cases a.order b <;> decide

end FloatRank

theorem compare_natCast (m n : Nat) : compare (m : Int) (n : Int) = compare m n := by
  cases h : compare m n with
  | lt => exact Int.compare_eq_lt.2 (Int.ofNat_lt.2 (Nat.compare_eq_lt.1 h))
  | eq => exact Int.compare_eq_eq.2 (congrArg Int.ofNat (Nat.compare_eq_eq.1 h))
  | gt => exact Int.compare_eq_gt.2 (Int.ofNat_lt.2 (Nat.compare_eq_gt.1 h))

theorem compare_neg (a b : Int) : compare (-a) (-b) = (compare a b).swap := by
  rw [← Std.OrientedOrd.eq_swap]
  cases h : compare b a with
  | lt => exact Int.compare_eq_lt.2 (Int.neg_lt_neg (Int.compare_eq_lt.1 h))
  | eq => exact Int.compare_eq_eq.2 (congrArg Neg.neg (Int.compare_eq_eq.1 h).symm)
  | gt => exact Int.compare_eq_gt.2 (Int.neg_lt_neg (Int.compare_eq_gt.1 h))

/-- A comparison of unpacked numbers is one of their ranks. -/
theorem unpackedCompare_eq (a b : UnpackedFloat) :
    a.compare b = (FloatRank.of a).bind fun r => (FloatRank.of b).map r.order := by
  cases a with
  | notANumber => cases b <;> rfl
  | infinity s =>
    cases b with
    | finite t m e h => cases s <;> cases t <;> rfl
    | infinity t => cases s <;> cases t <;> rfl
    | _ => cases s <;> rfl
  | zero s =>
    cases b with
    | finite t m e h => cases t <;> rfl
    | infinity t => cases t <;> rfl
    | _ => rfl
  | finite s m e h =>
    cases b with
    | notANumber => cases s <;> rfl
    | infinity t => cases s <;> cases t <;> rfl
    | zero t => cases s <;> rfl
    | finite t n f k =>
      cases s <;> cases t
      -- between negative numbers the comparison is turned around, and so are the parts of a rank
      · have hrank : (compare (-e) (-f)).then (compare (-m : Int) (-n)) =
            ((compare e f).then (compare m n)).swap := by
          rw [compare_neg, compare_neg, compare_natCast, Ordering.swap_then]
        exact congrArg some hrank.symm
      · rfl
      · rfl
      · exact congrArg (fun o => some ((compare e f).then o)) (compare_natCast m n).symm

/-! ## §2. Order laws. -/

/-- Rank of a double. -/
def FloatRank.ofFloat (value : Float) : Option FloatRank := of value.toModel.unpack

theorem float_lt_iff {a b : Float} : a < b ↔
    ∃ r, FloatRank.ofFloat a = some r ∧ ∃ s, FloatRank.ofFloat b = some s ∧ r.Before s := by
  have hlt : a < b ↔ a.toModel.unpack.compare b.toModel.unpack = some .lt := by
    show decide (UnpackedFloat.lt a.toModel.unpack b.toModel.unpack = true) = true ↔ _
    rw [decide_eq_true_iff]
    exact beq_iff_eq
  simp only [hlt, unpackedCompare_eq, Option.bind_eq_some_iff, Option.map_eq_some_iff, FloatRank.order_eq_lt_iff,
    FloatRank.ofFloat]

theorem float_le_iff {a b : Float} : a ≤ b ↔
    ∃ r, FloatRank.ofFloat a = some r ∧ ∃ s, FloatRank.ofFloat b = some s ∧ (r.Before s ∨ r = s) := by
  have hle : a ≤ b ↔ (a.toModel.unpack.compare b.toModel.unpack).any (·.isLE) = true := by
    show decide (UnpackedFloat.le a.toModel.unpack b.toModel.unpack = true) = true ↔ _
    rw [decide_eq_true_iff]
    rfl
  simp only [← FloatRank.isLE_order_iff, FloatRank.ofFloat]
  rw [hle, unpackedCompare_eq]
  cases FloatRank.of a.toModel.unpack <;> cases FloatRank.of b.toModel.unpack <;> simp

theorem float_beq_iff {a b : Float} : (a == b) = true ↔
    ∃ r, FloatRank.ofFloat a = some r ∧ FloatRank.ofFloat b = some r := by
  have heq : (a == b) = true ↔ a.toModel.unpack.compare b.toModel.unpack = some .eq := by
    show UnpackedFloat.beq a.toModel.unpack b.toModel.unpack = true ↔ _
    exact beq_iff_eq
  simp only [heq, unpackedCompare_eq, Option.bind_eq_some_iff, Option.map_eq_some_iff, FloatRank.order_eq_eq_iff,
    FloatRank.ofFloat, exists_eq_right']

variable {a b c : Float}

/-- No double is less than one that is less than it. -/
theorem float_lt_asymm (h : a < b) : ¬ b < a := by
  rw [float_lt_iff] at h ⊢
  rintro ⟨s, hs, r, hr, hback⟩
  obtain ⟨r', hr', s', hs', hbefore⟩ := h
  obtain rfl : r' = r := Option.some.inj (hr'.symm.trans hr)
  obtain rfl : s' = s := Option.some.inj (hs'.symm.trans hs)
  exact hbefore.asymm hback

theorem float_le_trans (hab : a ≤ b) (hbc : b ≤ c) : a ≤ c := by
  rw [float_le_iff] at hab hbc ⊢
  obtain ⟨r, hr, s, hs, hrs⟩ := hab
  obtain ⟨s', hs', t, ht, hst⟩ := hbc
  -- the number in the middle is no NaN, since it has been compared, and it has one rank only
  obtain rfl : s = s' := Option.some.inj (hs.symm.trans hs')
  refine ⟨r, hr, t, ht, ?_⟩
  rcases hrs with hrs | rfl
  · rcases hst with hst | rfl
    · exact .inl (hrs.trans hst)
    · exact .inl hrs
  · exact hst

/-- Doubles are equal as numbers when neither is greater. Both zeros are equal, and a NaN is not even equal to
    itself. -/
theorem float_beq_iff_le : (a == b) = true ↔ a ≤ b ∧ b ≤ a := by
  rw [float_beq_iff, float_le_iff, float_le_iff]
  constructor
  · rintro ⟨r, ha, hb⟩
    exact ⟨⟨r, ha, r, hb, .inr rfl⟩, r, hb, r, ha, .inr rfl⟩
  · rintro ⟨⟨r, hr, s, hs, hrs⟩, s', hs', r', hr', hsr⟩
    obtain rfl : s = s' := Option.some.inj (hs.symm.trans hs')
    obtain rfl : r = r' := Option.some.inj (hr.symm.trans hr')
    refine ⟨r, hr, ?_⟩
    rcases hrs with hbefore | rfl
    · rcases hsr with hback | rfl
      · exact absurd hback hbefore.asymm
      · exact hs
    · exact hs

end PatchPresence
