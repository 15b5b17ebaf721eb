/-
  PatchPresence.Proofs.Float.Totals — totals of counts as doubles, and what a share leaves of one.

  Counts are added up one by one, and every sum is rounded. A total grows up to the point where a count is less
  than half a unit of its last place, and stays there: however many counts there are, it is a finite double. So
  it divides itself to one and zero to zero, with nothing lost. A share, on the other side, may be any double from
  zero to one, also one below the normal numbers; what it leaves of one is rounded, but does not turn negative.

  Main results:
    * `Rounded.isUnpacked_add` — the sum of two positive doubles is the double nearest to the exact sum.
    * `IsTotal.of_count`, `IsTotal.add` — counts add up to a finite total.
    * `IsTotal.div_self`, `IsTotal.zero_div` — quotients by a total.
    * `zero_le_one_sub` — what is left of one behind a share of it.
-/
import PatchPresence.Proofs.Float.Quotient

namespace PatchPresence

open Float.Model Float.Model.UnpackedFloat

/-! ## §1. Sums. -/

namespace Rounded

variable {x y : ℚ} {a b : Float}

theorem value_pos (hx : 0 < x) : 0 < (of x).value :=
  mul_pos (Nat.cast_pos.2 (lt_of_lt_of_le (by norm_num) (mantissa_bounds hx).1)) (two_zpow_pos _)

/-- A number that has digits enough is rounded as it is. -/
theorem isUnpacked_roundLong {m : ℕ} {e : ℤ} (hx : x = m * 2 ^ e) (hm : 2 ^ 52 ≤ m) (hplace : -1074 ≤ place x) :
    (of x).IsUnpacked (UnpackedFloat.round Format.binary64 .positive m e) := by
  have hlog : 52 ≤ m.log2 := (Nat.le_log2 (by omega)).2 hm
  have hshift : (e - Format.binary64.targetExponent (totalExponent m e)).toNat = 0 := by
    rw [targetExponent_binary64, totalExponent]
    omega
  have hdecrease : decreaseExponent m e (Format.binary64.targetExponent (totalExponent m e)) = (m, e) := by
    simp only [decreaseExponent, hshift, Nat.shiftLeft_zero, Nat.cast_zero, sub_zero]
  simp only [UnpackedFloat.round, hdecrease]
  exact isUnpacked_roundExact hx hm hplace

/-- A mantissa that is moved to a smaller exponent stands for the same number. -/
theorem shiftLeft_mul_zpow (m : ℕ) {e smaller : ℤ} (h : smaller ≤ e) :
    ((m <<< (e - smaller).toNat : ℕ) : ℚ) * 2 ^ smaller = m * 2 ^ e := by
  obtain ⟨places, rfl⟩ : ∃ places : ℕ, e = smaller + places := ⟨(e - smaller).toNat, by omega⟩
  rw [show (smaller + places - smaller).toNat = places by omega, Nat.shiftLeft_eq, zpow_add₀ two_ne_zero,
    zpow_natCast]
  push_cast
  ring

/-- The sum of two positive doubles is the double nearest to the sum of their values. -/
theorem isUnpacked_add (hx : 0 < x) (ha : (of x).IsUnpacked a.toModel.unpack)
    (hb : (of y).IsUnpacked b.toModel.unpack) (hlow : -1074 ≤ place ((of x).value + (of y).value))
    (hhigh : place ((of x).value + (of y).value) < 970) :
    (of ((of x).value + (of y).value)).IsUnpacked (a + b).toModel.unpack := by
  obtain ⟨hapos, haunpack⟩ := ha
  obtain ⟨hbpos, hbunpack⟩ := hb
  -- both mantissas are brought to the smaller exponent and added as whole numbers
  generalize hsmaller : min (of x).exponent (of y).exponent = smaller
  generalize hfront : (of x).mantissa <<< ((of x).exponent - smaller).toNat = front
  generalize hback : (of y).mantissa <<< ((of y).exponent - smaller).toNat = back
  have hlong : 2 ^ 52 ≤ front := by
    rw [← hfront, Nat.shiftLeft_eq]
    exact (mantissa_bounds hx).1.trans (Nat.le_mul_of_pos_right _ (by positivity))
  have hadd : UnpackedFloat.add Format.binary64 a.toModel.unpack b.toModel.unpack =
      UnpackedFloat.round Format.binary64 .positive (front + back) smaller := by
    rw [haunpack, hbunpack]
    simp only [UnpackedFloat.add, decreaseExponent, Sign.apply, hsmaller, hfront, hback]
    rw [UnpackedFloat.normalize, Int.compare_eq_gt.2 (by omega)]
    exact congrArg (UnpackedFloat.round Format.binary64 .positive · smaller) (by omega)
  have hvalue : (of x).value + (of y).value = (front + back : ℕ) * 2 ^ smaller := by
    rw [Nat.cast_add, add_mul, ← hfront, ← hback, shiftLeft_mul_zpow _ (by omega),
      shiftLeft_mul_zpow _ (by omega)]
    rfl
  have hpos : 0 < (of x).value + (of y).value :=
    hvalue ▸ mul_pos (Nat.cast_pos.2 (by omega)) (two_zpow_pos smaller)
  have hrounded := isUnpacked_roundLong hvalue (by omega) hlow
  show (of _).IsUnpacked (Float.Model.pack (UnpackedFloat.add Format.binary64 a.toModel.unpack
    b.toModel.unpack)).unpack
  rw [hadd, hrounded.unpack_pack hpos hlow hhigh]
  exact hrounded

/-- At 2^120 a unit of the last place is 2^68, and no count comes near to half of that. -/
theorem value_absorbing : (of (2 ^ 120 + 2 ^ 65)).value = 2 ^ 120 := by
  have hlog : Int.log 2 ((2 : ℚ) ^ 120 + 2 ^ 65) = 120 :=
    log_of_bounds (by positivity) (by norm_num) (by norm_num)
  have hplace : place ((2 : ℚ) ^ 120 + 2 ^ 65) = 68 := by
    rw [place, hlog]
    norm_num
  have hdigits : digits ((2 : ℚ) ^ 120 + 2 ^ 65) = 2 ^ 52 := by
    have hscaled : ((2 : ℚ) ^ 120 + 2 ^ 65) / 2 ^ (68 : ℤ) = 2 ^ 52 + 1 / 8 := by norm_num
    have hfloor : ⌊(2 : ℚ) ^ 52 + 1 / 8⌋₊ = 2 ^ 52 := by
      rw [Nat.floor_eq_iff (by positivity)]
      norm_num
    rw [digits, hplace, hscaled, nearestEven, hfloor, if_pos (by norm_num)]
  rw [of, hdigits, if_pos (by norm_num), value, hplace]
  norm_num

end Rounded

/-! ## §2. Totals. -/

open Rounded

/-- A double is positive, and not above the point from which no count makes a difference. -/
def IsTotal (total : Float) : Prop :=
  ∃ x : ℚ, 0 < x ∧ (of x).value ≤ 2 ^ 120 ∧ (of x).IsUnpacked total.toModel.unpack

namespace IsTotal

variable {total : Float} {n : ℕ}

/-- The first count is taken as it is. -/
theorem of_count (hn : IsCount n) : IsTotal (0.0 + Float.ofNat n) := by
  have hcount := isUnpacked_ofNat hn
  have hplace := place_natCast hn
  have hpos : (0 : ℚ) < n := Nat.cast_pos.2 hn.pos
  have hsum : (0.0 + Float.ofNat n).toModel.unpack = (Float.ofNat n).toModel.unpack := by
    have hzero : (0.0 : Float).toModel.unpack = .zero .positive := rfl
    have hadd : UnpackedFloat.add Format.binary64 (.zero .positive) (Float.ofNat n).toModel.unpack =
        (Float.ofNat n).toModel.unpack := by
      obtain ⟨_, hunpack⟩ := hcount
      rw [hunpack]
      rfl
    show (Float.Model.pack (UnpackedFloat.add Format.binary64 (0.0 : Float).toModel.unpack
      (Float.ofNat n).toModel.unpack)).unpack = _
    rw [hzero, hadd, hcount.unpack_pack hpos (by omega) (by omega)]
  refine ⟨n, hpos, ?_, hsum ▸ hcount⟩
  exact (ofCount_bounds hn).2.le.trans (by norm_num)

/-- One more count: the exact sum is at most what is rounded down to the bound again, and rounding keeps the
    order. -/
theorem add (h : IsTotal total) (hn : IsCount n) : IsTotal (total + Float.ofNat n) := by
  obtain ⟨x, hx, hle, hunpack⟩ := h
  obtain ⟨hlow, hhigh⟩ : 1 ≤ (of n).value ∧ (of n).value < 2 ^ 65 := ofCount_bounds hn
  have hxvalue : 0 < (of x).value := value_pos hx
  have hsum : (of x).value + (of n).value ≤ 2 ^ 120 + 2 ^ 65 := add_le_add hle hhigh.le
  have hsumPos : 0 < (of x).value + (of n).value := by linarith
  have hlogLow : 0 ≤ Int.log 2 ((of x).value + (of n).value) := by
    rw [← Int.zpow_le_iff_le_log one_lt_two hsumPos, zpow_zero]
    linarith
  have hlogHigh : Int.log 2 ((of x).value + (of n).value) < 121 := by
    rw [← Int.lt_zpow_iff_log_lt one_lt_two hsumPos, Nat.cast_two]
    exact hsum.trans_lt (by norm_num)
  have hplace : -52 ≤ place ((of x).value + (of n).value) ∧ place ((of x).value + (of n).value) < 70 := by
    unfold place
    omega
  refine ⟨_, hsumPos, ?_, isUnpacked_add hx hunpack (isUnpacked_ofNat hn) (by omega) (by omega)⟩
  exact (value_mono hsumPos hsum).trans_eq value_absorbing

theorem exists_unpack (h : IsTotal total) : ∃ m e hm, total.toModel.unpack = .finite .positive m e hm := by
  obtain ⟨x, -, -, hm, hunpack⟩ := h
  exact ⟨_, _, hm, hunpack⟩

theorem beq_zero (h : IsTotal total) : (total == 0.0) = false := by
  obtain ⟨m, e, hm, hunpack⟩ := h.exists_unpack
  show UnpackedFloat.beq total.toModel.unpack (0.0 : Float).toModel.unpack = false
  rw [hunpack]
  rfl

theorem zero_div (h : IsTotal total) : 0.0 / total = 0.0 := by
  obtain ⟨m, e, hm, hunpack⟩ := h.exists_unpack
  show Float.ofModel (.pack (UnpackedFloat.div Format.binary64 (0.0 : Float).toModel.unpack
    total.toModel.unpack)) = 0.0
  rw [hunpack]
  rfl

theorem div_self (h : IsTotal total) : total / total = 1.0 := by
  obtain ⟨m, e, hm, hunpack⟩ := h.exists_unpack
  exact div_self_of_unpack hunpack

end IsTotal

/-! ## §3. Signs. -/

namespace FloatRank

/-- A number that is neither negative nor a NaN. -/
def IsNonneg (number : UnpackedFloat) : Prop := ∃ r, of number = some r ∧ 0 ≤ r.sign

theorem zero_le_iff {value : Float} : 0.0 ≤ value ↔ IsNonneg value.toModel.unpack := by
  have hzero : ofFloat 0.0 = some ⟨0, 0, 0⟩ := rfl
  rw [float_le_iff, hzero]
  unfold IsNonneg ofFloat
  cases value.toModel.unpack with
  | notANumber => simp [of]
  | infinity s => cases s <;> simp [of, Before]
  | zero s => simp [of, Before]
  | finite s m e h => cases s <;> simp [of, Before]

theorem IsNonneg.shape {number : UnpackedFloat} (h : IsNonneg number) :
    (∃ s, number = .zero s) ∨ (∃ m e hm, number = .finite .positive m e hm) ∨ number = .infinity .positive := by
  obtain ⟨r, hr, hsign⟩ := h
  cases number with
  | notANumber => cases hr
  | infinity s =>
    cases s with
    | negative =>
      obtain rfl := Option.some.inj hr
      norm_num at hsign
    | positive => exact .inr (.inr rfl)
  | zero s => exact .inl ⟨s, rfl⟩
  | finite s m e hm =>
    cases s with
    | negative =>
      obtain rfl := Option.some.inj hr
      norm_num at hsign
    | positive => exact .inr (.inl ⟨m, e, hm, rfl⟩)

theorem isNonneg_roundWithAccuracy (m : ℕ) (e : ℤ) (accuracy : Accuracy) :
    IsNonneg (roundWithAccuracy Format.binary64 .positive m e accuracy) := by
  unfold roundWithAccuracy
  dsimp only
  split_ifs
  · exact ⟨_, rfl, le_rfl⟩
  · exact ⟨_, rfl, zero_le_one⟩

theorem isNonneg_unpack_packComponents {exponent : BitVec 11} (h : exponent ≠ -1#11) (mantissa : BitVec 52) :
    IsNonneg (UnpackedFloat.unpack Format.binary64
      (packComponents Format.binary64 .positive exponent mantissa)) := by
  rw [UnpackedFloat.unpack]
  simp only [unpackMantissa_packComponents, unpackExponent_packComponents, unpackSign_packComponents,
    Sign.ofBitVec_toBitVec]
  rw [if_neg h]
  split_ifs
  · exact ⟨_, rfl, le_rfl⟩
  · exact ⟨_, rfl, zero_le_one⟩
  · exact ⟨_, rfl, zero_le_one⟩

/-- Packing may lose digits, or the whole number to infinity, but it keeps the sign. -/
theorem IsNonneg.unpack_pack {number : UnpackedFloat} (h : IsNonneg number) :
    IsNonneg (Float.Model.pack number).unpack := by
  rcases h.shape with ⟨s, rfl⟩ | ⟨m, e, hm, rfl⟩ | rfl
  · cases s <;> exact ⟨_, rfl, le_rfl⟩
  · show IsNonneg (UnpackedFloat.unpack Format.binary64 (UnpackedFloat.pack Format.binary64 _))
    rw [UnpackedFloat.pack]
    dsimp only
    split_ifs with hlarge hnormal
    · exact ⟨_, rfl, zero_le_two⟩
    · -- an exponent of ones is that of infinity, which was the first case
      apply isNonneg_unpack_packComponents
      intro hall
      have hfield := congrArg BitVec.toNat hall
      have hones : (-1#11).toNat = 2047 := rfl
      rw [BitVec.toNat_ofNat, hones] at hfield
      change ¬ 2 ^ 11 ≤ _ at hlarge
      change _ % 2 ^ 11 = _ at hfield
      omega
    · exact isNonneg_unpack_packComponents (by decide) _
  · exact ⟨_, rfl, zero_le_two⟩

end FloatRank

/-! ## §4. Shares. -/

open FloatRank

variable {share : Float}

theorem unpack_one : (1.0 : Float).toModel.unpack = .finite .positive (2 ^ 52) (-52) (by norm_num) := rfl

theorem mantissa_lt_of_unpack {value : Float} {s : Sign} {m : ℕ} {e : ℤ} {hm : 0 < m}
    (h : value.toModel.unpack = .finite s m e hm) : m < 2 ^ 53 := by
  change UnpackedFloat.unpack Format.binary64 _ = _ at h
  rw [UnpackedFloat.unpack] at h
  dsimp only at h
  split_ifs at h
  · obtain ⟨-, rfl, -⟩ := UnpackedFloat.finite.inj h
    exact (BitVec.isLt _).trans (by decide)
  · obtain ⟨-, rfl, -⟩ := UnpackedFloat.finite.inj h
    exact BitVec.isLt _

/-- A number from zero to one is a zero, or positive with a rank not above that of one. -/
theorem unpack_share (hlow : 0.0 ≤ share) (hhigh : share ≤ 1.0) :
    (∃ s, share.toModel.unpack = .zero s) ∨
      ∃ m e hm, share.toModel.unpack = .finite .positive m e hm ∧ (e < -52 ∨ e = -52 ∧ m ≤ 2 ^ 52) := by
  obtain ⟨r, hr, one, hone, hle⟩ := float_le_iff.1 hhigh
  obtain rfl : (⟨1, -52, 2 ^ 52⟩ : FloatRank) = one := by
    rw [ofFloat, unpack_one] at hone
    exact Option.some.inj hone
  unfold ofFloat at hr
  rcases (zero_le_iff.1 hlow).shape with hzero | ⟨m, e, hm, hfinite⟩ | hinfinite
  · exact .inl hzero
  · rw [hfinite] at hr
    obtain rfl := Option.some.inj hr
    refine .inr ⟨m, e, hm, hfinite, ?_⟩
    simp only [Before, FloatRank.mk.injEq] at hle
    omega
  · rw [hinfinite] at hr
    obtain rfl := Option.some.inj hr
    norm_num [Before] at hle

/-- What is left of one behind a share of it is not negative. -/
theorem zero_le_one_sub (hlow : 0.0 ≤ share) (hhigh : share ≤ 1.0) : 0.0 ≤ 1.0 - share := by
  rw [zero_le_iff]
  show IsNonneg (Float.Model.pack (UnpackedFloat.sub Format.binary64 (1.0 : Float).toModel.unpack
    share.toModel.unpack)).unpack
  apply IsNonneg.unpack_pack
  rw [unpack_one]
  rcases unpack_share hlow hhigh with ⟨s, hzero⟩ | ⟨m, e, hm, hfinite, hrank⟩
  · rw [hzero]
    exact ⟨_, rfl, zero_le_one⟩
  · have hlt := mantissa_lt_of_unpack hfinite
    have hsmaller : min (-52) e = e := by omega
    -- in units of the share's last place, one is at least as many
    have hunits : m ≤ 2 ^ 52 <<< (-52 - e).toNat := by
      rw [Nat.shiftLeft_eq]
      rcases hrank with hbelow | ⟨rfl, hle⟩
      · obtain ⟨places, hplaces⟩ : ∃ places, (-52 - e).toNat = places + 1 := ⟨(-52 - e).toNat - 1, by omega⟩
        have hpow : 0 < 2 ^ places := by positivity
        rw [hplaces, pow_succ]
        omega
      · simpa using hle
    rw [hfinite]
    simp only [UnpackedFloat.sub, decreaseExponent, Sign.apply, hsmaller, sub_self, Int.toNat_zero,
      Nat.shiftLeft_zero, UnpackedFloat.normalize]
    split
    · next hless =>
      rw [Int.compare_eq_lt] at hless
      omega
    · exact ⟨_, rfl, le_rfl⟩
    · exact isNonneg_roundWithAccuracy _ _ _

end PatchPresence
