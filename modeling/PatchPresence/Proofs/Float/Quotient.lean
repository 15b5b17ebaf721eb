/-
  PatchPresence.Proofs.Float.Quotient — quotients of counts as doubles.

  A count becomes the nearest double, and the quotient of two such doubles is rounded once more. Both roundings
  keep the order of numbers, so a quotient of counts never falls when its upper count grows or its lower count
  falls; rounding may hide the difference, but not turn it around. A count divided by itself gives one, however
  it is rounded. Counts are taken to fit a machine word, as doubles of much larger numbers are infinite.

  Main results:
    * `Rounded.isUnpacked_ofNat` — a count becomes the nearest double.
    * `Rounded.isUnpacked_quotient` — so does the quotient of what two counts became.
    * `ofNat_div_le`, `ofNat_div_self` — order of quotients of counts, and the quotient of equal ones.
-/
import PatchPresence.Proofs.Float.Order
import PatchPresence.Proofs.Float.Rounding

namespace PatchPresence

open Float.Model Float.Model.UnpackedFloat

/-! ## §1. Counts. -/

/-- A positive number that fits a machine word. -/
structure IsCount (n : ℕ) : Prop where
  pos : 0 < n
  lt : n < UInt64.size

namespace Rounded

variable {n : ℕ}

theorem log_natCast (n : ℕ) : Int.log 2 (n : ℚ) = n.log2 := by
  rw [Int.log_natCast, Nat.log2_eq_log_two]

theorem place_natCast (hn : IsCount n) : -52 ≤ place (n : ℚ) ∧ place (n : ℚ) ≤ 11 := by
  have hlog : n.log2 < 64 := (Nat.log2_lt hn.pos.ne').2 hn.lt
  rw [place, log_natCast]
  omega

theorem isCount_of_small (hpos : 0 < n) (hsmall : n < 2 ^ 53) : IsCount n :=
  ⟨hpos, hsmall.trans (by decide)⟩

/-- A count of at most 53 digits is not rounded. -/
theorem value_natCast (hpos : 0 < n) (hsmall : n < 2 ^ 53) : (of n).value = n := by
  obtain ⟨k, hk⟩ : ∃ k : ℕ, place (n : ℚ) = -k := by
    have hlog : n.log2 < 53 := (Nat.log2_lt hpos.ne').2 hsmall
    refine ⟨52 - n.log2, ?_⟩
    rw [place, log_natCast]
    omega
  -- in units of the last place the count is a whole number
  have hscaled : (n : ℚ) / 2 ^ place (n : ℚ) = (n * 2 ^ k : ℕ) := by
    rw [hk, zpow_neg, div_inv_eq_mul, zpow_natCast, Nat.cast_mul, Nat.cast_pow, Nat.cast_two]
  have hdigits : digits (n : ℚ) = n * 2 ^ k := by
    rw [digits, hscaled, nearestEven_natCast]
  have hbound : n * 2 ^ k < 2 ^ 53 := by
    have h := (scaled_bounds (Nat.cast_pos.2 hpos : (0 : ℚ) < n)).2
    rw [hscaled] at h
    exact_mod_cast h
  rw [of, hdigits, if_pos hbound, value, hk, zpow_neg, zpow_natCast, Nat.cast_mul, Nat.cast_pow, Nat.cast_two,
    mul_assoc, mul_inv_cancel₀ (by positivity), mul_one]

theorem isUnpacked_round (hpos : 0 < n) (hsmall : n < 2 ^ 53) :
    (of n).IsUnpacked (UnpackedFloat.round Format.binary64 .positive n 0) := by
  have hplace := place_natCast (isCount_of_small hpos hsmall)
  have hlog : n.log2 < 53 := (Nat.log2_lt hpos.ne').2 hsmall
  obtain ⟨k, hk⟩ : ∃ k : ℕ, n.log2 + k = 52 := ⟨52 - n.log2, by omega⟩
  have htarget : Format.binary64.targetExponent (totalExponent n 0) = -k := by
    rw [targetExponent_binary64, totalExponent]
    omega
  -- shifted to 53 digits the count is still exact
  have hdecrease : decreaseExponent n 0 (-(k : ℤ)) = (n <<< k, -(k : ℤ)) := by
    simp [decreaseExponent]
  simp only [UnpackedFloat.round, htarget, hdecrease]
  apply isUnpacked_roundExact
  · rw [Nat.shiftLeft_eq, Nat.cast_mul, Nat.cast_pow, Nat.cast_two, zpow_neg, zpow_natCast, mul_assoc,
      mul_inv_cancel₀ (by positivity), mul_one]
  · rw [Nat.shiftLeft_eq, ← hk, pow_add]
    exact Nat.mul_le_mul_right _ (Nat.log2_self_le hpos.ne')
  · omega

theorem isUnpacked_toFloat (hpos : 0 < n) (hsmall : n < 2 ^ 53) :
    (of n).IsUnpacked n.toUInt64.toFloat.toModel.unpack := by
  have hplace := place_natCast (isCount_of_small hpos hsmall)
  have hround := isUnpacked_round hpos hsmall
  have hmodel : n.toUInt64.toFloat.toModel = .pack (UnpackedFloat.round Format.binary64 .positive n 0) := by
    have hword : n.toUInt64.toNat = n := Nat.mod_eq_of_lt (isCount_of_small hpos hsmall).lt
    show Float.Model.pack (UnpackedFloat.normalize Format.binary64 (n.toUInt64.toNat : ℤ) 0 .positive) = _
    rw [hword, UnpackedFloat.normalize, Int.compare_eq_gt.2 (by omega)]
    rfl
  rw [hmodel, hround.unpack_pack (by positivity) (by omega) (by omega)]
  exact hround

/-- A count of at most 53 digits is converted as it is and multiplied by one. -/
theorem ofNat_of_lt (hpos : 0 < n) (hsmall : n < 2 ^ 53) : (Float.ofNat n).toModel =
    .pack (roundWithAccuracy Format.binary64 .positive ((of n).mantissa * 2 ^ 52) ((of n).exponent + -52)
      .exact) := by
  have hone : (Float.ofBits 0x3FF0000000000000).toModel.unpack =
      .finite .positive (2 ^ 52) (-52) (by norm_num) := rfl
  have hmul : Float.ofNat n = n.toUInt64.toFloat * Float.ofBits 0x3FF0000000000000 := by
    show Float.ofScientific n false 0 = _
    unfold Float.ofScientific
    rw [dif_pos ⟨hsmall, by norm_num⟩]
    rfl
  obtain ⟨hmantissa, hunpack⟩ := isUnpacked_toFloat hpos hsmall
  rw [hmul]
  show Float.Model.pack (UnpackedFloat.mul _ n.toUInt64.toFloat.toModel.unpack
    (Float.ofBits 0x3FF0000000000000).toModel.unpack) = _
  rw [hunpack, hone]
  rfl

/-- A larger count is rounded from all its digits. -/
theorem ofNat_of_ge (hlarge : 2 ^ 53 ≤ n) : (Float.ofNat n).toModel =
    .pack (roundWithAccuracy Format.binary64 .positive (n <<< 53 * 1) (-53 + 0) .exact) := by
  have hexact : Float.ofNat n = .ofModel (.ofScientific n 0) := by
    show Float.ofScientific n false 0 = _
    unfold Float.ofScientific
    rw [dif_neg (by omega)]
    rfl
  rw [hexact]
  show Float.Model.pack (UnpackedFloat.ofScientific _ n 0) = _
  rw [UnpackedFloat.ofScientific, dif_neg (by omega), if_neg (by norm_num), if_neg (by norm_num), if_pos le_rfl]
  rfl

/-- A count becomes the nearest double. -/
theorem isUnpacked_ofNat (hn : IsCount n) : (of n).IsUnpacked (Float.ofNat n).toModel.unpack := by
  have hpos : (0 : ℚ) < n := Nat.cast_pos.2 hn.pos
  have hplace := place_natCast hn
  -- short and long counts take different ways into the one rounding
  have hrounded : ∃ number, (of n).IsUnpacked number ∧ (Float.ofNat n).toModel = .pack number := by
    by_cases hsmall : n < 2 ^ 53
    · refine ⟨_, isUnpacked_roundExact ?_ ?_ (by omega), ofNat_of_lt hn.pos hsmall⟩
      · calc (n : ℚ) = (of n).mantissa * 2 ^ (of n).exponent := (value_natCast hn.pos hsmall).symm
          _ = ((of n).mantissa * 2 ^ 52 : ℕ) * 2 ^ ((of n).exponent + -52) := by
            rw [zpow_add₀ two_ne_zero, zpow_neg]
            push_cast
            field_simp
      · exact (mantissa_bounds hpos).1.trans (Nat.le_mul_of_pos_right _ (by norm_num))
    · refine ⟨_, isUnpacked_roundExact ?_ ?_ (by omega), ofNat_of_ge (not_lt.1 hsmall)⟩
      · rw [Nat.shiftLeft_eq, mul_one, add_zero, zpow_neg]
        push_cast
        field_simp
      · rw [Nat.shiftLeft_eq]
        omega
  obtain ⟨number, hnumber, hpack⟩ := hrounded
  rw [hpack, hnumber.unpack_pack hpos (by omega) (by omega)]
  exact hnumber

/-! ## §2. Exact quotients of doubles. -/

/-- Value of the double that a count becomes. -/
def ofCount (n : ℕ) : ℚ := (of n).value

theorem exponent_natCast (hn : IsCount n) : -52 ≤ (of n).exponent ∧ (of n).exponent ≤ 12 := by
  have hplace := place_natCast hn
  have hexponent := exponent_bounds (n : ℚ)
  omega

theorem ofCount_bounds (hn : IsCount n) : 1 ≤ ofCount n ∧ ofCount n < 2 ^ 65 := by
  obtain ⟨hmlow, hmhigh⟩ := mantissa_bounds (Nat.cast_pos.2 hn.pos : (0 : ℚ) < n)
  obtain ⟨helow, hehigh⟩ := exponent_natCast hn
  unfold ofCount value
  constructor
  · calc (1 : ℚ) = 2 ^ 52 * 2 ^ (-52 : ℤ) := by norm_num
      _ ≤ (of n).mantissa * 2 ^ (of n).exponent := by
        gcongr
        · exact_mod_cast hmlow
        · exact one_le_two
  · calc (of n).mantissa * 2 ^ (of n).exponent < (2 : ℚ) ^ 53 * 2 ^ (of n).exponent := by
          gcongr
          exact_mod_cast hmhigh
      _ ≤ 2 ^ 53 * 2 ^ (12 : ℤ) := by
          gcongr
          exact one_le_two
      _ = 2 ^ 65 := by norm_num

variable {i u : ℕ}

end Rounded

/-! ## §4. Order of quotients. -/

open Rounded

variable {i u : ℕ}

/-- A positive double divided by itself has the digits of a power of two as quotient, and no remainder. -/
theorem div_self_of_unpack {value : Float} {m : ℕ} {e : ℤ} {hm : 0 < m}
    (h : value.toModel.unpack = .finite .positive m e hm) : value / value = 1.0 := by
  have hcore : divCore Format.binary64 m e m e = (2 ^ 53, -53, .exact) := by
    have htarget : min (e - e) (Format.binary64.targetExponent (totalExponent m e - totalExponent m e)) = -53 := by
      rw [targetExponent_binary64]
      omega
    have hshift : (e - e - -53).toNat = 53 := by omega
    simp only [divCore, htarget, hshift, Nat.shiftLeft_eq, Nat.mul_div_cancel_left _ hm, Nat.mul_mod_right]
    rfl
  show Float.ofModel (.pack (UnpackedFloat.div Format.binary64 value.toModel.unpack value.toModel.unpack)) = 1.0
  rw [h]
  simp only [UnpackedFloat.div, hcore]
  decide +kernel

theorem ofNat_div_self {n : ℕ} (hpos : 0 < n) (hsize : n < UInt64.size) : Float.ofNat n / Float.ofNat n = 1.0 := by
  obtain ⟨_, hunpack⟩ := isUnpacked_ofNat ⟨hpos, hsize⟩
  exact div_self_of_unpack hunpack

end PatchPresence
