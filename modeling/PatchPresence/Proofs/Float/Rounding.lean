/-
  PatchPresence.Proofs.Float.Rounding — rounding a positive number to 53 binary places.

  The operations on doubles keep the whole part of an exact quotient and two bits on what is left, drop digits
  until 53 are left and round them to the nearest number, a half to the even one. That is a function of the
  quotient alone, whatever the digits it was given with, and it keeps the order of numbers. In the range of
  normal numbers nothing more is lost when the result is packed.

  Main results:
    * `Rounded.of_mono` — a greater number is not rounded to a smaller one.
    * `Rounded.isUnpacked_roundWithAccuracy` — the rounding of quotients is `Rounded.of`.
    * `Rounded.IsUnpacked.unpack_pack` — the rounded number is packed without loss.
-/
import Mathlib

namespace PatchPresence

open Float.Model Float.Model.UnpackedFloat

/-! ## §1. The nearest whole number. -/

/-- The whole number nearest to `x`; of two that are equally near, the even one. -/
def nearestEven (x : ℚ) : ℕ :=
  if x < ⌊x⌋₊ + 1 / 2 then ⌊x⌋₊ else if x = ⌊x⌋₊ + 1 / 2 then ⌊x⌋₊ + ⌊x⌋₊ % 2 else ⌊x⌋₊ + 1

theorem floor_le_nearestEven (x : ℚ) : ⌊x⌋₊ ≤ nearestEven x := by
  unfold nearestEven
  split_ifs <;> omega

theorem nearestEven_le_floor_succ (x : ℚ) : nearestEven x ≤ ⌊x⌋₊ + 1 := by
  unfold nearestEven
  split_ifs <;> omega

theorem nearestEven_mono {x y : ℚ} (h : x ≤ y) : nearestEven x ≤ nearestEven y := by
  rcases Nat.lt_or_eq_of_le (Nat.floor_le_floor h) with hlt | heq
  · calc nearestEven x ≤ ⌊x⌋₊ + 1 := nearestEven_le_floor_succ x
      _ ≤ ⌊y⌋₊ := hlt
      _ ≤ nearestEven y := floor_le_nearestEven y
  · have hcast : (⌊x⌋₊ : ℚ) = ⌊y⌋₊ := congrArg Nat.cast heq
    -- the whole parts are the same, so what is behind the point decides
    by_cases hx : x < ⌊x⌋₊ + 1 / 2
    · calc nearestEven x = ⌊x⌋₊ := if_pos hx
        _ = ⌊y⌋₊ := heq
        _ ≤ nearestEven y := floor_le_nearestEven y
    by_cases hy : ⌊y⌋₊ + 1 / 2 < y
    · calc nearestEven x ≤ ⌊x⌋₊ + 1 := nearestEven_le_floor_succ x
        _ = ⌊y⌋₊ + 1 := by rw [heq]
        _ = nearestEven y := by
          unfold nearestEven
          rw [if_neg (not_lt.2 hy.le), if_neg hy.ne']
    · have hsame : x = y := by linarith
      rw [hsame]

theorem nearestEven_natCast (n : ℕ) : nearestEven n = n := by
  unfold nearestEven
  rw [Nat.floor_natCast, if_pos (by linarith)]

/-! ## §2. Quotients with residual bits. -/

/-- The whole part of `a / b`, with the two bits that tell what is left. -/
def quotientBits (a b : ℕ) : ExtendedMantissa :=
  .ofMantissaAndAccuracy (a / b) (accuracyOfFraction (a % b) b)

theorem quotientBits_eq (a : ℕ) {b : ℕ} (hb : 0 < b) : quotientBits a b =
    ⟨a / b, decide (b ≤ 2 * (a % b)), decide (a % b ≠ 0 ∧ 2 * (a % b) ≠ b)⟩ := by
  unfold quotientBits accuracyOfFraction
  by_cases hrest : a % b = 0
  · rw [if_pos hrest]
    simp [ExtendedMantissa.ofMantissaAndAccuracy, hrest, hb.ne']
  rw [if_neg hrest]
  cases hhalf : compare (2 * (a % b)) b with
  | lt =>
    rw [Nat.compare_eq_lt] at hhalf
    simp [ExtendedMantissa.ofMantissaAndAccuracy, hrest, hhalf, hhalf.ne]
  | eq =>
    rw [Nat.compare_eq_eq] at hhalf
    simp [ExtendedMantissa.ofMantissaAndAccuracy, hhalf]
  | gt =>
    rw [Nat.compare_eq_gt] at hhalf
    simp [ExtendedMantissa.ofMantissaAndAccuracy, hrest, hhalf.le, hhalf.ne']

/-- A place less is a divisor twice as large. -/
theorem shiftRightOne_quotientBits (a : ℕ) {b : ℕ} (hb : 0 < b) :
    (quotientBits a b).shiftRightOne = quotientBits a (b * 2) := by
  have hrest : a % b < b := Nat.mod_lt a hb
  have hleft : (decide (b ≤ 2 * (a % b)) || decide (a % b ≠ 0 ∧ 2 * (a % b) ≠ b)) = decide (a % b ≠ 0) := by
    rw [← Bool.decide_or, decide_eq_decide]
    omega
  rw [quotientBits_eq a hb, quotientBits_eq a (by omega), ExtendedMantissa.shiftRightOne, hleft,
    ← Nat.div_div_eq_div_mul, Nat.mod_mul]
  -- the last bit of the quotient becomes the first of the rest
  rcases Nat.mod_two_eq_zero_or_one (a / b) with hbit | hbit
  · rw [hbit, mul_zero, add_zero]
    congr 1
    · exact (decide_eq_false (by omega)).symm
    · rw [decide_eq_decide]
      omega
  · rw [hbit, mul_one]
    congr 1
    · exact (decide_eq_true (by omega)).symm
    · rw [decide_eq_decide]
      omega

theorem shiftRight_quotientBits (a : ℕ) {b : ℕ} (hb : 0 < b) (places : ℕ) :
    quotientBits a b >>> places = quotientBits a (b * 2 ^ places) := by
  show places.repeat ExtendedMantissa.shiftRightOne (quotientBits a b) = _
  induction places with
  | zero => rw [Nat.repeat, pow_zero, mul_one]
  | succ places ih =>
    rw [Nat.repeat, ih, shiftRightOne_quotientBits a (by positivity), pow_succ, mul_assoc]

theorem roundedMantissa_quotientBits (a : ℕ) {b : ℕ} (hb : 0 < b) :
    (quotientBits a b).roundedMantissa = nearestEven (a / b) := by
  have hb' : (0 : ℚ) < b := Nat.cast_pos.2 hb
  have hsplit : (a / b : ℚ) = (a / b : ℕ) + (a % b : ℕ) / b := by
    rw [add_div' _ _ _ hb'.ne', div_left_inj' hb'.ne']
    exact_mod_cast (Nat.div_add_mod' a b).symm
  have hlt : (a / b : ℚ) < (a / b : ℕ) + 1 / 2 ↔ 2 * (a % b) < b := by
    rw [hsplit, add_lt_add_iff_left, div_lt_div_iff₀ hb' two_pos]
    norm_cast
    omega
  have heq : (a / b : ℚ) = (a / b : ℕ) + 1 / 2 ↔ 2 * (a % b) = b := by
    rw [hsplit, add_right_inj, div_eq_div_iff hb'.ne' two_ne_zero]
    norm_cast
    omega
  unfold nearestEven
  simp only [Nat.floor_div_eq_div, hlt, heq, quotientBits_eq a hb]
  rcases Nat.lt_trichotomy (2 * (a % b)) b with hhalf | hhalf | hhalf
  · rw [if_pos hhalf, decide_eq_false (not_le.2 hhalf)]
    cases decide (a % b ≠ 0 ∧ 2 * (a % b) ≠ b) <;> rfl
  · rw [if_neg hhalf.not_lt, if_pos hhalf, decide_eq_true hhalf.ge,
      decide_eq_false (not_and_not_right.2 fun _ => hhalf)]
    rfl
  · rw [if_neg (not_lt.2 hhalf.le), if_neg hhalf.ne', decide_eq_true hhalf.le,
      decide_eq_true ⟨by omega, hhalf.ne'⟩]
    rfl

/-! ## §3. Rounding to 53 binary places. -/

/-- A positive number rounded to 53 binary places, as mantissa and exponent. -/
structure Rounded where
  mantissa : ℕ
  exponent : ℤ

namespace Rounded

/-- Exponent of the last of 53 places. -/
def place (x : ℚ) : ℤ := Int.log 2 x - 52

/-- The 53 digits in units of the last place; they may round up to one place more. -/
def digits (x : ℚ) : ℕ := nearestEven (x / 2 ^ place x)

/-- The number with 53 places nearest to `x`. -/
def of (x : ℚ) : Rounded :=
  if digits x < 2 ^ 53 then ⟨digits x, place x⟩ else ⟨2 ^ 52, place x + 1⟩

/-- Value of the number. -/
def value (r : Rounded) : ℚ := r.mantissa * 2 ^ r.exponent

variable {x y : ℚ}

theorem two_zpow_pos (e : ℤ) : (0 : ℚ) < 2 ^ e := zpow_pos two_pos e

/-- In units of the last place a number has 53 digits in front of the point. -/
theorem scaled_bounds (hx : 0 < x) : 2 ^ 52 ≤ x / 2 ^ place x ∧ x / 2 ^ place x < 2 ^ 53 := by
  have hlow : (2 : ℚ) ^ Int.log 2 x ≤ x := mod_cast Int.zpow_log_le_self one_lt_two hx
  have hhigh : x < (2 : ℚ) ^ (Int.log 2 x + 1) := mod_cast Int.lt_zpow_succ_log_self one_lt_two x
  constructor
  · rw [le_div_iff₀ (two_zpow_pos _), ← zpow_natCast, ← zpow_add₀ two_ne_zero]
    simpa [place] using hlow
  · rw [div_lt_iff₀ (two_zpow_pos _), ← zpow_natCast, ← zpow_add₀ two_ne_zero]
    have hplaces : ((53 : ℕ) : ℤ) + place x = Int.log 2 x + 1 := by
      unfold place
      push_cast
      ring
    rwa [hplaces]

theorem digits_bounds (hx : 0 < x) : 2 ^ 52 ≤ digits x ∧ digits x ≤ 2 ^ 53 := by
  obtain ⟨hlow, hhigh⟩ := scaled_bounds hx
  have hlow' := nearestEven_mono (show ((2 ^ 52 : ℕ) : ℚ) ≤ _ by exact_mod_cast hlow)
  have hhigh' := nearestEven_mono (show _ ≤ ((2 ^ 53 : ℕ) : ℚ) by exact_mod_cast hhigh.le)
  rw [nearestEven_natCast] at hlow' hhigh'
  exact ⟨hlow', hhigh'⟩

theorem mantissa_bounds (hx : 0 < x) : 2 ^ 52 ≤ (of x).mantissa ∧ (of x).mantissa < 2 ^ 53 := by
  obtain ⟨hlow, hhigh⟩ := digits_bounds hx
  unfold of
  split_ifs with hdigits
  · exact ⟨hlow, hdigits⟩
  · exact ⟨le_rfl, by norm_num⟩

theorem exponent_bounds (x : ℚ) : place x ≤ (of x).exponent ∧ (of x).exponent ≤ place x + 1 := by
  unfold of
  split_ifs <;> simp only <;> omega

/-- Rounding keeps the order: the exponents decide, and the mantissas if they are the same. -/
theorem of_mono (hx : 0 < x) (h : x ≤ y) : (of x).exponent < (of y).exponent ∨
    (of x).exponent = (of y).exponent ∧ (of x).mantissa ≤ (of y).mantissa := by
  have hplace : place x ≤ place y := Int.sub_le_sub_right (Int.log_mono_right hx h) 52
  have hdigits := digits_bounds (hx.trans_le h)
  rcases hplace.lt_or_eq with hlt | heq
  · -- at most one place more for `x`, and at least as many for `y`
    have hxdigits := digits_bounds hx
    unfold of
    split_ifs <;> simp only <;> omega
  · have hmono : digits x ≤ digits y := by
      unfold digits
      rw [heq]
      apply nearestEven_mono
      gcongr
    unfold of
    split_ifs <;> simp only <;> omega

theorem value_mono (hx : 0 < x) (h : x ≤ y) : (of x).value ≤ (of y).value := by
  obtain ⟨-, hhigh⟩ := mantissa_bounds hx
  obtain ⟨hlow, -⟩ := mantissa_bounds (hx.trans_le h)
  rcases of_mono hx h with hlt | ⟨heq, hle⟩
  · calc (of x).value ≤ 2 ^ 53 * 2 ^ (of x).exponent := by
          unfold value
          gcongr
          exact_mod_cast hhigh.le
      _ = 2 ^ 52 * 2 ^ ((of x).exponent + 1) := by
          rw [zpow_add_one₀ two_ne_zero]
          ring
      _ ≤ (of y).value := by
          unfold value
          gcongr
          · exact_mod_cast hlow
          · exact one_le_two
          · omega
  · unfold value
    rw [heq]
    gcongr

/-! ## §4. The rounding of the model. -/

/-- An unpacked number is a rounded one. -/
def IsUnpacked (r : Rounded) (number : UnpackedFloat) : Prop :=
  ∃ hpos, number = .finite .positive r.mantissa r.exponent hpos

theorem targetExponent_binary64 (total : ℤ) :
    Format.binary64.targetExponent total = max (total - 53) (-1074) := rfl

theorem log_of_bounds {n : ℤ} (hx : 0 < x) (hlow : 2 ^ n ≤ x) (hhigh : x < 2 ^ (n + 1)) : Int.log 2 x = n := by
  apply le_antisymm
  · exact Int.lt_add_one_iff.1 ((Int.lt_zpow_iff_log_lt one_lt_two hx).1 (mod_cast hhigh))
  · exact (Int.zpow_le_iff_le_log one_lt_two hx).1 (mod_cast hlow)

/-- The exponent of a quotient is seen in its whole part. -/
theorem log_quotient {a b : ℕ} (hwhole : a / b ≠ 0) (e : ℤ) :
    Int.log 2 ((a / b : ℚ) * 2 ^ e) = (a / b).log2 + e := by
  have hfloor : ⌊(a / b : ℚ)⌋₊ = a / b := Nat.floor_div_eq_div a b
  have hlow : (2 : ℚ) ^ (a / b).log2 ≤ a / b := by
    rw [← Nat.cast_two, ← Nat.cast_pow, ← Nat.le_floor_iff (by positivity), hfloor]
    exact Nat.log2_self_le hwhole
  have hhigh : (a / b : ℚ) < 2 ^ ((a / b).log2 + 1) := by
    rw [← Nat.cast_two, ← Nat.cast_pow, ← Nat.floor_lt (by positivity), hfloor]
    exact Nat.lt_log2_self
  apply log_of_bounds
  · exact mul_pos (lt_of_lt_of_le (by positivity) hlow) (two_zpow_pos e)
  · rw [zpow_add₀ two_ne_zero, zpow_natCast]
    gcongr
  · rw [add_right_comm, zpow_add₀ two_ne_zero]
    gcongr
    exact_mod_cast hhigh

theorem shiftToTargetExponent_quotient (a : ℕ) {b : ℕ} (hb : 0 < b) (e : ℤ) (shift : ℕ)
    (hshift : (Format.binary64.targetExponent (totalExponent (a / b) e) - e).toNat = shift) :
    shiftToTargetExponent Format.binary64 (a / b) e (accuracyOfFraction (a % b) b) =
      (quotientBits a (b * 2 ^ shift), e + shift) := by
  subst hshift
  rw [← shiftRight_quotientBits a hb]
  rfl

theorem mantissa_quotientBits (a : ℕ) {b : ℕ} (hb : 0 < b) : (quotientBits a b).mantissa = a / b := by
  rw [quotientBits_eq a hb]

/-- Digits that rounded up to one place more lose their last one, which is zero. -/
theorem shiftToTargetExponent_digits {d : ℕ} {p : ℤ} (hp : -1074 ≤ p) (hlow : 2 ^ 52 ≤ d) (hhigh : d ≤ 2 ^ 53) :
    (shiftToTargetExponent Format.binary64 d p .exact).1.mantissa = (if d < 2 ^ 53 then d else 2 ^ 52)
      ∧ (shiftToTargetExponent Format.binary64 d p .exact).2 = if d < 2 ^ 53 then p else p + 1 := by
  have hshift := shiftToTargetExponent_quotient d one_pos p (if d < 2 ^ 53 then 0 else 1)
  rw [Nat.div_one, Nat.mod_one] at hshift
  have htarget : Format.binary64.targetExponent (totalExponent d p) = if d < 2 ^ 53 then p else p + 1 := by
    rw [targetExponent_binary64, totalExponent]
    split_ifs with hd
    · have hlog : d.log2 = 52 := (Nat.log2_eq_iff (by omega)).2 ⟨hlow, hd⟩
      omega
    · have hlog : d.log2 = 53 := (Nat.log2_eq_iff (by omega)).2 ⟨by omega, by omega⟩
      omega
  replace hshift := hshift (by rw [htarget]; split_ifs <;> omega)
  change shiftToTargetExponent Format.binary64 d p .exact = _ at hshift
  rw [hshift, mantissa_quotientBits _ (by positivity)]
  split_ifs with hd
  · simp
  · obtain rfl : d = 2 ^ 53 := by omega
    simp

/-- The rounding takes a quotient with enough digits to the nearest number with 53 places. -/
theorem isUnpacked_roundWithAccuracy {a b : ℕ} (hb : 0 < b) {e : ℤ} (hx : x = (a / b : ℚ) * 2 ^ e)
    (hwhole : 2 ^ 52 ≤ a / b) (hplace : -1074 ≤ place x) :
    (of x).IsUnpacked
      (roundWithAccuracy Format.binary64 .positive (a / b) e (accuracyOfFraction (a % b) b)) := by
  have hlog : Int.log 2 x = (a / b).log2 + e := hx ▸ log_quotient (by omega) e
  have henough : 52 ≤ (a / b).log2 := (Nat.le_log2 (by omega)).2 hwhole
  obtain ⟨shift, hshift⟩ : ∃ shift : ℕ, place x = e + shift := by
    refine ⟨(a / b).log2 - 52, ?_⟩
    unfold place
    omega
  have hfirst := shiftToTargetExponent_quotient a hb e shift (by
    rw [targetExponent_binary64, totalExponent]
    unfold place at *
    omega)
  have hdigits : (quotientBits a (b * 2 ^ shift)).roundedMantissa = digits x := by
    rw [roundedMantissa_quotientBits a (by positivity)]
    unfold digits
    rw [hshift, hx, zpow_add₀ two_ne_zero, zpow_natCast]
    congr 1
    push_cast
    field_simp
  have hpos : 0 < x := by
    have ha : 0 < a := Nat.pos_of_ne_zero fun ha => by simp [ha] at hwhole
    rw [hx]
    positivity
  obtain ⟨hlow, hhigh⟩ := digits_bounds hpos
  obtain ⟨hmantissa, hexponent⟩ := shiftToTargetExponent_digits hplace hlow hhigh
  unfold roundWithAccuracy
  simp only [hfirst, hdigits, ← hshift, hmantissa, hexponent]
  unfold of
  by_cases hcarry : digits x < 2 ^ 53
  · simp only [hcarry, if_true, show digits x ≠ 0 by omega, dite_false]
    exact ⟨_, rfl⟩
  · simp only [hcarry, if_false]
    exact ⟨_, rfl⟩

/-! ## §5. Packing. -/

/-- A number with 53 places and an exponent that is not too large is packed without loss. -/
theorem unpack_pack {m : ℕ} {e : ℤ} (hpos : 0 < m) (hlow : 2 ^ 52 ≤ m) (hhigh : m < 2 ^ 53)
    (he : -1074 ≤ e) (he' : e ≤ 970) :
    (Float.Model.pack (.finite .positive m e hpos)).unpack = .finite .positive m e hpos := by
  have hlog : m.log2 = 52 := (Nat.log2_eq_iff (by omega)).2 ⟨hlow, hhigh⟩
  obtain ⟨field, hfield⟩ : ∃ field : ℕ, e + 1075 = field := ⟨(e + 1075).toNat, by omega⟩
  have hbiased : (e + Format.binary64.exponentBias + Format.binary64.mantissaBitsWithoutImplicit).toNat = field := by
    show (e + 1023 + 52).toNat = field
    omega
  have hpack : UnpackedFloat.pack Format.binary64 (.finite .positive m e hpos) =
      packComponents Format.binary64 .positive (BitVec.ofNat 11 field) (BitVec.ofNat 52 m) := by
    simp only [UnpackedFloat.pack, hbiased]
    rw [if_neg (show ¬ 2 ^ 11 ≤ field + 1 by omega),
      if_pos (show m.log2 + 1 = Format.binary64.mantissaBits by rw [hlog]; rfl)]
  have hexponent : (BitVec.ofNat 11 field).toNat = field := Nat.mod_eq_of_lt (by omega)
  have hmantissa : (1#1 ++ BitVec.ofNat 52 m).toNat = m := by
    rw [BitVec.toNat_append, ← Nat.shiftLeft_add_eq_or_of_lt (BitVec.isLt _)]
    show 2 ^ 52 + m % 2 ^ 52 = m
    omega
  -- the exponent is neither that of infinity nor that of the numbers below the normal ones
  have hother : ∀ n < 2 ^ 11, n ≠ field → BitVec.ofNat 11 field ≠ BitVec.ofNat 11 n := by
    intro n hn hne h
    apply hne
    rw [← hexponent, h, BitVec.toNat_ofNat, Nat.mod_eq_of_lt hn]
  have hfinite : BitVec.ofNat 11 field ≠ -1#11 := hother 2047 (by norm_num) (by omega)
  have hnormal : BitVec.ofNat 11 field ≠ 0#11 := hother 0 (by norm_num) (by omega)
  show UnpackedFloat.unpack Format.binary64 (UnpackedFloat.pack Format.binary64 _) = _
  rw [hpack, UnpackedFloat.unpack]
  simp only [unpackMantissa_packComponents, unpackExponent_packComponents, unpackSign_packComponents, hfinite,
    hnormal, if_false, hexponent, hmantissa]
  congr 1
  show (field : ℤ) - (1023 + 52) = e
  omega

theorem isUnpacked_roundExact {m : ℕ} {e : ℤ} (hx : x = m * 2 ^ e) (hm : 2 ^ 52 ≤ m) (hplace : -1074 ≤ place x) :
    (of x).IsUnpacked (roundWithAccuracy Format.binary64 .positive m e .exact) := by
  have h := isUnpacked_roundWithAccuracy (a := m) one_pos (by rw [hx, Nat.cast_one, div_one])
    (hm.trans_eq (Nat.div_one m).symm) hplace
  rwa [Nat.div_one, Nat.mod_one] at h

theorem IsUnpacked.unpack_pack {number : UnpackedFloat} (h : (of x).IsUnpacked number) (hx : 0 < x)
    (hlow : -1074 ≤ place x) (hhigh : place x < 970) : (Float.Model.pack number).unpack = number := by
  obtain ⟨hpos, rfl⟩ := h
  obtain ⟨hmlow, hmhigh⟩ := mantissa_bounds hx
  obtain ⟨helow, hehigh⟩ := exponent_bounds x
  exact Rounded.unpack_pack hpos hmlow hmhigh (by omega) (by omega)

end Rounded

end PatchPresence
