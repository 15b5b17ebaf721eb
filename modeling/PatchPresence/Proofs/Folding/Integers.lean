/-
  PatchPresence.Proofs.Folding.Integers — operators on whole numbers, against exact arithmetic.

  Ints, longs and characters stand for mathematical integers. An operator on them is computed in 32 or 64 bits; what
  it gives is the exact result, brought into the range of its type. The two widths are treated as one: operators are
  restated on bit vectors of any width, and every operator on these is the exact one behind `BitVec.ofInt`.

  Main results:
    * `BinaryOp.onBits_eq`, `BinaryOp.shiftBits_eq` — operators of any width against exact ones.
    * `Constant.binary_whole` — operators on ints, longs and characters against exact ones.
-/
import Mathlib.Data.Int.Bitwise
import PatchPresence.Folding.Arithmetic

namespace PatchPresence

/-! ## §1. Exact operators. -/

namespace BinaryOp

/-- Arithmetic on integers. Division truncates toward zero, and there is none by zero. -/
def exactResult? (op : BinaryOp) (x y : Int) : Option Int :=
  match op with
  | .add => some (x + y)
  | .sub => some (x - y)
  | .mul => some (x * y)
  | .div => if y = 0 then none else some (x.tdiv y)
  | .rem => if y = 0 then none else some (x.tmod y)
  | .bitAnd => some (x.land y)
  | .bitOr => some (x.lor y)
  | .bitXor => some (x.xor y)
  | _ => none

/-- Shifts of an integer. The last one is that of its remainder modulo a power of two, which is not negative. -/
def exactShift (op : BinaryOp) (bits : Nat) (x : Int) (distance : Nat) : Int :=
  match op with
  | .shl => x * 2 ^ distance
  | .shr => x / 2 ^ distance
  | _ => x % 2 ^ bits / 2 ^ distance

/-- Comparisons of integers. -/
def exactOrder (op : BinaryOp) (x y : Int) : Bool :=
  match op with
  | .eq => x = y
  | .ne => x ≠ y
  | .lt => x < y
  | .le => x ≤ y
  | .gt => y < x
  | _ => y ≤ x

end BinaryOp

/-- A whole number of one of the three types. -/
inductive Whole
  | int (value : Int32)
  | long (value : Int64)
  | char (unit : UInt16)
deriving DecidableEq, Repr

namespace Whole

/-- The number as a constant. -/
def constant : Whole → Constant
  | .int value => .int value
  | .long value => .long value
  | .char unit => .char unit

/-- The integer that the number stands for. -/
def toInt : Whole → Int
  | .int value => value.toInt
  | .long value => value.toInt
  | .char unit => unit.toNat

/-- Whether the number is a long. -/
def isLong : Whole → Bool
  | .long _ => true
  | _ => false

/-- Width of longs, or of ints and what is promoted to them. -/
def bits (long : Bool) : Nat := if long then 64 else 32

/-- An integer brought into the range of longs or of ints. -/
def reduce (long : Bool) (z : Int) : Constant :=
  if long then .long (.ofInt (z.bmod (2 ^ 64))) else .int (.ofInt (z.bmod (2 ^ 32)))

/-- Value of an operator on whole numbers, from the integers that they stand for. -/
def binary (op : BinaryOp) (a b : Whole) : Option Constant :=
  match op with
  | .shl | .shr | .ushr =>
    let distance := (b.toInt % bits a.isLong).toNat
    some (reduce a.isLong (op.exactShift (bits a.isLong) a.toInt distance))
  | .eq | .ne | .lt | .le | .gt | .ge => some (.bool (op.exactOrder a.toInt b.toInt))
  | _ => (op.exactResult? a.toInt b.toInt).map (reduce (a.isLong || b.isLong))

end Whole

/-! ## §2. Bit vectors. -/

section Bits

variable {w : Nat}

theorem getLsbD_ofInt (x : Int) {i : Nat} (hi : i < w) : (BitVec.ofInt w x).getLsbD i = x.testBit i := by
  cases x with
  | ofNat m =>
    show (BitVec.ofInt w (m : Int)).getLsbD i = m.testBit i
    rw [BitVec.ofInt_natCast, BitVec.getLsbD_ofNat]
    simp [hi]
  | negSucc m =>
    -- in two's complement the bits of `-(m + 1)` are those of `m`, flipped
    show _ = !m.testBit i
    rw [BitVec.ofInt_negSucc_eq_not_ofNat, BitVec.getLsbD_not, BitVec.getLsbD_ofNat]
    simp [hi]

/-- What is computed bit by bit on integers is computed bit by bit on bit vectors. -/
theorem ofInt_bitwise {onInt : Int → Int → Int} {onBits : BitVec w → BitVec w → BitVec w} {onBit : Bool → Bool → Bool}
    (hint : ∀ x y i, (onInt x y).testBit i = onBit (x.testBit i) (y.testBit i))
    (hbits : ∀ a b i, (onBits a b).getLsbD i = onBit (a.getLsbD i) (b.getLsbD i)) (a b : BitVec w) :
    BitVec.ofInt w (onInt a.toInt b.toInt) = onBits a b := by
  refine BitVec.eq_of_getLsbD_eq fun i hi => ?_
  rw [getLsbD_ofInt _ hi, hint, hbits, ← getLsbD_ofInt _ hi, ← getLsbD_ofInt _ hi, BitVec.ofInt_toInt,
    BitVec.ofInt_toInt]

theorem toInt_eq_zero_iff (a : BitVec w) : a.toInt = 0 ↔ a = 0 := by
  rw [← BitVec.toInt_inj]
  simp

theorem toInt_emod_two_pow (a : BitVec w) : a.toInt % 2 ^ w = a.toNat := by
  have hnonneg : 0 ≤ a.toInt % 2 ^ w := Int.emod_nonneg _ (Int.pow_ne_zero (by decide))
  have htoNat : (BitVec.ofInt w a.toInt).toNat = (a.toInt % 2 ^ w).toNat := by
    rw [BitVec.toNat_ofInt]
    norm_cast
  rw [← Int.toNat_of_nonneg hnonneg, ← htoNat, BitVec.ofInt_toInt]

theorem ofInt_two_pow (distance : Nat) : BitVec.ofInt w (2 ^ distance) = BitVec.twoPow w distance := by
  apply BitVec.eq_of_toNat_eq
  rw [BitVec.toNat_twoPow]
  norm_cast

end Bits

namespace BinaryOp

variable {w : Nat}

/-- Arithmetic on bit vectors of one width. -/
def onBits (op : BinaryOp) (a b : BitVec w) : Option (BitVec w) :=
  match op with
  | .add => some (a + b)
  | .sub => some (a - b)
  | .mul => some (a * b)
  | .div => if b = 0 then none else some (a.sdiv b)
  | .rem => if b = 0 then none else some (a.srem b)
  | .bitAnd => some (a &&& b)
  | .bitOr => some (a ||| b)
  | .bitXor => some (a ^^^ b)
  | _ => none

/-- Shifts of a bit vector. -/
def shiftBits (op : BinaryOp) (a : BitVec w) (distance : Nat) : BitVec w :=
  match op with
  | .shl => a <<< distance
  | .shr => a.sshiftRight distance
  | _ => a >>> distance

theorem onBits_eq (op : BinaryOp) (a b : BitVec w) :
    op.onBits a b = (op.exactResult? a.toInt b.toInt).map (BitVec.ofInt w) := by
  cases op with
  | add => rw [onBits, exactResult?, Option.map_some, BitVec.ofInt_add, BitVec.ofInt_toInt, BitVec.ofInt_toInt]
  | sub =>
    rw [onBits, exactResult?, Option.map_some, Int.sub_eq_add_neg, BitVec.ofInt_add, BitVec.ofInt_neg,
      BitVec.ofInt_toInt, BitVec.ofInt_toInt, BitVec.sub_eq_add_neg]
  | mul => rw [onBits, exactResult?, Option.map_some, BitVec.ofInt_mul, BitVec.ofInt_toInt, BitVec.ofInt_toInt]
  | div =>
    rw [onBits, exactResult?]
    simp only [toInt_eq_zero_iff]
    split
    · rfl
    · -- the least number divided by minus one is out of range on both sides
      rw [Option.map_some, Option.some.injEq]
      apply BitVec.eq_of_toInt_eq
      rw [BitVec.toInt_ofInt, BitVec.toInt_sdiv]
  | rem =>
    rw [onBits, exactResult?]
    simp only [toInt_eq_zero_iff]
    split
    · rfl
    · rw [Option.map_some, ← BitVec.toInt_srem, BitVec.ofInt_toInt]
  | bitAnd =>
    rw [onBits, exactResult?, Option.map_some, ofInt_bitwise Int.testBit_land fun _ _ _ => BitVec.getLsbD_and]
  | bitOr => rw [onBits, exactResult?, Option.map_some, ofInt_bitwise Int.testBit_lor fun _ _ _ => BitVec.getLsbD_or]
  | bitXor => rw [onBits, exactResult?, Option.map_some, ofInt_bitwise Int.testBit_lxor fun _ _ _ => BitVec.getLsbD_xor]
  | _ => rfl

theorem shiftBits_eq (op : BinaryOp) (a : BitVec w) (distance : Nat) :
    op.shiftBits a distance = BitVec.ofInt w (op.exactShift w a.toInt distance) := by
  unfold shiftBits exactShift
  split
  · rw [BitVec.ofInt_mul, BitVec.ofInt_toInt, ofInt_two_pow, BitVec.shiftLeft_eq_mul_twoPow]
  · have hshift : (a.sshiftRight distance).toInt = a.toInt >>> distance := BitVec.toInt_sshiftRight
    rw [Int.shiftRight_eq_div_pow] at hshift
    push_cast at hshift
    rw [← hshift, BitVec.ofInt_toInt]
  · apply BitVec.eq_of_toNat_eq
    rw [toInt_emod_two_pow]
    norm_cast
    rw [BitVec.ofInt_natCast, BitVec.toNat_ofNat, BitVec.toNat_ushiftRight, Nat.shiftRight_eq_div_pow]
    exact (Nat.mod_eq_of_lt (Nat.lt_of_le_of_lt (Nat.div_le_self _ _) a.isLt)).symm

/-! ## §3. Ints and longs. -/

theorem onInt_eq (op : BinaryOp) (a b : Int32) : op.onInt a b = (op.exactResult? a.toInt b.toInt).map .ofInt := by
  have hbits : op.onInt a b = (op.onBits a.toBitVec b.toBitVec).map .ofBitVec := by
    have hzero : b.toBitVec = 0 ↔ b = 0 := by
      rw [← Int32.toBitVec_inj]
      rfl
    cases op with
    | div | rem =>
      unfold onInt onBits
      simp only [hzero]
      split <;> rfl
    | _ => rfl
  rw [hbits, onBits_eq, Option.map_map]
  rfl

theorem onLong_eq (op : BinaryOp) (a b : Int64) : op.onLong a b = (op.exactResult? a.toInt b.toInt).map .ofInt := by
  have hbits : op.onLong a b = (op.onBits a.toBitVec b.toBitVec).map .ofBitVec := by
    have hzero : b.toBitVec = 0 ↔ b = 0 := by
      rw [← Int64.toBitVec_inj]
      rfl
    cases op with
    | div | rem =>
      unfold onLong onBits
      simp only [hzero]
      split <;> rfl
    | _ => rfl
  rw [hbits, onBits_eq, Option.map_map]
  rfl

theorem shiftInt_eq (op : BinaryOp) (value : Int32) (distance : Nat) :
    op.shiftInt value distance = .ofInt (op.exactShift 32 value.toInt distance) := by
  have hbits : op.shiftInt value distance = .ofBitVec (op.shiftBits value.toBitVec distance) := by
    cases op <;> rfl
  rw [hbits, shiftBits_eq]
  rfl

theorem shiftLong_eq (op : BinaryOp) (value : Int64) (distance : Nat) :
    op.shiftLong value distance = .ofInt (op.exactShift 64 value.toInt distance) := by
  have hbits : op.shiftLong value distance = .ofBitVec (op.shiftBits value.toBitVec distance) := by
    cases op <;> rfl
  rw [hbits, shiftBits_eq]
  rfl

theorem holds_compare (op : BinaryOp) (x y : Int) : op.holds (Ord.compare x y) = op.exactOrder x y := by
  rcases Int.lt_trichotomy x y with hlt | rfl | hgt
  · rw [Int.compare_eq_lt.2 hlt]
    cases op <;> simp [holds, exactOrder] <;> omega
  · rw [Int.compare_eq_eq.2 rfl]
    cases op <;> simp [holds, exactOrder]
  · rw [Int.compare_eq_gt.2 hgt]
    cases op <;> simp [holds, exactOrder] <;> omega

end BinaryOp

theorem compare_int (a b : Int32) : compare a b = compare a.toInt b.toInt := by
  unfold compare Int32.instOrd instOrdInt compareOfLessAndEq
  simp only [Int32.lt_iff_toInt_lt, ← Int32.toInt_inj]

theorem compare_long (a b : Int64) : compare a b = compare a.toInt b.toInt := by
  unfold compare Int64.instOrd instOrdInt compareOfLessAndEq
  simp only [Int64.lt_iff_toInt_lt, ← Int64.toInt_inj]

/-! ## §4. Whole numbers. -/

namespace Whole

theorem reduce_long (z : Int) : reduce true z = .long (.ofInt z) := by
  have hwrap : Int64.ofInt (z.bmod (2 ^ 64)) = .ofInt z := by
    rw [Int64.ofInt_eq_iff_bmod_eq_toInt, Int64.toInt_ofInt, Int.bmod_bmod]
    rfl
  rw [reduce, if_pos rfl, hwrap]

theorem reduce_int (z : Int) : reduce false z = .int (.ofInt z) := by
  have hwrap : Int32.ofInt (z.bmod (2 ^ 32)) = .ofInt z := by
    rw [Int32.ofInt_eq_iff_bmod_eq_toInt, Int32.toInt_ofInt, Int.bmod_bmod]
    rfl
  rw [reduce, if_neg Bool.false_ne_true, hwrap]

/-- The number that is computed with. -/
def number (a : Whole) : Number := if a.isLong then .long (.ofInt a.toInt) else .int (.ofInt a.toInt)

theorem ofConstant?_constant (a : Whole) : Number.ofConstant? a.constant = some a.number := by
  cases a with
  | int value =>
    show some (Number.int value) = some (.int (.ofInt value.toInt))
    rw [Int32.ofInt_toInt]
  | long value =>
    show some (Number.long value) = some (.long (.ofInt value.toInt))
    rw [Int64.ofInt_toInt]
  | char unit => rfl

theorem toInt_ofInt_of_int {a : Whole} (h : a.isLong = false) : (Int32.ofInt a.toInt).toInt = a.toInt := by
  cases a with
  | int value => rw [toInt, Int32.ofInt_toInt]
  | long => cases h
  | char unit =>
    have hlt := unit.toNat_lt
    rw [toInt, Int32.toInt_ofInt_of_le (by omega) (by omega)]

theorem toInt_ofInt_of_long (a : Whole) : (Int64.ofInt a.toInt).toInt = a.toInt := by
  cases a with
  | int value =>
    have hle := value.le_toInt
    have hlt := value.toInt_lt
    rw [toInt, Int64.toInt_ofInt_of_le (by omega) (by omega)]
  | long value => rw [toInt, Int64.ofInt_toInt]
  | char unit =>
    have hlt := unit.toNat_lt
    rw [toInt, Int64.toInt_ofInt_of_le (by omega) (by omega)]

theorem toInt64_ofInt {a : Whole} (h : a.isLong = false) : (Int32.ofInt a.toInt).toInt64 = .ofInt a.toInt := by
  rw [← Int64.toInt_inj, Int32.toInt_toInt64, toInt_ofInt_of_int h, toInt_ofInt_of_long]

/-- Two numbers are brought to longs when one of them is a long, and to ints otherwise. -/
theorem promote_number (a b : Whole) : a.number.promote b.number =
    if a.isLong || b.isLong then .long (.ofInt a.toInt) (.ofInt b.toInt)
    else .int (.ofInt a.toInt) (.ofInt b.toInt) := by
  unfold number
  cases ha : a.isLong with
  | true =>
    cases hb : b.isLong with
    | true => rfl
    | false =>
      show Operands.long _ (Int32.ofInt b.toInt).toInt64 = .long _ (.ofInt b.toInt)
      rw [toInt64_ofInt hb]
  | false =>
    cases hb : b.isLong with
    | true =>
      show Operands.long (Int32.ofInt a.toInt).toInt64 _ = .long (.ofInt a.toInt) _
      rw [toInt64_ofInt ha]
    | false => rfl

theorem arithmetic_number (op : BinaryOp) (a b : Whole) :
    op.arithmetic (a.number.promote b.number)
      = (op.exactResult? a.toInt b.toInt).map (reduce (a.isLong || b.isLong)) := by
  rw [promote_number]
  cases hlong : a.isLong || b.isLong with
  | true =>
    show (op.onLong _ _).map Constant.long = _
    rw [BinaryOp.onLong_eq, toInt_ofInt_of_long, toInt_ofInt_of_long, Option.map_map]
    exact congrArg (Option.map · _) (funext fun z => (reduce_long z).symm)
  | false =>
    obtain ⟨ha, hb⟩ := Bool.or_eq_false_iff.1 hlong
    show (op.onInt _ _).map Constant.int = _
    rw [BinaryOp.onInt_eq, toInt_ofInt_of_int ha, toInt_ofInt_of_int hb, Option.map_map]
    exact congrArg (Option.map · _) (funext fun z => (reduce_int z).symm)

theorem compare_number (op : BinaryOp) (a b : Whole) :
    op.compare a.number b.number = op.exactOrder a.toInt b.toInt := by
  rw [BinaryOp.compare, promote_number, ← BinaryOp.holds_compare]
  cases hlong : a.isLong || b.isLong with
  | true =>
    show op.holds (compare (Int64.ofInt a.toInt) (Int64.ofInt b.toInt)) = _
    rw [compare_long, toInt_ofInt_of_long, toInt_ofInt_of_long]
  | false =>
    obtain ⟨ha, hb⟩ := Bool.or_eq_false_iff.1 hlong
    show op.holds (compare (Int32.ofInt a.toInt) (Int32.ofInt b.toInt)) = _
    rw [compare_int, toInt_ofInt_of_int ha, toInt_ofInt_of_int hb]

theorem distance?_number (b : Whole) : b.number.distance? = some b.toInt := by
  unfold number
  cases hb : b.isLong with
  | true => exact congrArg some b.toInt_ofInt_of_long
  | false => exact congrArg some (toInt_ofInt_of_int hb)

/-- The distance counts modulo the width of the left operand alone. -/
theorem shift_number (op : BinaryOp) (a b : Whole) :
    op.shift a.number b.number = some (reduce a.isLong
      (op.exactShift (bits a.isLong) a.toInt (b.toInt % bits a.isLong).toNat)) := by
  rw [BinaryOp.shift, distance?_number]
  unfold number
  cases ha : a.isLong with
  | true =>
    show some (Constant.long (op.shiftLong _ _)) = _
    rw [BinaryOp.shiftLong_eq, toInt_ofInt_of_long, reduce_long]
    rfl
  | false =>
    show some (Constant.int (op.shiftInt _ _)) = _
    rw [BinaryOp.shiftInt_eq, toInt_ofInt_of_int ha, reduce_int]
    rfl

end Whole

namespace Constant

theorem binary_eq_onNumbers (op : BinaryOp) (a b : Whole) :
    binary op a.constant b.constant = op.onNumbers a.number b.number := by
  have hstring : ∀ a : Whole, a.constant.isString = false := by
    intro a
    cases a <;> rfl
  have hnumbers : (do op.onNumbers (← Number.ofConstant? a.constant) (← Number.ofConstant? b.constant))
      = op.onNumbers a.number b.number := by
    rw [Whole.ofConstant?_constant, Whole.ofConstant?_constant]
    rfl
  unfold binary
  rw [hstring, hstring, Bool.or_self, Bool.and_false, if_neg Bool.false_ne_true, ← hnumbers]
  -- no whole number is a truth value or a string
  cases a <;> rfl

/-- Operators on ints, longs and characters have the values that exact arithmetic gives, brought into the range of the
    result. -/
theorem binary_whole (op : BinaryOp) (a b : Whole) :
    binary op a.constant b.constant = Whole.binary op a b := by
  rw [binary_eq_onNumbers]
  cases op with
  | shl | shr | ushr => exact Whole.shift_number _ a b
  | eq | ne | lt | le | gt | ge => exact congrArg (some ∘ Constant.bool) (Whole.compare_number _ a b)
  | _ => exact Whole.arithmetic_number _ a b

/-- The least int divided by minus one is itself, and a distance of minus one is one of 31. -/
example : Whole.binary .div (.int Int32.minValue) (.int (-1)) = some (.int Int32.minValue)
    ∧ Whole.binary .shl (.char 1) (.long (-1)) = some (.int Int32.minValue) := by decide +kernel

end Constant

end PatchPresence
