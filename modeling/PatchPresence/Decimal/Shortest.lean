/-
  PatchPresence.Decimal.Shortest — the fewest decimal digits that read back as a value.

  A value stands for all reals that round to it. Of the decimals among these the one with the fewest
  digits is taken, and of several the closest to the value.
-/
import PatchPresence.Decimal.Binary

namespace PatchPresence

/-- A decimal number `digits * 10 ^ exponent`. -/
structure Decimal where
  digits : Nat
  exponent : Int
deriving DecidableEq, Repr

/-- Which of two decimals at the same distance from a value is taken. -/
inductive TieRule
  | up
  | toEven
deriving DecidableEq, Repr

namespace Decimal

/-! ## §1. Exact comparison. -/

/-- Compares `a * 10 ^ i` with `n * 2 ^ j`. -/
def compareScaled (a : Nat) (i : Int) (n : Nat) (j : Int) : Ordering :=
  compare (a * Nat.pow 10 i.toNat * Nat.pow 2 (-j).toNat)
    (n * Nat.pow 2 j.toNat * Nat.pow 10 (-i).toNat)

/-- Whether a decimal is one of the reals that round to `value`. The ends of that interval lie halfway
    to the neighbours and belong to it when the mantissa is even. -/
def readsBack (value : Binary) (decimal : Decimal) : Bool :=
  let low := 4 * value.mantissa - (if value.narrowBelow then 1 else 2)
  let high := 4 * value.mantissa + 2
  let closed := value.mantissa % 2 == 0
  let atLow := compareScaled decimal.digits decimal.exponent low (value.exponent - 2)
  let atHigh := compareScaled decimal.digits decimal.exponent high (value.exponent - 2)
  (atLow == .gt || (closed && atLow == .eq)) && (atHigh == .lt || (closed && atHigh == .eq))

/-! ## §2. Search. -/

/-- Number of decimal digits of a positive number. -/
def digitCount (n : Nat) : Nat := (Nat.toDigits 10 n).length

/-- The least `k` with `value < 10 ^ k`. -/
def scale (value : Binary) : Int :=
  if 0 ≤ value.exponent then
    digitCount (value.mantissa * Nat.pow 2 value.exponent.toNat)
  else
    -- `mantissa * 5 ^ n` shifted by `n` decimal places is the value itself.
    let places := (-value.exponent).toNat
    digitCount (value.mantissa * Nat.pow 5 places) - (places : Int)

/-- The decimals with `count` digits next to the value, below and above, that read back. -/
def neighbours (value : Binary) (top : Int) (count : Nat) : Nat × Bool × Bool :=
  let grid := top - count
  let numerator := value.mantissa * Nat.pow 2 value.exponent.toNat * Nat.pow 10 (-grid).toNat
  let denominator := Nat.pow 2 (-value.exponent).toNat * Nat.pow 10 grid.toNat
  let below := numerator / denominator
  (below, readsBack value ⟨below, grid⟩, readsBack value ⟨below + 1, grid⟩)

/-- Whether the upper neighbour `below + 1` on a grid is taken rather than `below`. -/
def prefersUpper (tie : TieRule) (value : Binary) (grid : Int) (below : Nat) : Bool :=
  match compareScaled (2 * below + 1) grid (2 * value.mantissa) value.exponent with
  | .lt => true
  | .eq => tie == .up || below % 2 == 1
  | .gt => false

/-- The decimal with `count` digits that reads back, if there is one. -/
def atCount? (tie : TieRule) (value : Binary) (top : Int) (count : Nat) : Option Decimal :=
  let grid := top - count
  match neighbours value top count with
  | (_, false, false) => none
  | (below, true, false) => some ⟨below, grid⟩
  | (below, false, true) => some ⟨below + 1, grid⟩
  | (below, true, true) =>
    some ⟨if prefersUpper tie value grid below then below + 1 else below, grid⟩

/-- The value itself as a decimal. -/
def exact (value : Binary) : Decimal :=
  if 0 ≤ value.exponent then
    ⟨value.mantissa * Nat.pow 2 value.exponent.toNat, 0⟩
  else
    ⟨value.mantissa * Nat.pow 5 (-value.exponent).toNat, value.exponent⟩

/-- Moves trailing zeros of the digits into the exponent, at most `fuel` of them. -/
def strip : Nat → Decimal → Decimal
  | 0, decimal => decimal
  | fuel + 1, decimal =>
    if decimal.digits != 0 && decimal.digits % 10 == 0 then
      strip fuel ⟨decimal.digits / 10, decimal.exponent + 1⟩
    else
      decimal

/-- The shortest decimal that reads back as a positive value; seventeen digits are always enough. -/
def shortest (tie : TieRule) (value : Binary) : Decimal :=
  let top := scale value
  let found := ((List.range 17).findSome? fun count => atCount? tie value top (count + 1)).getD
    (exact value)
  strip (digitCount found.digits) found

end Decimal

end PatchPresence
