/-
  PatchPresence.Decimal.Exact — conversions and remainders of floating-point values by exact integers.
-/
import PatchPresence.Decimal.Binary

namespace PatchPresence

/-! ## §1. Truncation. -/

/-- The closest number in a range. -/
def clamp (low high value : Int) : Int := max low (min high value)

namespace Double

/-- Whole part of a double, moved into a range when it is beyond; zero for NaN. -/
def truncate (low high : Int) (value : Float) : Int :=
  if value.isNaN then 0
  else if value.isInf then (if isNegative value then low else high)
  else
    let whole : Int := (Binary.ofFloat value).floor
    clamp low high (if isNegative value then -whole else whole)

end Double

namespace Single

/-- Whole part of a single, moved into a range when it is beyond; zero for NaN. -/
def truncate (low high : Int) (value : Float32) : Int :=
  if value.isNaN then 0
  else if value.isInf then (if isNegative value then low else high)
  else
    let whole : Int := (Binary.ofFloat32 value).floor
    clamp low high (if isNegative value then -whole else whole)

end Single

/-! ## §2. Remainders. -/

namespace Binary

/-- Remainder of the magnitudes: the number left when the second is taken off the first as often as it
    fits. It is a multiple of the finer unit of the two. -/
def rem (a b : Binary) : Binary :=
  let unit := min a.exponent b.exponent
  let left := a.mantissa * Nat.pow 2 (a.exponent - unit).toNat
  let right := b.mantissa * Nat.pow 2 (b.exponent - unit).toNat
  ⟨left % right, unit, false⟩

/-- Digits and decimal exponent of the value: a power of two below one is a power of five over a power
    of ten. -/
def scientific (value : Binary) : Nat × Bool × Nat :=
  let places := (-value.exponent).toNat
  (value.mantissa * Nat.pow 2 value.exponent.toNat * Nat.pow 5 places, 0 < places, places)

/-- The double closest to a value. -/
def toFloat (value : Binary) : Float :=
  let (digits, negative, exponent) := value.scientific
  Float.ofScientific digits negative exponent

/-- The single closest to a value. -/
def toFloat32 (value : Binary) : Float32 :=
  let (digits, negative, exponent) := value.scientific
  Float32.ofScientific digits negative exponent

end Binary

/-- Remainder of a division that truncates; it has the sign of the dividend. -/
def Double.rem (a b : Float) : Float :=
  if a.isNaN || b.isNaN || a.isInf || b == 0 then
    0.0 / 0.0
  else if b.isInf then
    a
  else
    let magnitude := ((Binary.ofFloat a).rem (Binary.ofFloat b)).toFloat
    if Double.isNegative a then -magnitude else magnitude

/-- Remainder of a division that truncates; it has the sign of the dividend. -/
def Single.rem (a b : Float32) : Float32 :=
  if a.isNaN || b.isNaN || a.isInf || b == 0 then
    0.0 / 0.0
  else if b.isInf then
    a
  else
    let magnitude := ((Binary.ofFloat32 a).rem (Binary.ofFloat32 b)).toFloat32
    if Single.isNegative a then -magnitude else magnitude

end PatchPresence
