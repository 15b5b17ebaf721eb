/-
  PatchPresence.Decimal.Binary — floating-point values as exact multiples of powers of two.
-/
namespace PatchPresence

/-- Whether the sign bit of a double is set. -/
def Double.isNegative (value : Float) : Bool := 0x8000000000000000 ≤ value.toBits

/-- Whether the sign bit of a single is set. -/
def Single.isNegative (value : Float32) : Bool := 0x80000000 ≤ value.toBits

/-- A finite value without its sign: `mantissa * 2 ^ exponent`. -/
structure Binary where
  mantissa : Nat
  exponent : Int
  /-- The gap to the value below is half the gap to the value above. -/
  narrowBelow : Bool
deriving DecidableEq, Repr

namespace Binary

/-- Value of an exponent field and a fraction field, the fraction being `width` bits and `least` the
    power of two of the last place of the least values. -/
def ofFields (width : Nat) (least : Int) (field fraction : Nat) : Binary :=
  if field = 0 then
    ⟨fraction, least, false⟩
  else
    ⟨Nat.pow 2 width + fraction, least + (field - 1), fraction = 0 && 1 < field⟩

/-- Magnitude of a finite double. -/
def ofFloat (value : Float) : Binary :=
  let bits := value.toBits.toNat
  ofFields 52 (-1074) (bits / Nat.pow 2 52 % Nat.pow 2 11) (bits % Nat.pow 2 52)

/-- Magnitude of a finite single. -/
def ofFloat32 (value : Float32) : Binary :=
  let bits := value.toBits.toNat
  ofFields 23 (-149) (bits / Nat.pow 2 23 % Nat.pow 2 8) (bits % Nat.pow 2 23)

/-- Whole part of the value. -/
def floor (value : Binary) : Nat :=
  value.mantissa * Nat.pow 2 value.exponent.toNat / Nat.pow 2 (-value.exponent).toNat

end Binary

end PatchPresence
