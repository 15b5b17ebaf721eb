/-
  PatchPresence.Decimal.Format — written forms of floating-point values, and reading them.
-/
import PatchPresence.Decimal.Shortest

namespace PatchPresence

/-! ## §1. Layout. -/

/-- Decisions that fix the written form of a floating-point value. -/
structure DecimalFormat where
  /-- Of two equally close shortest decimals, which is written. -/
  tie : TieRule
  /-- Powers of ten of the leading digit that are written without an exponent. -/
  isPlain : Int → Bool
  /-- A whole number without exponent ends in `.0`. -/
  plainZero : Bool
  /-- A single digit in front of an exponent is followed by `.0`. -/
  scientificZero : Bool
  /-- Mark in front of the exponent. -/
  mark : String
  nan : String
  infinity : String

namespace DecimalFormat

/-- Writes a decimal without exponent. -/
def plain (format : DecimalFormat) (decimal : Decimal) : String :=
  let digits := Nat.toDigits 10 decimal.digits
  if 0 ≤ decimal.exponent then
    String.ofList (digits ++ List.replicate decimal.exponent.toNat '0')
      ++ (if format.plainZero then ".0" else "")
  else
    let places := (-decimal.exponent).toNat
    let padded := List.replicate (places + 1 - digits.length) '0' ++ digits
    let whole := padded.length - places
    String.ofList (padded.take whole) ++ "." ++ String.ofList (padded.drop whole)

/-- Writes a decimal with an exponent behind the first digit. -/
def scientific (format : DecimalFormat) (decimal : Decimal) : String :=
  let digits := Nat.toDigits 10 decimal.digits
  let power := decimal.exponent + (digits.length - 1 : Nat)
  let fraction := digits.drop 1
  let mantissa := String.ofList (digits.take 1)
    ++ (if fraction.isEmpty then (if format.scientificZero then ".0" else "")
        else "." ++ String.ofList fraction)
  mantissa ++ format.mark ++ toString power

/-- Writes a finite magnitude. -/
def magnitude (format : DecimalFormat) (value : Binary) : String :=
  if value.mantissa = 0 then
    format.plain ⟨0, 0⟩
  else
    let decimal := Decimal.shortest format.tie value
    let power := decimal.exponent + (Decimal.digitCount decimal.digits - 1 : Nat)
    if format.isPlain power then format.plain decimal else format.scientific decimal

/-- Puts the sign in front. -/
def signed (negative : Bool) (text : String) : String := if negative then "-" ++ text else text

/-- Writes a double. -/
def float (format : DecimalFormat) (value : Float) : String :=
  let negative := Double.isNegative value
  if value.isNaN then
    format.nan
  else if value.isInf then
    signed negative format.infinity
  else
    signed negative (format.magnitude (.ofFloat value))

/-- Writes a single. -/
def float32 (format : DecimalFormat) (value : Float32) : String :=
  let negative := Single.isNegative value
  if value.isNaN then
    format.nan
  else if value.isInf then
    signed negative format.infinity
  else
    signed negative (format.magnitude (.ofFloat32 value))

end DecimalFormat

/-! ## §2. Reading. -/

/-- The double closest to `digits * 10 ^ exponent`, infinite beyond the range of doubles. -/
def Decimal.toFloat (decimal : Decimal) : Float :=
  let top := decimal.exponent + Decimal.digitCount decimal.digits
  if decimal.digits = 0 || top < -330 then
    0.0
  else if 310 < top then
    1.0 / 0.0
  else
    Float.ofScientific decimal.digits (decimal.exponent < 0) decimal.exponent.natAbs

end PatchPresence
