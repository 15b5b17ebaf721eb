/-
  PatchPresence.Folding.Text — how a constant reads in a string concatenation.
-/
import PatchPresence.Constant
import PatchPresence.Decimal.Format

namespace PatchPresence.Constant

/-- Floating-point numbers have a fraction always, and an exponent below 10^-3 and from 10^7 on. -/
def concatFormat : DecimalFormat where
  tie := .up
  isPlain := fun power => -3 ≤ power && power ≤ 6
  plainZero := true
  scientificZero := true
  mark := "E"
  nan := "NaN"
  infinity := "Infinity"

/-- Text of a code unit; half of a surrogate pair has none. -/
def unitText (unit : UInt16) : String :=
  if 0xD800 ≤ unit && unit ≤ 0xDFFF then "" else String.singleton (Char.ofNat unit.toNat)

/-- Text of a constant as string concatenation shows it. -/
def text : Constant → String
  | .int value => toString value.toInt
  | .long value => toString value.toInt
  | .float value => concatFormat.float32 value
  | .double value => concatFormat.float value
  | .bool value => if value then "true" else "false"
  | .char unit => unitText unit
  | .str value => value
  | .null => "null"

end PatchPresence.Constant
