/-
  PatchPresence.Decimal.Parse — reading floating-point numbers typed by a user.
-/
import PatchPresence.Decimal.Format
import PatchPresence.Text.Cut

namespace PatchPresence.Decimal

/-- Whether a character is a decimal digit. -/
def isDigit (c : Char) : Bool := '0' ≤ c && c ≤ '9'

/-- Value of a run of decimal digits. -/
def valueOf (digits : List Char) : Nat :=
  digits.foldl (fun value c => 10 * value + (c.toNat - '0'.toNat)) 0

/-- An exponent: a mark, perhaps a sign, and digits. No text has the exponent zero. -/
def exponent? : List Char → Option Int
  | [] => some 0
  | mark :: rest =>
    if mark = 'e' || mark = 'E' then
      let negative := rest.head? = some '-'
      let digits := if negative || rest.head? = some '+' then rest.drop 1 else rest
      if digits.isEmpty || !digits.all isDigit then none
      else some (if negative then -(valueOf digits) else valueOf digits)
    else
      none

/-- A number without sign: digits with or without a point, at least one of them, and perhaps an
    exponent. -/
def unsigned? (text : List Char) : Option Decimal :=
  let whole := text.takeWhile isDigit
  let behind := text.dropWhile isDigit
  let (fraction, rest) :=
    if behind.head? = some '.' then
      ((behind.drop 1).takeWhile isDigit, (behind.drop 1).dropWhile isDigit)
    else
      ([], behind)
  if whole.isEmpty && fraction.isEmpty then
    none
  else do
    let exponent ← exponent? rest
    return ⟨valueOf (whole ++ fraction), exponent - fraction.length⟩

/-- A magnitude: a number, or one of the words for infinity and for no number, in any case. -/
def magnitude? (text : List Char) : Option Float :=
  let word := String.ofList (text.map Char.toLower)
  if word = "inf" || word = "infinity" then some (1.0 / 0.0)
  else if word = "nan" then some (0.0 / 0.0)
  else (unsigned? text).map toFloat

/-- The double that a text denotes; it may have a sign. -/
def float? (text : String) : Option Float :=
  match text.toList with
  | '-' :: rest => (magnitude? rest).map fun value => -value
  | '+' :: rest => magnitude? rest
  | chars => magnitude? chars

end PatchPresence.Decimal
