/-
  PatchPresence.Text.Cut — taking text apart: leading words, separators, lines, numerals.
-/
namespace PatchPresence.Text

/-! ## §1. Leading words and separators. -/

/-- What follows `word` when the text starts with it. -/
def after? : List Char → List Char → Option (List Char)
  | [], text => some text
  | _ :: _, [] => none
  | w :: word, c :: text => if w = c then after? word text else none

/-- The text without `word` at its start; the text itself when it does not start so. -/
def dropWord (word text : List Char) : List Char := (after? word text).getD text

/-- The text before and after the first place where `separator` stands. -/
def cut? (separator : List Char) : List Char → Option (List Char × List Char)
  | [] => (after? separator []).map ([], ·)
  | c :: text =>
    match after? separator (c :: text) with
    | some rest => some ([], rest)
    | none => (cut? separator text).map fun parts => (c :: parts.1, parts.2)

/-- The pieces of a text between the places where `separator` stands; always at least one. -/
def pieces (separator : Char) : List Char → List (List Char)
  | [] => [[]]
  | c :: text =>
    if c = separator then
      [] :: pieces separator text
    else
      match pieces separator text with
      | [] => [[c]]
      | first :: rest => (c :: first) :: rest

/-! ## §2. Lines. -/

/-- Characters of a line in reverse, without a carriage return at its end. -/
def dropReturn : List Char → List Char
  | '\r' :: line => line
  | line => line

/-- Lines of a text that continues a line whose characters so far are given in reverse. -/
def linesFrom (reversed : List Char) : List Char → List (List Char)
  | [] => if reversed.isEmpty then [] else [reversed.reverse]
  | '\n' :: text => (dropReturn reversed).reverse :: linesFrom [] text
  | c :: text => linesFrom (c :: reversed) text

/-- Lines of a text. A line feed, or a carriage return and a line feed, ends a line; the last line
    may lack its end, and then keeps a carriage return. -/
def lines (text : List Char) : List (List Char) := linesFrom [] text

/-! ## §3. Numerals. -/

/-- Value of decimal digits after the value of those before them. -/
def digits? (value : Nat) : List Char → Option Nat
  | [] => some value
  | c :: rest =>
    if '0' ≤ c ∧ c ≤ '9' then digits? (10 * value + (c.toNat - '0'.toNat)) rest else none

/-- A decimal numeral below 2^64, with or without a plus sign. -/
def natural? (text : List Char) : Option Nat :=
  let digits := dropWord ['+'] text
  if digits.isEmpty then none
  else (digits? 0 digits).filter (· < UInt64.size)

end PatchPresence.Text
