/-
  PatchPresence.Json.Token — the tokens of JSON text.
-/
import PatchPresence.Decimal.Format
import PatchPresence.Json.Value

namespace PatchPresence.Json

/-- A token of JSON text. -/
inductive Token
  /-- A literal or a number, already read. -/
  | scalar (value : Json)
  /-- A string; none when half of a surrogate pair stands alone in it. -/
  | string (value : Option String)
  | openArray
  | closeArray
  | openObject
  | closeObject
  | comma
  | colon
deriving Repr

namespace Token

/-! ## §1. Strings. -/

/-- Value of a hexadecimal digit. -/
def hexDigit? (c : Char) : Option Nat :=
  if '0' ≤ c && c ≤ '9' then some (c.toNat - '0'.toNat)
  else if 'a' ≤ c && c ≤ 'f' then some (c.toNat - 'a'.toNat + 10)
  else if 'A' ≤ c && c ≤ 'F' then some (c.toNat - 'A'.toNat + 10)
  else none

/-- Value of four hexadecimal digits. -/
def hexUnit? (a b c d : Char) : Option Nat := do
  return ((← hexDigit? a) * 16 + (← hexDigit? b)) * 256 + (← hexDigit? c) * 16 + (← hexDigit? d)

/-- The character of an escape with one letter. -/
def escaped? : Char → Option Char
  | '"' => some '"'
  | '\\' => some '\\'
  | '/' => some '/'
  | 'b' => some '\x08'
  | 'f' => some '\x0c'
  | 'n' => some '\n'
  | 'r' => some '\r'
  | 't' => some '\t'
  | _ => none

/-- Whether a code unit is the first half of a surrogate pair. -/
def isHighSurrogate (unit : Nat) : Bool := 0xD800 ≤ unit && unit ≤ 0xDBFF

/-- Whether a code unit is the second half of a surrogate pair. -/
def isLowSurrogate (unit : Nat) : Bool := 0xDC00 ≤ unit && unit ≤ 0xDFFF

/-- A part of a string: a character, or a code unit written as an escape. -/
inductive Piece
  | char (c : Char)
  | unit (n : Nat)

/-- Reads the text behind an opening quote up to the closing one; `done` holds in reverse what is read
    already. -/
def readPieces (done : List Piece) : List Char → Option (List Piece × List Char)
  | [] => none
  | '"' :: rest => some (done.reverse, rest)
  | '\\' :: 'u' :: a :: b :: c :: d :: rest =>
    match hexUnit? a b c d with
    | some n => readPieces (.unit n :: done) rest
    | none => none
  | '\\' :: c :: rest =>
    match escaped? c with
    | some char => readPieces (.char char :: done) rest
    | none => none
  | c :: rest => if c.toNat < 0x20 then none else readPieces (.char c :: done) rest

/-- Characters of the parts of a string; none when half of a surrogate pair stands alone. -/
def joinPieces : List Piece → Option (List Char)
  | [] => some []
  | .char c :: rest => (joinPieces rest).map (c :: ·)
  | .unit high :: .unit low :: rest =>
    if isHighSurrogate high && isLowSurrogate low then
      let point := 0x10000 + (high - 0xD800) * 0x400 + (low - 0xDC00)
      (joinPieces rest).map (Char.ofNat point :: ·)
    else if isHighSurrogate high || isLowSurrogate high then
      none
    else
      (joinPieces (.unit low :: rest)).map (Char.ofNat high :: ·)
  | .unit n :: rest =>
    if isHighSurrogate n || isLowSurrogate n then none
    else (joinPieces rest).map (Char.ofNat n :: ·)

/-- The string behind an opening quote, with the rest. -/
def readString (text : List Char) : Option (Token × List Char) := do
  let (pieces, rest) ← readPieces [] text
  return (.string ((joinPieces pieces).map String.ofList), rest)

/-! ## §2. Numbers. -/

/-- Value of a list of decimal digits. -/
def digitsValue (digits : List Char) : Nat :=
  digits.foldl (fun acc c => acc * 10 + (c.toNat - '0'.toNat)) 0

/-- The digits at the front of a text, with the rest. -/
def spanDigits (text : List Char) : List Char × List Char :=
  (text.takeWhile Char.isDigit, text.dropWhile Char.isDigit)

/-- Fraction digits behind the integer part, none when there is no point. -/
def readFraction? : List Char → Option (List Char × List Char)
  | '.' :: rest =>
    let (digits, after) := spanDigits rest
    if digits.isEmpty then none else some (digits, after)
  | text => some ([], text)

/-- Exponent behind the digits, none when there is no mark. -/
def readExponent? : List Char → Option (Option Int × List Char)
  | c :: rest =>
    if c = 'e' || c = 'E' then
      let (negative, text) :=
        match rest with
        | '-' :: after => (true, after)
        | '+' :: after => (false, after)
        | _ => (false, rest)
      let (digits, after) := spanDigits text
      let value : Int := digitsValue digits
      if digits.isEmpty then none else some (some (if negative then -value else value), after)
    else
      some (none, c :: rest)
  | [] => some (none, [])

/-- A double as a number, unless it is infinite. -/
def ofFloat (negative : Bool) (magnitude : Float) : Json :=
  if magnitude.isInf then
    .unreadable
  else
    .number (.float (if negative then -magnitude else magnitude))

/-- An integer as a number: exact when it fits 64 bits, otherwise the closest double. The negative
    zero is a double. -/
def ofInteger (negative : Bool) (digits : Nat) : Json :=
  if negative then
    if 0 < digits && digits ≤ UInt64.size / 2 then .number (.integer (-(digits : Int)))
    else ofFloat true (Decimal.toFloat ⟨digits, 0⟩)
  else if digits < UInt64.size then
    .number (.integer digits)
  else
    ofFloat false (Decimal.toFloat ⟨digits, 0⟩)

/-- The number at the front of a text, with the rest. -/
def readNumber (text : List Char) : Option (Json × List Char) := do
  let (negative, unsigned) :=
    match text with
    | '-' :: rest => (true, rest)
    | _ => (false, text)
  let (whole, afterWhole) := spanDigits unsigned
  if whole.isEmpty || (whole.head? == some '0' && 1 < whole.length) then
    none
  let (fraction, afterFraction) ← readFraction? afterWhole
  let (exponent, rest) ← readExponent? afterFraction
  if fraction.isEmpty && exponent.isNone then
    return (ofInteger negative (digitsValue whole), rest)
  else
    let decimal : Decimal := ⟨digitsValue (whole ++ fraction), exponent.getD 0 - fraction.length⟩
    return (ofFloat negative decimal.toFloat, rest)

/-! ## §3. Tokens. -/

/-- Whether a character may stand between tokens. -/
def isBlank (c : Char) : Bool := c = ' ' || c = '\t' || c = '\n' || c = '\r'

/-- The token at the front of a text that starts with no blank, with the rest. -/
def read? : List Char → Option (Token × List Char)
  | '[' :: rest => some (.openArray, rest)
  | ']' :: rest => some (.closeArray, rest)
  | '\x7b' :: rest => some (.openObject, rest)
  | '\x7d' :: rest => some (.closeObject, rest)
  | ',' :: rest => some (.comma, rest)
  | ':' :: rest => some (.colon, rest)
  | 'n' :: 'u' :: 'l' :: 'l' :: rest => some (.scalar .null, rest)
  | 't' :: 'r' :: 'u' :: 'e' :: rest => some (.scalar (.bool true), rest)
  | 'f' :: 'a' :: 'l' :: 's' :: 'e' :: rest => some (.scalar (.bool false), rest)
  | '"' :: rest => readString rest
  | text => (readNumber text).map fun (value, after) => (.scalar value, after)

/-- Reads all tokens behind those in `done`, which stand in reverse; at most `fuel` of them. -/
def readAll : Nat → List Token → List Char → Option (List Token)
  | 0, done, text => if (text.dropWhile isBlank).isEmpty then some done.reverse else none
  | fuel + 1, done, text =>
    match text.dropWhile isBlank with
    | [] => some done.reverse
    | rest =>
      match read? rest with
      | some (token, after) => readAll fuel (token :: done) after
      | none => none

/-- The tokens of a text. Each takes a character at least. -/
def all? (text : List Char) : Option (List Token) := readAll text.length [] text

end Token

end PatchPresence.Json
