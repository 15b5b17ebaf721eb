/-
  PatchPresence.Json.Writer — JSON documents as text, on one line or indented.
-/
import PatchPresence.Decimal.Format
import PatchPresence.Json.Value

namespace PatchPresence.Json

/-! ## §1. Scalars. -/

/-- Doubles have a fraction or an exponent; an exponent stands from 10^16 upwards and below 10^-5. -/
def numberFormat : DecimalFormat where
  tie := .toEven
  isPlain := fun power => -5 ≤ power && power ≤ 15
  plainZero := true
  scientificZero := false
  mark := "e"
  nan := "null"
  infinity := "null"

/-- Written form of a character in a string. -/
def escapeChar (c : Char) : String :=
  if c = '"' then "\\\""
  else if c = '\\' then "\\\\"
  else if c = '\n' then "\\n"
  else if c = '\r' then "\\r"
  else if c = '\t' then "\\t"
  else if c = '\x08' then "\\b"
  else if c = '\x0c' then "\\f"
  else if c.toNat < 0x20 then
    "\\u00" ++ String.ofList [Nat.digitChar (c.toNat / 16), Nat.digitChar (c.toNat % 16)]
  else
    String.singleton c

/-- A string in quotes. -/
def quote (text : String) : String :=
  "\"" ++ text.toList.foldl (fun acc c => acc ++ escapeChar c) "" ++ "\""

/-- Written form of a number. -/
def numberText : JsonNumber → String
  | .integer value => toString value
  | .float value => if value.isInf then "null" else numberFormat.float value

/-! ## §2. On one line. -/

mutual

/-- The document without blanks. -/
def compact : Json → String
  | .null => "null"
  | .bool value => if value then "true" else "false"
  | .number value => numberText value
  | .string value => quote value
  | .array items => "[" ++ ",".intercalate (compactItems items) ++ "]"
  | .object members => "\x7b" ++ ",".intercalate (compactMembers members) ++ "\x7d"
  | .unreadable => "null"

/-- Texts of the items of an array. -/
def compactItems : List Json → List String
  | [] => []
  | item :: rest => compact item :: compactItems rest

/-- Texts of the members of an object. -/
def compactMembers : List (String × Json) → List String
  | [] => []
  | (name, value) :: rest => (quote name ++ ":" ++ compact value) :: compactMembers rest

end

/-! ## §3. Indented. -/

/-- A container with each part on a line of its own, two blanks deeper than the brackets. -/
def enclose (depth : Nat) (opening closing : String) (parts : List String) : String :=
  if parts.isEmpty then
    opening ++ closing
  else
    let indent := String.ofList (List.replicate (2 * (depth + 1)) ' ')
    let outdent := String.ofList (List.replicate (2 * depth) ' ')
    opening ++ "\n" ++ ",\n".intercalate (parts.map (indent ++ ·)) ++ "\n" ++ outdent ++ closing

mutual

/-- The document indented by two blanks for each level below `depth`. -/
def pretty (depth : Nat) : Json → String
  | .null => "null"
  | .bool value => if value then "true" else "false"
  | .number value => numberText value
  | .string value => quote value
  | .array items => enclose depth "[" "]" (prettyItems (depth + 1) items)
  | .object members => enclose depth "\x7b" "\x7d" (prettyMembers (depth + 1) members)
  | .unreadable => "null"

/-- Texts of the items of an array. -/
def prettyItems (depth : Nat) : List Json → List String
  | [] => []
  | item :: rest => pretty depth item :: prettyItems depth rest

/-- Texts of the members of an object. -/
def prettyMembers (depth : Nat) : List (String × Json) → List String
  | [] => []
  | (name, value) :: rest =>
    (quote name ++ ": " ++ pretty depth value) :: prettyMembers depth rest

end

end PatchPresence.Json
