/-
  PatchPresence.Json.Decode — typed values from JSON documents.

  A record may be written as an object or as the array of its fields in order. In an object, unknown
  names are passed over, and a known name may not be repeated. A variant is written as its name, or as
  an object whose one member is the name with the data of the variant. Where the data are fields, it
  depends on the style of the document whether an array of them will do.
-/
import PatchPresence.Json.Value

namespace PatchPresence

/-- Reads a value off a document. -/
abbrev Decoder (α : Type) := Json → Option α

namespace Decoder

/-! ## §1. Scalars and lists. -/

/-- A truth value. -/
def bool : Decoder Bool
  | .bool value => some value
  | _ => none

/-- A string. -/
def string : Decoder String
  | .string value => some value
  | _ => none

/-- An integer between bounds, both included. -/
def intIn (low high : Int) : Decoder Int
  | .number (.integer value) => if low ≤ value && value ≤ high then some value else none
  | _ => none

/-- A natural number below `2 ^ width`. -/
def unsigned (width : Nat) : Decoder Nat := fun json =>
  (intIn 0 ((Nat.pow 2 width : Nat) - 1) json).map Int.toNat

/-- A signed integer of `width + 1` bits. -/
def signed (width : Nat) : Decoder Int :=
  intIn (-(Nat.pow 2 width : Nat)) ((Nat.pow 2 width : Nat) - 1)

/-- A size or index: 64 bits without sign. -/
def size : Decoder Nat := unsigned 64

/-- A double; an integer stands for the closest one. -/
def float : Decoder Float
  | .number (.float value) => some value
  | .number (.integer value) => some (Float.ofInt value)
  | _ => none

/-- A single: the one closest to a double or to an integer. -/
def float32 : Decoder Float32
  | .number (.float value) => some value.toFloat32
  | .number (.integer value) =>
    some (if value < 0 then (Int64.ofInt value).toFloat32 else (UInt64.ofNat value.toNat).toFloat32)
  | _ => none

/-- A list. -/
def list {α : Type} (item : Decoder α) : Decoder (List α)
  | .array items => items.mapM item
  | _ => none

/-- A pair as an array of two. -/
def pair {α β : Type} (first : Decoder α) (second : Decoder β) : Decoder (α × β)
  | .array [a, b] => do return (← first a, ← second b)
  | _ => none

/-- A value or null. -/
def nullable {α : Type} (value : Decoder α) : Decoder (Option α)
  | .null => some none
  | json => (value json).map some

/-- Members of an object used as a map, in order. -/
def entries {α : Type} (value : Decoder α) : Decoder (List (String × α))
  | .object members => members.mapM fun (name, json) => do return (name, ← value json)
  | _ => none

/-! ## §2. Records. -/

/-- Fields of a record, read off an object or an array. -/
structure Fields where
  /-- Known names in order. -/
  names : List String
  /-- Values of the known names that are present. -/
  present : List (String × Json)
  /-- The record is written as an array. -/
  positional : Bool

/-- The fields of a record with the given names. -/
def fields (names : List String) : Decoder Fields
  | .object members =>
    let known := members.filter fun (name, _) => names.contains name
    if (known.map Prod.fst).eraseDups.length = known.length then
      some ⟨names, known, false⟩
    else
      none
  | .array items =>
    if items.length ≤ names.length then some ⟨names, names.zip items, true⟩ else none
  | _ => none

namespace Fields

/-- The document at a name. -/
def get? (fields : Fields) (name : String) : Option Json := fields.present.lookup name

/-- A field that has to be present. -/
def required {α : Type} (fields : Fields) (name : String) (value : Decoder α) : Option α := do
  value (← fields.get? name)

/-- A field that may be absent, but not null. -/
def withDefault {α : Type} (fields : Fields) (name : String) (absent : α) (value : Decoder α) :
    Option α :=
  match fields.get? name with
  | some json => value json
  | none => some absent

/-- A field that may be absent or null. -/
def optional {α : Type} (fields : Fields) (name : String) (value : Decoder α) :
    Option (Option α) :=
  fields.withDefault name none (nullable value)

/-- A field that may be null, and absent only from an object. -/
def nullableField {α : Type} (fields : Fields) (name : String) (value : Decoder α) :
    Option (Option α) :=
  if fields.positional then fields.required name (nullable value) else fields.optional name value

end Fields

/-! ## §3. Variants. -/

/-- Name of a variant with its data, none when only the name is written. -/
def variant : Decoder (String × Option Json)
  | .string name => some (name, none)
  | .object [(name, data)] => some (name, some data)
  | _ => none

/-- The value of a variant without data; null counts as no data. -/
def unit {α : Type} (value : α) : Option Json → Option α
  | none => some value
  | some .null => some value
  | some _ => none

/-- The value of a variant with data. -/
def data {α : Type} (value : Decoder α) : Option Json → Option α
  | none => none
  | some json => value json

/-- How a document may write the fields of a variant. -/
inductive VariantStyle
  /-- By name only. -/
  | byName
  /-- By name or in order. -/
  | byNameOrPlace
deriving DecidableEq, Repr

/-- The fields of a variant with the given names. -/
def variantFields (style : VariantStyle) (names : List String) : Decoder Fields
  | .array items =>
    match style with
    | .byName => none
    | .byNameOrPlace => fields names (.array items)
  | json => fields names json

/-- A variant without data, by its name. -/
def named {α : Type} (options : List (String × α)) : Decoder α := fun json => do
  let (name, content) ← variant json
  unit (← options.lookup name) content

end Decoder

namespace Json

/-! ## §4. Documents as plain trees. -/

mutual

/-- Keeps the last of repeated member names everywhere; fails where a part denotes no value or where
    arrays and objects nest `depth` deep. -/
def resolve? (depth : Nat) : Json → Option Json
  | .array items => if depth ≤ 1 then none else (resolveItems? (depth - 1) items).map .array
  | .object members =>
    if depth ≤ 1 then
      none
    else
      (resolveMembers? (depth - 1) members).map fun resolved =>
        .object (resolved.reverse.foldl
          (fun acc member =>
            if acc.any (fun other => other.1 == member.1) then acc else member :: acc)
          [])
  | .unreadable => none
  | json => some json

/-- The items of an array. -/
def resolveItems? (depth : Nat) : List Json → Option (List Json)
  | [] => some []
  | item :: rest => do return (← resolve? depth item) :: (← resolveItems? depth rest)

/-- The members of an object. -/
def resolveMembers? (depth : Nat) : List (String × Json) → Option (List (String × Json))
  | [] => some []
  | (name, value) :: rest => do
    return (name, ← resolve? depth value) :: (← resolveMembers? depth rest)

end

end Json

end PatchPresence
