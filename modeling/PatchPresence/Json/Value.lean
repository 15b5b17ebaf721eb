/-
  PatchPresence.Json.Value — JSON documents.
-/
namespace PatchPresence

/-- A JSON number: an integer that fits 64 bits, or else a double. -/
inductive JsonNumber
  | integer (value : Int)
  | float (value : Float)
deriving DecidableEq, Repr

/-- A JSON document. An object keeps its members as they stand, repeated names included. -/
inductive Json
  | null
  | bool (value : Bool)
  | number (value : JsonNumber)
  | string (value : String)
  | array (items : List Json)
  | object (members : List (String × Json))
  /-- Well-formed text that denotes no value: a number beyond the range of doubles, a string with half
      of a surrogate pair, or an object with such a string for a name. It may stand where nobody reads
      it. -/
  | unreadable
deriving Repr

namespace Json

instance : Inhabited Json := ⟨.null⟩

/-- A natural number as a document. -/
def ofNat (n : Nat) : Json := .number (.integer n)

/-- An integer as a document. -/
def ofInt (n : Int) : Json := .number (.integer n)

/-- An optional value, null for none. -/
def ofOption {α : Type} (encode : α → Json) : Option α → Json
  | some a => encode a
  | none => .null

/-- A list of values. -/
def ofList {α : Type} (encode : α → Json) (items : List α) : Json := .array (items.map encode)

end Json

end PatchPresence
