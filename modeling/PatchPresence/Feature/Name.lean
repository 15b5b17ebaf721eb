/-
  PatchPresence.Feature.Name — keys of calls, fields and types, the same for bytecode and source.

  What a compiler adds on its own, or spells differently from one build to the next, gets no key.
-/
import PatchPresence.Descriptor
import PatchPresence.Feature.Set
import PatchPresence.Signature
import PatchPresence.Text.Cut

namespace PatchPresence

namespace Feature

/-! ## §1. Generated names. -/

/-- Whether a text is a number. -/
def isNumeral (text : List Char) : Bool :=
  !text.isEmpty && text.all fun c => '0' ≤ c && c ≤ '9'

/-- Whether a class name has a part of an anonymous class: a number behind a dollar sign and up to the
    next. -/
def hasAnonymousPart (name : String) : Bool := ((Text.pieces '$' name.toList).drop 1).any isNumeral

/-- Whether a name ends in a dollar sign and a number. -/
def hasNumberedEnd (name : String) : Bool :=
  match ((Text.pieces '$' name.toList).drop 1).getLast? with
  | some last => isNumeral last
  | none => false

/-- Whether a call is one that builds of the same source need not share. -/
def isNoise (owner name : String) : Bool :=
  ["toString", "valueOf", "append", "longValue", "makeConcatWithConstants"].contains name ||
    (name == "<init>" && ["java/lang/Object", "java/lang/StringBuilder"].contains owner) ||
    hasNumberedEnd name ||
    (Text.after? "lambda$".toList name.toList).isSome ||
    (Text.after? "access$".toList name.toList).isSome ||
    hasAnonymousPart owner

/-! ## §2. Keys. -/

/-- Key of a call: owner, name and number of arguments. -/
def callKey? (owner name : String) (arity : Nat) : Option String :=
  let owner := internalName owner
  if isNoise owner name then none else some (owner ++ "/" ++ name ++ "/" ++ toString arity)

/-- Key of a field. -/
def fieldKey? (owner name : String) : Option String :=
  let owner := internalName owner
  if owner == "java/lang/Void" || owner.toList.contains '$' || hasNumberedEnd name then none
  else some (owner ++ "/" ++ name)

/-- Key of the length of an array. -/
def arrayLengthKey : String := "[]/length"

/-- Key of the creation of an object of a class. -/
def creationKey? (name : String) : Option String :=
  if name == "java/lang/StringBuilder" || hasAnonymousPart name then none else some name

/-! ## §3. Types as they are written in source. -/

/-- Number of bracket pairs at the end of a type, and what stands before them, both in reverse. -/
def trailingBrackets : List Char → Nat × List Char
  | ']' :: '[' :: rest =>
    let (count, element) := trailingBrackets rest
    (count + 1, element)
  | rest => (0, rest)

/-- Base type of a name in source. -/
def sourceBase (name : String) : BaseType :=
  match name with
  | "boolean" => .boolean
  | "byte" => .byte
  | "char" => .char
  | "short" => .short
  | "int" => .int
  | "long" => .long
  | "float" => .float
  | "double" => .double
  | "void" => .void
  | other => .object (internalName other)

/-- The type that a source text names; dimensions beyond what descriptors hold are dropped. -/
def sourceType (text : String) : TypeDescriptor :=
  let (count, element) := trailingBrackets text.toList.reverse
  ⟨if count ≤ maxDimensions then count else 0, sourceBase (String.ofList element.reverse)⟩

/-! ## §4. Findings of keys. -/

/-- Occurrence of a call, if it has a key. -/
def ofCall (owner name : String) (arity : Nat) : List Feature :=
  ((callKey? owner name arity).map Feature.call).toList

/-- Occurrence of a field access, if the field has a key. -/
def ofField (owner name : String) : List Feature :=
  ((fieldKey? owner name).map Feature.access).toList

/-- Occurrence of the creation of an object, if its class has a key. -/
def ofObject (name : String) : List Feature := ((creationKey? name).map Feature.creation).toList

end Feature

/-! ## §5. Switches. -/

namespace Families

variable (families : Families)

/-- A shape, where shapes are collected. -/
def shape (shape : Shape) : List Feature := if families.shapes then [.shape shape] else []

/-- A loop, where loops are collected. -/
def loop (signature : LoopSignature) : List Feature :=
  if families.loops then [.loop signature] else []

/-- A constant that leaves a trace, where constants are collected. -/
def constant (value : Constant) : List Feature :=
  if families.constants then Feature.ofConstant value else []

/-- A call with a key, where calls are collected. -/
def call (owner name : String) (arity : Nat) : List Feature :=
  if families.callSites then Feature.ofCall owner name arity else []

/-- An access with a key, where accesses are collected. -/
def access (key? : Option String) : List Feature :=
  if families.accesses then (key?.map Feature.access).toList else []

/-- A creation with a key, where creations are collected. -/
def creation (key? : Option String) : List Feature :=
  if families.creations then (key?.map Feature.creation).toList else []

end Families

end PatchPresence
