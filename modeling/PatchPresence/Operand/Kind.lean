/-
  PatchPresence.Operand.Kind — abstract kinds of stack entries and local variables.
-/
import PatchPresence.Bytecode.StackRule
import PatchPresence.Constant
import PatchPresence.Descriptor

namespace PatchPresence

/-- What is known of a value on the stack or in a local variable. -/
inductive ValueKind
  | int
  | long
  | float
  | double
  | null
  /-- A reference to an object of a class or, by descriptor, to an array. -/
  | reference (name : String)
  | returnAddress
  | unknown
deriving DecidableEq, Repr

namespace ValueKind

/-- A reference to any object. -/
def object : ValueKind := .reference "java/lang/Object"

/-- What holds of a value that is of one kind or the other. -/
def join : ValueKind → ValueKind → ValueKind
  | .int, .int => .int
  | .long, .long => .long
  | .float, .float => .float
  | .double, .double => .double
  | .null, .null => .null
  | .returnAddress, .returnAddress => .returnAddress
  | .null, .reference name => .reference name
  | .reference name, .null => .reference name
  | .reference a, .reference b => if a = b then .reference a else object
  | _, _ => .unknown

/-- Whether a value takes two slots. -/
def isWide : ValueKind → Bool
  | .long => true
  | .double => true
  | _ => false

/-- Kind of the values of a type. -/
def ofType (type : TypeDescriptor) : ValueKind :=
  if type.dimensions = 0 then
    match type.base with
    | .byte | .char | .int | .short | .boolean => .int
    | .long => .long
    | .float => .float
    | .double => .double
    | .object name => .reference name
    | .void => .unknown
  else
    .reference type.text

/-- Kind of the values of the type that a descriptor names. -/
def ofDescriptor? (text : String) : Option ValueKind := (TypeDescriptor.parse? text).map ofType

/-- Kind of a value of a category. -/
def ofProduced : Produced → ValueKind
  | .int => .int
  | .long => .long
  | .float => .float
  | .double => .double
  | .reference => object
  | .null => .null

/-- Kind of a constant. -/
def ofConstant : Constant → ValueKind
  | .int _ | .bool _ | .char _ => .int
  | .long _ => .long
  | .float _ => .float
  | .double _ => .double
  | .str _ => .reference "java/lang/String"
  | .null => .null

end ValueKind

end PatchPresence
