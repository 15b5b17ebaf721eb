/-
  PatchPresence.Constant — literal values shared by bytecode and source.

  Floating-point values are told apart by their bit patterns, so every constant can be a key: both
  zeros are different constants, and a NaN equals itself.
-/
namespace PatchPresence

/-- A literal value of the Java language. -/
inductive Constant
  | int (value : Int32)
  | long (value : Int64)
  | float (value : Float32)
  | double (value : Float)
  | bool (value : Bool)
  /-- A UTF-16 code unit. -/
  | char (unit : UInt16)
  | str (text : String)
  | null
deriving DecidableEq, Repr

namespace Constant

/-- Position of the kind of a constant in the order of constants. -/
def rank : Constant → Nat
  | .int _ => 0
  | .long _ => 1
  | .float _ => 2
  | .double _ => 3
  | .bool _ => 4
  | .char _ => 5
  | .str _ => 6
  | .null => 7

/-- Constants are ordered by kind, then by value; floating-point values by bit pattern. -/
def order : Constant → Constant → Ordering
  | .int a, .int b => compare a b
  | .long a, .long b => compare a b
  | .float a, .float b => compare a.toBits b.toBits
  | .double a, .double b => compare a.toBits b.toBits
  | .bool a, .bool b => compare a b
  | .char a, .char b => compare a b
  | .str a, .str b => compare a b
  | a, b => compare a.rank b.rank

instance : Ord Constant := ⟨order⟩

end Constant

end PatchPresence
