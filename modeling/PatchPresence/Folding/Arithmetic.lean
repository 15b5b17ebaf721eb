/-
  PatchPresence.Folding.Arithmetic — operators and casts on constants, as the Java language has them.

  Integer arithmetic wraps around, division truncates, and shift distances count modulo the width of
  the left operand. What has no value at compile time, such as a division by zero, has none here.
-/
import PatchPresence.Folding.Number
import PatchPresence.Folding.Text
import PatchPresence.Source.Node

namespace PatchPresence

/-! ## §1. Integer and floating-point operators. -/

/-- Arithmetic on ints. -/
def BinaryOp.onInt (op : BinaryOp) (a b : Int32) : Option Int32 :=
  match op with
  | .add => some (a + b)
  | .sub => some (a - b)
  | .mul => some (a * b)
  | .div => if b = 0 then none else some (a / b)
  | .rem => if b = 0 then none else some (a % b)
  | .bitAnd => some (a &&& b)
  | .bitOr => some (a ||| b)
  | .bitXor => some (a ^^^ b)
  | _ => none

/-- Arithmetic on longs. -/
def BinaryOp.onLong (op : BinaryOp) (a b : Int64) : Option Int64 :=
  match op with
  | .add => some (a + b)
  | .sub => some (a - b)
  | .mul => some (a * b)
  | .div => if b = 0 then none else some (a / b)
  | .rem => if b = 0 then none else some (a % b)
  | .bitAnd => some (a &&& b)
  | .bitOr => some (a ||| b)
  | .bitXor => some (a ^^^ b)
  | _ => none

/-- Arithmetic on singles. -/
def BinaryOp.onFloat (op : BinaryOp) (a b : Float32) : Option Float32 :=
  match op with
  | .add => some (a + b)
  | .sub => some (a - b)
  | .mul => some (a * b)
  | .div => some (a / b)
  | .rem => some (Single.rem a b)
  | _ => none

/-- Arithmetic on doubles. -/
def BinaryOp.onDouble (op : BinaryOp) (a b : Float) : Option Float :=
  match op with
  | .add => some (a + b)
  | .sub => some (a - b)
  | .mul => some (a * b)
  | .div => some (a / b)
  | .rem => some (Double.rem a b)
  | _ => none

/-- Arithmetic on two numbers of one type. -/
def BinaryOp.arithmetic (op : BinaryOp) : Operands → Option Constant
  | .int a b => (op.onInt a b).map .int
  | .long a b => (op.onLong a b).map .long
  | .float a b => (op.onFloat a b).map .float
  | .double a b => (op.onDouble a b).map .double

/-! ## §2. Shifts. -/

/-- Shift of an int by a distance below 32. -/
def BinaryOp.shiftInt (op : BinaryOp) (value : Int32) (distance : Nat) : Int32 :=
  match op with
  | .shl => .ofBitVec (value.toBitVec <<< distance)
  | .shr => .ofBitVec (value.toBitVec.sshiftRight distance)
  | _ => .ofBitVec (value.toBitVec >>> distance)

/-- Shift of a long by a distance below 64. -/
def BinaryOp.shiftLong (op : BinaryOp) (value : Int64) (distance : Nat) : Int64 :=
  match op with
  | .shl => .ofBitVec (value.toBitVec <<< distance)
  | .shr => .ofBitVec (value.toBitVec.sshiftRight distance)
  | _ => .ofBitVec (value.toBitVec >>> distance)

/-- Distance of a shift, when it is a whole number. -/
def Number.distance? : Number → Option Int
  | .int value => some value.toInt
  | .long value => some value.toInt
  | _ => none

/-- Shift of a number; the result has the type of the left operand. -/
def BinaryOp.shift (op : BinaryOp) (left right : Number) : Option Constant := do
  let distance ← right.distance?
  match left with
  | .int value => return .int (op.shiftInt value (distance % 32).toNat)
  | .long value => return .long (op.shiftLong value (distance % 64).toNat)
  | _ => none

/-! ## §3. Comparisons. -/

/-- How two numbers stand to each other; a NaN stands in no order. -/
def Operands.order? : Operands → Option Ordering
  | .int a b => some (compare a b)
  | .long a b => some (compare a b)
  | .float a b =>
    if a < b then some .lt
    else if a == b then some .eq
    else if b < a then some .gt
    else none
  | .double a b =>
    if a < b then some .lt
    else if a == b then some .eq
    else if b < a then some .gt
    else none

/-- What an ordering makes of a comparison. -/
def BinaryOp.holds (op : BinaryOp) (order : Ordering) : Bool :=
  match op with
  | .eq => order.isEq
  | .ne => order.isNe
  | .lt => order.isLT
  | .le => order.isLE
  | .gt => order.isGT
  | _ => order.isGE

/-- Comparison of two numbers. A NaN differs from all numbers, and no other comparison with it holds. -/
def BinaryOp.compare (op : BinaryOp) (left right : Number) : Bool :=
  match (left.promote right).order? with
  | some order => op.holds order
  | none => op = .ne

/-! ## §4. Operators on constants. -/

/-- Operators on two truth values. -/
def BinaryOp.onBool (op : BinaryOp) (a b : Bool) : Option Bool :=
  match op with
  | .and | .bitAnd => some (a && b)
  | .or | .bitOr => some (a || b)
  | .bitXor | .ne => some (a != b)
  | .eq => some (a == b)
  | _ => none

/-- Operators on two strings, concatenation apart. -/
def BinaryOp.onString (op : BinaryOp) (a b : String) : Option Bool :=
  match op with
  | .eq => some (a == b)
  | .ne => some (a != b)
  | _ => none

/-- Operators on two numbers. -/
def BinaryOp.onNumbers (op : BinaryOp) (left right : Number) : Option Constant :=
  match op with
  | .shl | .shr | .ushr => op.shift left right
  | .eq | .ne | .lt | .le | .gt | .ge => some (.bool (op.compare left right))
  | _ => op.arithmetic (left.promote right)

namespace Constant

/-- Whether a constant is a string. -/
def isString : Constant → Bool
  | .str _ => true
  | _ => false

/-- Value of a binary operator. A sum with a string is a concatenation. -/
def binary (op : BinaryOp) (left right : Constant) : Option Constant :=
  if op = .add && (left.isString || right.isString) then
    some (.str (left.text ++ right.text))
  else
    match left, right with
    | .bool a, .bool b => (op.onBool a b).map .bool
    | .str a, .str b => (op.onString a b).map .bool
    | _, _ => do op.onNumbers (← Number.ofConstant? left) (← Number.ofConstant? right)

/-- Value of a unary operator on a number. -/
def unaryNumber (op : UnaryOp) : Number → Option Constant
  | .int value =>
    match op with
    | .plus => some (.int value)
    | .neg => some (.int (-value))
    | .bitNot => some (.int (~~~value))
    | _ => none
  | .long value =>
    match op with
    | .plus => some (.long value)
    | .neg => some (.long (-value))
    | .bitNot => some (.long (~~~value))
    | _ => none
  | .float value =>
    match op with
    | .plus => some (.float value)
    | .neg => some (.float (-value))
    | _ => none
  | .double value =>
    match op with
    | .plus => some (.double value)
    | .neg => some (.double (-value))
    | _ => none

/-- Value of a unary operator. -/
def unary (op : UnaryOp) (value : Constant) : Option Constant :=
  match op, value with
  | .not, .bool flag => some (.bool (!flag))
  | _, _ => do unaryNumber op (← Number.ofConstant? value)

/-! ## §5. Casts. -/

/-- A number as a constant of a numeric type. -/
def castNumber (type : String) (number : Number) : Option Constant :=
  match type with
  | "int" => some (.int number.toInt)
  | "long" => some (.long number.toLong)
  | "float" => some (.float number.toSingle)
  | "double" => some (.double number.toDouble)
  | "short" => some (.int number.toInt.toInt16.toInt32)
  | "byte" => some (.int number.toInt.toInt8.toInt32)
  | "char" => some (.char number.toInt.toUInt32.toUInt16)
  | _ => none

/-- Value of a cast to a primitive type or to strings. -/
def cast (type : String) (value : Constant) : Option Constant :=
  if type = "String" || type = "java.lang.String" then
    match value with
    | .str _ => some value
    | _ => none
  else if type = "boolean" then
    match value with
    | .bool _ => some value
    | _ => none
  else do
    castNumber type (← Number.ofConstant? value)

/-- Names of the numeric types. -/
def numericTypes : List String := ["int", "long", "float", "double", "char", "short", "byte"]

/-- Value of an initializer in a variable of a declared type. -/
def coerce (type : String) (value : Constant) : Option Constant :=
  if numericTypes.contains type then
    match value with
    | .str _ | .bool _ | .null => none
    | _ => cast type value
  else if type = "boolean" then
    match value with
    | .bool _ => some value
    | _ => none
  else
    some value

/-- Value brought to the type of the old value of a variable. -/
def coerceLike (old value : Constant) : Option Constant :=
  match old with
  | .int _ => cast "int" value
  | .long _ => cast "long" value
  | .float _ => cast "float" value
  | .double _ => cast "double" value
  | .char _ => cast "char" value
  | _ => some value

/-- Last part of a qualified name. -/
def simpleName (qualified : String) : String :=
  String.ofList ((qualified.toList.reverse.takeWhile fun c => c != '.' && c != '/').reverse)

/-- Value of the method `valueOf` of a wrapper class or of strings. -/
def boxed (owner : String) (argument : Constant) : Option Constant :=
  match simpleName owner with
  | "Integer" => cast "int" argument
  | "Long" => cast "long" argument
  | "Float" => cast "float" argument
  | "Double" => cast "double" argument
  | "Short" => cast "short" argument
  | "Byte" => cast "byte" argument
  | "Character" =>
    match argument with
    | .char _ => some argument
    | _ => none
  | "Boolean" =>
    match argument with
    | .bool _ => some argument
    | _ => none
  | "String" => some (.str argument.text)
  | _ => none

end Constant

end PatchPresence
