/-
  PatchPresence.Folding.Number — numeric constants, conversions between their types, and promotion.
-/
import PatchPresence.Constant
import PatchPresence.Decimal.Exact

namespace PatchPresence

/-- A number in one of the four types that Java computes in. -/
inductive Number
  | int (value : Int32)
  | long (value : Int64)
  | float (value : Float32)
  | double (value : Float)
deriving DecidableEq, Repr

/-- Two operands of the same type. -/
inductive Operands
  | int (a b : Int32)
  | long (a b : Int64)
  | float (a b : Float32)
  | double (a b : Float)
deriving DecidableEq, Repr

namespace Number

/-- The number that a constant stands for; a character is the int of its code unit. -/
def ofConstant? : Constant → Option Number
  | .int value => some (.int value)
  | .char unit => some (.int (Int32.ofNat unit.toNat))
  | .long value => some (.long value)
  | .float value => some (.float value)
  | .double value => some (.double value)
  | _ => none

/-! ## §1. Conversions. -/

/-- As a double. -/
def toDouble : Number → Float
  | .int value => Float.ofInt value.toInt
  | .long value => Float.ofInt value.toInt
  | .float value => value.toFloat
  | .double value => value

/-- As a single. -/
def toSingle : Number → Float32
  | .int value => value.toInt64.toFloat32
  | .long value => value.toFloat32
  | .float value => value
  | .double value => value.toFloat32

/-- As a long: whole numbers keep their value, others lose the fraction and stay in range. -/
def toLong : Number → Int64
  | .int value => value.toInt64
  | .long value => value
  | .float value => Int64.ofInt (Single.truncate Int64.minValue.toInt Int64.maxValue.toInt value)
  | .double value => Int64.ofInt (Double.truncate Int64.minValue.toInt Int64.maxValue.toInt value)

/-- As an int: a long loses its high bits, others lose the fraction and stay in range. -/
def toInt : Number → Int32
  | .int value => value
  | .long value => value.toInt32
  | .float value => Int32.ofInt (Single.truncate Int32.minValue.toInt Int32.maxValue.toInt value)
  | .double value => Int32.ofInt (Double.truncate Int32.minValue.toInt Int32.maxValue.toInt value)

/-! ## §2. Promotion. -/

/-- Brings two numbers to the wider of their types. -/
def promote : Number → Number → Operands
  | .double a, b => .double a b.toDouble
  | a, .double b => .double a.toDouble b
  | .float a, b => .float a b.toSingle
  | a, .float b => .float a.toSingle b
  | .long a, b => .long a b.toLong
  | a, .long b => .long a.toLong b
  | .int a, .int b => .int a b

end Number

end PatchPresence
