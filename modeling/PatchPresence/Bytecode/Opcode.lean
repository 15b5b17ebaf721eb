/-
  PatchPresence.Bytecode.Opcode — opcode numbers of the JVM and their place in control flow.
-/
namespace PatchPresence

/-- Number of a JVM instruction. -/
abbrev Opcode := UInt8

namespace Opcode

/-! ## §1. Classes of opcodes that steer control flow. -/

/-- Leaves the method with or without a value. -/
def isReturn (opcode : Opcode) : Bool := 0xac ≤ opcode && opcode ≤ 0xb1

/-- Raises the exception on top of the stack. -/
def isThrow (opcode : Opcode) : Bool := opcode == 0xbf

/-- Continues at a return address held in a local. -/
def isSubroutineReturn (opcode : Opcode) : Bool := opcode == 0xa9

/-- Has no successor in the method: control neither falls through nor jumps to a known place. -/
def isExit (opcode : Opcode) : Bool :=
  opcode.isReturn || opcode.isThrow || opcode.isSubroutineReturn

/-- Jumps or falls through, by a condition on the stack. -/
def isConditional (opcode : Opcode) : Bool :=
  (0x99 ≤ opcode && opcode ≤ 0xa6) || opcode == 0xc6 || opcode == 0xc7

/-- Always jumps; a subroutine call counts as a jump. -/
def isUnconditional (opcode : Opcode) : Bool :=
  opcode == 0xa7 || opcode == 0xa8 || opcode == 0xc8 || opcode == 0xc9

/-- Jumps by a table. -/
def isSwitch (opcode : Opcode) : Bool := opcode == 0xaa || opcode == 0xab

/-- Ends a basic block whatever its operand is. -/
def endsBlock (opcode : Opcode) : Bool :=
  opcode.isConditional || opcode.isUnconditional || opcode.isSwitch || opcode.isExit

/-! ## §2. Classes that features look at. -/

/-- Compares the top of the stack with zero. -/
def isZeroBranch (opcode : Opcode) : Bool := 0x99 ≤ opcode && opcode ≤ 0x9e

/-- Compares the top of the stack with null. -/
def isNullBranch (opcode : Opcode) : Bool := opcode == 0xc6 || opcode == 0xc7

/-- Compares the top of the stack with zero or null. -/
def isUnaryBranch (opcode : Opcode) : Bool := opcode.isZeroBranch || opcode.isNullBranch

/-- Pushes the outcome of a comparison of two values. -/
def isValueCompare (opcode : Opcode) : Bool := 0x94 ≤ opcode && opcode ≤ 0x98

/-- Calls a method. -/
def isInvoke (opcode : Opcode) : Bool := 0xb6 ≤ opcode && opcode ≤ 0xba

/-- Pushes whether a reference is of a type. -/
def isInstanceOf (opcode : Opcode) : Bool := opcode == 0xc1

/-- Enters the monitor of an object. -/
def isMonitorEnter (opcode : Opcode) : Bool := opcode == 0xc2

/-- Pushes the length of an array. -/
def isArrayLength (opcode : Opcode) : Bool := opcode == 0xbe

/-- Creates an object. -/
def isNew (opcode : Opcode) : Bool := opcode == 0xbb

/-- Creates an array of references. -/
def isReferenceArray (opcode : Opcode) : Bool := opcode == 0xbd

end Opcode

end PatchPresence
