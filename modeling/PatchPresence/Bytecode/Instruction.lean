/-
  PatchPresence.Bytecode.Instruction — decoded instructions and exception handlers of a method body.

  An operand may come with any opcode: what an instruction jumps to is read off the operand, how
  control leaves it off the opcode.
-/
import PatchPresence.Bytecode.Opcode
import PatchPresence.Constant
import PatchPresence.Signature

namespace PatchPresence

/-! ## §1. Operands. -/

/-- How a call finds its method. -/
inductive CallKind
  | virtual
  | interface
  | special
  | static
  | dynamic
deriving DecidableEq, Repr

/-- What an invocation calls. -/
structure CallSite where
  owner : String
  name : String
  descriptor : String
  kind : CallKind
deriving DecidableEq, Repr

/-- The field that an instruction reads or writes. -/
structure FieldRef where
  owner : String
  name : String
  descriptor : String
deriving DecidableEq, Repr

/-- Element type of an array of primitives. -/
inductive ArrayElement
  | boolean
  | char
  | float
  | double
  | byte
  | short
  | int
  | long
deriving DecidableEq, Repr

/-- Descriptor of the array type over an element type. -/
def ArrayElement.arrayDescriptor : ArrayElement → String
  | .boolean => "[Z"
  | .char => "[C"
  | .float => "[F"
  | .double => "[D"
  | .byte => "[B"
  | .short => "[S"
  | .int => "[I"
  | .long => "[J"

/-- Operand of an instruction. -/
inductive Operand
  | invoke (site : CallSite)
  | field (ref : FieldRef)
  | branch (target : Nat)
  /-- Targets by case label, and the target when no label fits. -/
  | switch (fallback : Nat) (cases : List (Int32 × Nat))
  | constant (value : Constant)
  /-- A class by its internal name. -/
  | classRef (name : String)
  | newArray (element : ArrayElement)
  | multiArray (descriptor : String) (dimensions : Nat)
  /-- A slot of the local variables. -/
  | slot (index : Nat)
  | increment (index : Nat) (delta : Int16)
  /-- No operand, or none that matters here. -/
  | none
deriving DecidableEq, Repr

/-- How many values an instruction takes from the stack and puts on it. -/
structure StackEffect where
  pops : Nat
  pushes : Nat
deriving DecidableEq, Repr

/-! ## §2. Instructions. -/

/-- One instruction of a method body. -/
structure Instruction where
  /-- Where the instruction starts in the code of its method. -/
  offset : Nat
  opcode : Opcode
  operand : Operand
  /-- Stack effect as the decoder reports it, for opcodes without a stack rule. -/
  effect : Option StackEffect
deriving DecidableEq, Repr

namespace Instruction

/-- The constant that the instruction pushes. The short forms carry it in the opcode. -/
def constant? (inst : Instruction) : Option Constant :=
  if 0x02 ≤ inst.opcode && inst.opcode ≤ 0x08 then
    some (.int (Int32.ofInt (inst.opcode.toNat - 3)))
  else if 0x09 ≤ inst.opcode && inst.opcode ≤ 0x0a then
    some (.long (Int64.ofInt (inst.opcode.toNat - 9)))
  else if 0x0b ≤ inst.opcode && inst.opcode ≤ 0x0d then
    some (.float (Float32.ofNat (inst.opcode.toNat - 11)))
  else if 0x0e ≤ inst.opcode && inst.opcode ≤ 0x0f then
    some (.double (Float.ofNat (inst.opcode.toNat - 14)))
  else
    match inst.operand with
    | .constant value => some value
    | _ => none

/-- Offsets that the operand may send control to; of a switch, first the one for no case. -/
def targets (inst : Instruction) : List Nat :=
  match inst.operand with
  | .branch target => [target]
  | .switch fallback cases => fallback :: cases.map Prod.snd
  | _ => []

/-- No instruction of the same block follows this one. -/
def endsBlock (inst : Instruction) : Bool :=
  !inst.targets.isEmpty || inst.opcode.endsBlock

end Instruction

/-! ## §3. Handlers and bodies. -/

/-- An exception handler with the range of offsets that it protects. -/
structure ExceptionHandler where
  start : Nat
  /-- First offset behind the protected range. -/
  stop : Nat
  handler : Nat
  /-- Class of the caught exceptions; without one the handler catches all. -/
  catchType : Option String
deriving DecidableEq, Repr

/-- Whether an offset lies in the protected range. -/
def ExceptionHandler.protects (handler : ExceptionHandler) (offset : Nat) : Bool :=
  handler.start ≤ offset && offset < handler.stop

/-- A method with its code. -/
structure MethodBody where
  signature : MethodSignature
  instructions : List Instruction
  handlers : List ExceptionHandler
deriving DecidableEq, Repr

end PatchPresence
