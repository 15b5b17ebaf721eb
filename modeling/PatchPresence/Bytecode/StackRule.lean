/-
  PatchPresence.Bytecode.StackRule — what each opcode does to the operand stack.
-/
import PatchPresence.Bytecode.Opcode

namespace PatchPresence

/-- Category of a value that an instruction pushes. -/
inductive Produced
  | int
  | long
  | float
  | double
  | reference
  | null
deriving DecidableEq, Repr

/-- An instruction that only rearranges the top of the stack. -/
inductive Shuffle
  | pop2
  | dup
  | dupX1
  | dupX2
  | dup2
  | dup2X1
  | dup2X2
  | swap
deriving DecidableEq, Repr

/-- Transfer rule of an opcode. -/
inductive StackRule
  /-- Takes a fixed number of values and pushes at most one. -/
  | fixed (pops : Nat) (push : Option Produced)
  | loadLocal (produced : Produced)
  | storeLocal
  | arrayLoad (produced : Produced)
  | referenceArrayLoad
  /-- Pushes a constant of the pool. -/
  | constant
  | shuffle (kind : Shuffle)
  | increment
  | getField (receiver : Bool)
  | putField (receiver : Bool)
  | invoke (receiver : Bool)
  | newObject
  | newArray
  | referenceArray
  | multiArray
  | checkCast
  | subroutineCall
  | subroutineReturn
deriving DecidableEq, Repr

/-- Binary arithmetic cycles through int, long, float and double. -/
def Opcode.arithmeticKind (opcode : Opcode) : Produced :=
  match (opcode.toNat - 0x60) % 4 with
  | 0 => .int
  | 1 => .long
  | 2 => .float
  | _ => .double

/-- Transfer rule of an opcode; none for an opcode that is not defined or changes its successor. -/
def Opcode.stackRule? (opcode : Opcode) : Option StackRule :=
  match opcode.toNat with
  | 0x00 => some (.fixed 0 none)
  | 0x01 => some (.fixed 0 (some .null))
  | 0x02 | 0x03 | 0x04 | 0x05 | 0x06 | 0x07 | 0x08 | 0x10 | 0x11 => some (.fixed 0 (some .int))
  | 0x09 | 0x0a => some (.fixed 0 (some .long))
  | 0x0b | 0x0c | 0x0d => some (.fixed 0 (some .float))
  | 0x0e | 0x0f => some (.fixed 0 (some .double))
  | 0x12 | 0x13 | 0x14 => some .constant
  | 0x15 | 0x1a | 0x1b | 0x1c | 0x1d => some (.loadLocal .int)
  | 0x16 | 0x1e | 0x1f | 0x20 | 0x21 => some (.loadLocal .long)
  | 0x17 | 0x22 | 0x23 | 0x24 | 0x25 => some (.loadLocal .float)
  | 0x18 | 0x26 | 0x27 | 0x28 | 0x29 => some (.loadLocal .double)
  | 0x19 | 0x2a | 0x2b | 0x2c | 0x2d => some (.loadLocal .reference)
  | 0x2e | 0x33 | 0x34 | 0x35 => some (.arrayLoad .int)
  | 0x2f => some (.arrayLoad .long)
  | 0x30 => some (.arrayLoad .float)
  | 0x31 => some (.arrayLoad .double)
  | 0x32 => some .referenceArrayLoad
  | 0x57 => some (.fixed 1 none)
  | 0x58 => some (.shuffle .pop2)
  | 0x59 => some (.shuffle .dup)
  | 0x5a => some (.shuffle .dupX1)
  | 0x5b => some (.shuffle .dupX2)
  | 0x5c => some (.shuffle .dup2)
  | 0x5d => some (.shuffle .dup2X1)
  | 0x5e => some (.shuffle .dup2X2)
  | 0x5f => some (.shuffle .swap)
  | 0x74 => some (.fixed 1 (some .int))
  | 0x75 => some (.fixed 1 (some .long))
  | 0x76 => some (.fixed 1 (some .float))
  | 0x77 => some (.fixed 1 (some .double))
  | 0x78 | 0x7a | 0x7c | 0x7e | 0x80 | 0x82 => some (.fixed 2 (some .int))
  | 0x79 | 0x7b | 0x7d | 0x7f | 0x81 | 0x83 => some (.fixed 2 (some .long))
  | 0x84 => some .increment
  | 0x85 | 0x8c | 0x8f => some (.fixed 1 (some .long))
  | 0x86 | 0x89 | 0x90 => some (.fixed 1 (some .float))
  | 0x87 | 0x8a | 0x8d => some (.fixed 1 (some .double))
  | 0x88 | 0x8b | 0x8e | 0x91 | 0x92 | 0x93 => some (.fixed 1 (some .int))
  | 0xa7 | 0xc8 | 0xb1 => some (.fixed 0 none)
  | 0xa8 | 0xc9 => some .subroutineCall
  | 0xa9 => some .subroutineReturn
  | 0xaa | 0xab | 0xbf | 0xc2 | 0xc3 | 0xc6 | 0xc7 => some (.fixed 1 none)
  | 0xb2 => some (.getField false)
  | 0xb3 => some (.putField false)
  | 0xb4 => some (.getField true)
  | 0xb5 => some (.putField true)
  | 0xb6 | 0xb7 | 0xb9 => some (.invoke true)
  | 0xb8 | 0xba => some (.invoke false)
  | 0xbb => some .newObject
  | 0xbc => some .newArray
  | 0xbd => some .referenceArray
  | 0xbe | 0xc1 => some (.fixed 1 (some .int))
  | 0xc0 => some .checkCast
  | 0xc5 => some .multiArray
  | code =>
    if (0x36 ≤ code ∧ code ≤ 0x4e) then some .storeLocal
    else if (0x4f ≤ code ∧ code ≤ 0x56) then some (.fixed 3 none)
    else if (0x60 ≤ code ∧ code ≤ 0x73) then some (.fixed 2 (some opcode.arithmeticKind))
    else if (0x94 ≤ code ∧ code ≤ 0x98) then some (.fixed 2 (some .int))
    else if (0x99 ≤ code ∧ code ≤ 0x9e) then some (.fixed 1 none)
    else if (0x9f ≤ code ∧ code ≤ 0xa6) then some (.fixed 2 none)
    else if (0xac ≤ code ∧ code ≤ 0xb0) then some (.fixed 1 none)
    else none

end PatchPresence
