/-
  PatchPresence.Operand.Frame — the abstract stack and local variables, and single steps on them.

  A frame lists its stack from the bottom and its locals from slot 0. A wide value takes one stack
  entry and two local slots, of which the second is unknown. Popping an empty stack gives unknown.
-/
import PatchPresence.Bytecode.Instruction
import PatchPresence.Error
import PatchPresence.Operand.Kind

namespace PatchPresence

/-- Abstract state between two instructions. -/
structure Frame where
  /-- Stack entries, the bottom first. -/
  stack : List ValueKind
  /-- Local variables by slot. -/
  locals : List ValueKind
deriving DecidableEq, Repr

/-! ## §1. Joins. -/

/-- Slot-wise join; a slot on one side only is unknown. -/
def joinSlots : List ValueKind → List ValueKind → List ValueKind
  | a :: as, b :: bs => a.join b :: joinSlots as bs
  | [], bs => bs.map fun _ => .unknown
  | as, [] => as.map fun _ => .unknown

namespace Frame

/-- What holds of a state that is one or the other. -/
def join (a b : Frame) : Frame := ⟨joinSlots a.stack b.stack, joinSlots a.locals b.locals⟩

/-- The first frame adds nothing to the second. -/
def Below (f g : Frame) : Prop := g.join f = g

/-! ## §2. Stack and locals. -/

/-- Takes `count` entries off the stack: the state left, and the entries with the bottom first. What
    the stack does not hold is unknown. -/
def pop (frame : Frame) (count : Nat) : Frame × List ValueKind :=
  let depth := frame.stack.length
  ({ frame with stack := frame.stack.take (depth - count) },
    List.replicate (count - depth) .unknown ++ frame.stack.drop (depth - count))

/-- Takes `count` entries off the stack and forgets them. -/
def drop (frame : Frame) (count : Nat) : Frame := (frame.pop count).1

/-- The entry on top of the stack. -/
def top (frame : Frame) : ValueKind := frame.stack.getLast?.getD .unknown

/-- Puts an entry on the stack. -/
def push (frame : Frame) (kind : ValueKind) : Frame := { frame with stack := frame.stack ++ [kind] }

/-- What a local variable holds. -/
def localKind (frame : Frame) (index : Nat) : ValueKind := (frame.locals[index]?).getD .unknown

/-- Locals with a value stored at a slot. Half of a wide value that is overwritten is gone, and a wide
    value takes the next slot too. -/
def storeLocal (locals : List ValueKind) (index : Nat) (kind : ValueKind) : List ValueKind :=
  let width := if kind.isWide then index + 2 else index + 1
  let padded := locals ++ List.replicate (width - locals.length) .unknown
  let cleared :=
    if 0 < index && ((padded[index - 1]?).getD .unknown).isWide then
      padded.set (index - 1) .unknown
    else
      padded
  let stored := cleared.set index kind
  if kind.isWide then stored.set (index + 1) .unknown else stored

/-- Stores a value in a local variable. -/
def store (frame : Frame) (index : Nat) (kind : ValueKind) : Frame :=
  { frame with locals := storeLocal frame.locals index kind }

end Frame

/-! ## §3. Shuffles. -/

/-- The top of a stack that is listed from the top, and what is below. -/
def popTop (stack : List ValueKind) : ValueKind × List ValueKind :=
  (stack.head?.getD .unknown, stack.tail)

/-- The value or pair of values that fill two slots on top of a stack, listed from the top. -/
def popPair (stack : List ValueKind) : List ValueKind × List ValueKind :=
  let (first, below) := popTop stack
  if first.isWide then
    ([first], below)
  else
    let (second, rest) := popTop below
    ([first, second], rest)

/-- Rearranges a stack that is listed from the top. -/
def Shuffle.apply (shuffle : Shuffle) (stack : List ValueKind) : List ValueKind :=
  match shuffle with
  | .pop2 => (popPair stack).2
  | .dup =>
    let (first, rest) := popTop stack
    first :: first :: rest
  | .dupX1 =>
    let (first, below) := popTop stack
    let (second, rest) := popTop below
    first :: second :: first :: rest
  | .dupX2 =>
    let (first, below) := popTop stack
    let (under, rest) := popPair below
    first :: (under ++ first :: rest)
  | .dup2 =>
    let (upper, rest) := popPair stack
    upper ++ upper ++ rest
  | .dup2X1 =>
    let (upper, below) := popPair stack
    let (under, rest) := popTop below
    upper ++ under :: (upper ++ rest)
  | .dup2X2 =>
    let (upper, below) := popPair stack
    let (under, rest) := popPair below
    upper ++ under ++ upper ++ rest
  | .swap =>
    let (first, below) := popTop stack
    let (second, rest) := popTop below
    second :: first :: rest

/-! ## §4. Operands of instructions. -/

namespace Instruction

/-- The local variable that an instruction works on. The short forms carry it in the opcode. -/
def localIndex (inst : Instruction) : Nat :=
  match inst.operand with
  | .slot index => index
  | _ =>
    let code := inst.opcode.toNat
    if 0x1a ≤ code && code ≤ 0x2d then (code - 0x1a) % 4
    else if 0x3b ≤ code && code ≤ 0x4e then (code - 0x3b) % 4
    else 0

/-- Kind of the value of a field. -/
def fieldKind (inst : Instruction) : ValueKind :=
  match inst.operand with
  | .field ref => (ValueKind.ofDescriptor? ref.descriptor).getD .unknown
  | _ => .unknown

/-- Kind of an object of the class that the instruction names. -/
def classKind (inst : Instruction) : ValueKind :=
  match inst.operand with
  | .classRef name => .reference name
  | _ => .object

/-- Kind of a constant of the pool. -/
def poolKind (inst : Instruction) : ValueKind :=
  match inst.operand with
  | .constant value => .ofConstant value
  | .classRef _ => .reference "java/lang/Class"
  | _ => .unknown

/-- Kind of a new array of primitives. -/
def arrayKind (inst : Instruction) : ValueKind :=
  match inst.operand with
  | .newArray element => .reference element.arrayDescriptor
  | _ => .object

/-- Kind of a new array of references. -/
def referenceArrayKind (inst : Instruction) : ValueKind :=
  match inst.operand with
  | .classRef name => .reference (arrayOf name)
  | _ => .object
where
  /-- Descriptor of an array over a class or another array. -/
  arrayOf (name : String) : String :=
    if name.startsWith "[" then "[" ++ name else "[L" ++ name ++ ";"

end Instruction

/-- Parses the descriptor of a method, or reports the text at an offset. -/
def parseMethod (text : String) (offset : Nat) : Outcome MethodDescriptor :=
  match MethodDescriptor.parse? text with
  | some method => .ok method
  | none => .error (.malformedCode offset (.invalidDescriptor text))

/-- Kind of the elements of an array. -/
def elementKind : ValueKind → ValueKind
  | .reference name =>
    match name.toList with
    | '[' :: rest => (ValueKind.ofDescriptor? (String.ofList rest)).getD .object
    | _ => .object
  | _ => .object

/-- Kind of what loading a local variable pushes. A reference keeps what is known of it. -/
def loadedKind (produced : Produced) (stored : ValueKind) : ValueKind :=
  match produced with
  | .reference =>
    match stored with
    | .reference _ | .null | .returnAddress => stored
    | _ => .object
  | other => .ofProduced other

/-! ## §5. Steps. -/

namespace Frame

/-- State after an instruction without a rule: the reported stack effect, or a stack of which only
    the depth is kept. -/
def degrade (frame : Frame) (inst : Instruction) : Frame :=
  match inst.effect with
  | some effect =>
    let rest := frame.drop effect.pops
    { rest with stack := rest.stack ++ List.replicate effect.pushes .unknown }
  | none => { frame with stack := frame.stack.map fun _ => .unknown }

/-- State after an invocation of a method with the given descriptor. -/
def invoke (frame : Frame) (method : MethodDescriptor) (receiver : Bool) : Frame :=
  let rest := frame.drop (method.parameters.length + receiver.toNat)
  if method.result = ⟨0, .void⟩ then rest else rest.push (.ofType method.result)

/-- State after an instruction with a rule. -/
def apply (frame : Frame) (inst : Instruction) : StackRule → Outcome Frame
  | .fixed pops push =>
    let rest := frame.drop pops
    .ok (match push with
      | some produced => rest.push (.ofProduced produced)
      | none => rest)
  | .loadLocal produced =>
    .ok (frame.push (loadedKind produced (frame.localKind inst.localIndex)))
  | .storeLocal => .ok ((frame.drop 1).store inst.localIndex frame.top)
  | .arrayLoad produced => .ok ((frame.drop 2).push (.ofProduced produced))
  | .referenceArrayLoad =>
    let below := frame.drop 1
    .ok ((below.drop 1).push (elementKind below.top))
  | .constant => .ok (frame.push inst.poolKind)
  | .shuffle kind => .ok { frame with stack := (kind.apply frame.stack.reverse).reverse }
  | .increment =>
    .ok (match inst.operand with
      | .increment index _ => frame.store index .int
      | _ => frame)
  | .getField receiver => .ok ((frame.drop receiver.toNat).push inst.fieldKind)
  | .putField receiver => .ok (frame.drop (1 + receiver.toNat))
  | .invoke receiver =>
    match inst.operand with
    | .invoke site => do
      let method ← parseMethod site.descriptor inst.offset
      return frame.invoke method receiver
    | _ => .error (.malformedCode inst.offset .missingCallSite)
  | .newObject => .ok (frame.push inst.classKind)
  | .newArray => .ok ((frame.drop 1).push inst.arrayKind)
  | .referenceArray => .ok ((frame.drop 1).push inst.referenceArrayKind)
  | .multiArray =>
    .ok (match inst.operand with
      | .multiArray descriptor dimensions => (frame.drop dimensions).push (.reference descriptor)
      | _ => (frame.drop 1).push .object)
  | .checkCast => .ok ((frame.drop 1).push inst.classKind)
  | .subroutineCall => .ok (frame.push .returnAddress)
  | .subroutineReturn => .ok frame

/-- State after one instruction. An opcode without a rule is an error when `strict`. -/
def execute (strict : Bool) (frame : Frame) (inst : Instruction) : Outcome Frame :=
  match inst.opcode.stackRule? with
  | some rule => frame.apply inst rule
  | none =>
    if strict then .error (.unsupportedOpcode inst.opcode inst.offset) else .ok (frame.degrade inst)

/-- Kinds that an invocation takes off the stack, receiver first. -/
def arguments? (frame : Frame) (inst : Instruction) : Option (List ValueKind) :=
  match inst.opcode.stackRule?, inst.operand with
  | some (.invoke receiver), .invoke site =>
    (MethodDescriptor.parse? site.descriptor).map fun method =>
      (frame.pop (method.parameters.length + receiver.toNat)).2
  | _, _ => none

end Frame

end PatchPresence
