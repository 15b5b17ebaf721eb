/-
  PatchPresence.Feature.FromCode — features of a method body.
-/
import PatchPresence.Feature.Name
import PatchPresence.Flow.LoopNest
import PatchPresence.Operand.Typing

namespace PatchPresence

/-- A method body with what is known of its flow. -/
structure AnalyzedCode where
  signature : MethodSignature
  graph : Graph
  dominators : Dominators
  loops : List NaturalLoop
  /-- Kinds of the arguments of calls by offset. -/
  callArguments : Table Nat (List ValueKind)

/-! ## §1. Loops. -/

namespace AnalyzedCode

/-- What a value that is compared is. -/
def classifyOperand : Option Instruction → ExitClass
  | some inst =>
    if inst.constant?.isSome then .constant
    else if inst.opcode.isInvoke then .call
    else .variable
  | none => .variable

/-- What the conditional branch at the end of a block compares with; the block is given in reverse. -/
def classifyExit : List Instruction → ExitClass
  | [] => .variable
  | branch :: before =>
    if branch.opcode.isNullBranch then
      .constant
    else if branch.opcode.isUnaryBranch then
      match before with
      | [] => .constant
      | previous :: earlier =>
        if previous.opcode.isInvoke then .call
        else if previous.opcode.isValueCompare then classifyOperand earlier.head?
        else .constant
    else
      classifyOperand before.head?

/-- Whether a block may leave a loop. -/
def leaves (loop : NaturalLoop) (block : Block) : Bool :=
  block.edges.any fun edge =>
    match edge.block? with
    | some target => !loop.contains target
    | none => true

/-- Whether a block jumps back to the header of a loop when its condition holds. -/
def jumpsBack (loop : NaturalLoop) (block : Block) : Bool :=
  loop.latches.contains block.index &&
    block.edges.any fun edge => edge.kind == .conditionalTrue && edge.block? == some loop.header

/-- Member blocks that end in a conditional branch. -/
def branchingMembers (code : AnalyzedCode) (loop : NaturalLoop) : List Block :=
  (loop.members.filterMap code.graph.block?).filter (·.last.opcode.isConditional)

/-- Signature of a loop. -/
def loopSignature (code : AnalyzedCode) (loop : NaturalLoop) : LoopSignature :=
  let exits := (code.branchingMembers loop).filter (leaves loop)
  .ofExits loop.depth (exits.map fun block => classifyExit block.instructions.reverse)

/-- Offsets of the branches that make up a loop: a source has no branch of its own for them. -/
def loopControl (code : AnalyzedCode) : List Nat :=
  code.loops.flatMap fun loop =>
    ((code.branchingMembers loop).filter fun block => leaves loop block || jumpsBack loop block).map
      (·.last.offset)

/-! ## §2. Instructions. -/

/-- Shape of an opcode. -/
def shape? (opcode : Opcode) : Option Shape :=
  if opcode.isThrow then some .throwExit
  else if opcode.isMonitorEnter then some .monitor
  else if opcode.isInstanceOf then some .instanceOf
  else if opcode == 0x9b || opcode == 0xa1 then some .branchLt
  else if opcode == 0x9e || opcode == 0xa4 then some .branchLe
  else if opcode == 0x9d || opcode == 0xa3 then some .branchGt
  else if opcode == 0x9c || opcode == 0xa2 then some .branchGe
  else if opcode == 0x78 || opcode == 0x79 then some .shiftLeft
  else if opcode == 0x7a || opcode == 0x7b then some .shiftRight
  else if opcode == 0x7c || opcode == 0x7d then some .unsignedShiftRight
  else if opcode.isSwitch then some .switch
  else if opcode.isReturn then some .returnExit
  else none

/-- Whether an instruction leaves a truth value rather than a number. -/
def yieldsCondition (inst : Instruction) : Bool :=
  inst.opcode.isInstanceOf || inst.opcode.isValueCompare ||
    match inst.operand with
    | .invoke site => (Text.after? ['Z', ')'] site.descriptor.toList.reverse).isSome
    | _ => false

/-- Constants of an instruction. A branch on a number compares with a zero that nothing pushes. -/
def constantsOf (previous : Option Instruction) (inst : Instruction) : List Feature :=
  match inst.constant? with
  | some value => Feature.ofConstant value
  | none =>
    match inst.operand with
    | .increment _ delta => [Feature.ofInt (Int32.ofNat delta.toInt.natAbs)]
    | _ =>
      if inst.opcode.isZeroBranch && !(previous.map yieldsCondition).getD false then
        [Feature.ofInt 0]
      else
        []

/-- Number of arguments of a call: by its descriptor, or else by what the call takes off the stack. -/
def arity? (code : AnalyzedCode) (offset : Nat) (site : CallSite) : Option Nat :=
  match MethodDescriptor.parse? site.descriptor with
  | some descriptor => some descriptor.parameters.length
  | none => do
    let arguments ← code.callArguments.get? offset
    return arguments.length - (if site.kind = .static then 0 else 1)

/-- The call of an instruction; a dynamic call names no method. -/
def callsOf (code : AnalyzedCode) (inst : Instruction) : List Feature :=
  match inst.operand with
  | .invoke site =>
    if site.kind = .dynamic then
      []
    else
      match code.arity? inst.offset site with
      | some arity => Feature.ofCall site.owner site.name arity
      | none => []
  | _ => []

/-- The field or array length that an instruction uses. -/
def accessesOf (inst : Instruction) : List Feature :=
  match inst.operand with
  | .field ref => Feature.ofField ref.owner ref.name
  | _ => if inst.opcode.isArrayLength then [.access Feature.arrayLengthKey] else []

/-- What an instruction creates. -/
def creationsOf (inst : Instruction) : List Feature :=
  match inst.operand with
  | .classRef name =>
    if inst.opcode.isNew then
      Feature.ofObject name
    else if inst.opcode.isReferenceArray then
      [.creation (if name.toList.head? = some '[' then "[" ++ name else "[L" ++ name ++ ";")]
    else
      []
  | .newArray element => [.creation element.arrayDescriptor]
  | .multiArray descriptor _ => [.creation descriptor]
  | _ => []

/-- The shape of an instruction that is no loop control. -/
def shapesOf (control : List Nat) (inst : Instruction) : List Feature :=
  if control.contains inst.offset then [] else ((shape? inst.opcode).map Feature.shape).toList

/-- Features of an instruction behind another, family by family. -/
def featuresOf (code : AnalyzedCode) (families : Families) (control : List Nat)
    (previous : Option Instruction) (inst : Instruction) : List Feature :=
  (if families.shapes then shapesOf control inst else []) ++
    (if families.constants then constantsOf previous inst else []) ++
    (if families.callSites then code.callsOf inst else []) ++
    (if families.accesses then accessesOf inst else []) ++
    (if families.creations then creationsOf inst else [])

/-- Features of consecutive instructions. -/
def featuresFrom (code : AnalyzedCode) (families : Families) (control : List Nat)
    (previous : Option Instruction) : List Instruction → List Feature
  | [] => []
  | inst :: rest =>
    code.featuresOf families control previous inst ++
      code.featuresFrom families control (some inst) rest

/-! ## §3. The method. -/

/-- Findings of the loops. -/
def loopFindings (code : AnalyzedCode) (families : Families) : List Finding :=
  code.loops.flatMap fun loop =>
    (families.shape .loop ++ families.loop (code.loopSignature loop)).map (⟨loop.header, ·⟩)

/-- Findings of the blocks that can be reached. -/
def blockFindings (code : AnalyzedCode) (families : Families) : List Finding :=
  let control := code.loopControl
  (code.dominators.preorder.filterMap code.graph.block?).flatMap fun block =>
    (code.featuresFrom families control none block.instructions).map (⟨block.index, ·⟩)

/-- Features of the method. -/
def features (code : AnalyzedCode) (families : Families) : FeatureSet :=
  .ofFindings .bytecode code.signature.key code.dominators.preorder
    (code.loopFindings families ++ code.blockFindings families)

end AnalyzedCode

end PatchPresence
