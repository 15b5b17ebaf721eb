/-
  PatchPresence.Flow.Build — the flow graph of a list of instructions.

  Blocks cut the list at its leaders. A handler gets an exception edge from every block that starts
  in its protected range.
-/
import PatchPresence.Error
import PatchPresence.Flow.Graph

namespace PatchPresence

namespace Graph

/-! ## §1. Checks before blocks are cut. -/

/-- Refuses a landmark that is not the offset of an instruction. -/
def checkAligned (offsets : List Nat) (landmark : Landmark) (offset reportedAt : Nat) :
    Outcome Unit :=
  if offsets.contains offset then
    .ok ()
  else
    .error (.malformedCode reportedAt (.misaligned landmark offset))

/-- Refuses a list whose offsets do not grow, at the first instruction that is not behind the one
    before it. -/
def checkIncreasing : List Instruction → Outcome Unit
  | a :: b :: rest =>
    if b.offset ≤ a.offset then
      .error (.malformedCode b.offset .unordered)
    else
      checkIncreasing (b :: rest)
  | _ => .ok ()

/-- Refuses an instruction with a target that starts no instruction. -/
def checkTargets (offsets : List Nat) (inst : Instruction) : Outcome Unit :=
  inst.targets.forM fun target => checkAligned offsets .branchTarget target inst.offset

/-- Refuses a handler whose landmarks start no instruction. A protected range may end behind the
    last instruction. -/
def checkHandler (offsets : List Nat) (lastOffset : Nat) (handler : ExceptionHandler) :
    Outcome Unit := do
  checkAligned offsets .handler handler.handler handler.handler
  checkAligned offsets .rangeStart handler.start handler.start
  if handler.stop ≤ lastOffset then
    checkAligned offsets .rangeEnd handler.stop handler.stop

/-! ## §2. Blocks. -/

/-- Offsets of the instructions that follow one which ends a block. -/
def followers : List Instruction → List Nat
  | a :: b :: rest =>
    if a.endsBlock then b.offset :: followers (b :: rest) else followers (b :: rest)
  | _ => []

/-- Offsets that a block starts at: the first instruction, jump targets, what follows the end of a
    block, and the landmarks of handlers. -/
def leaders (instructions : List Instruction) (handlers : List ExceptionHandler) : List Nat :=
  (instructions.take 1).map Instruction.offset
    ++ instructions.flatMap Instruction.targets
    ++ followers instructions
    ++ handlers.flatMap fun handler => [handler.handler, handler.start, handler.stop]

/-- Cuts a list before each element that leads, except the first. -/
def cut {α : Type} (leads : α → Bool) : List α → List (α × List α)
  | [] => []
  | a :: rest =>
    match cut leads rest with
    | [] => [(a, [])]
    | (b, bs) :: parts =>
      if leads b then (a, []) :: (b, bs) :: parts else (a, b :: bs) :: parts

/-- Blocks of a list of instructions, still without edges. -/
def cutBlocks (instructions : List Instruction) (handlers : List ExceptionHandler) : List Block :=
  let starts := leaders instructions handlers
  (cut (fun inst => starts.contains inst.offset) instructions).mapIdx fun index part =>
    { index, first := part.1, rest := part.2, edges := [] }

/-! ## §3. Edges. -/

/-- The block that starts at an offset. -/
def blockStartingAt? (blocks : List Block) (offset : Nat) : Option Nat :=
  blocks.findIdx? fun block => block.startOffset == offset

/-- The block that a jump to an offset enters. -/
def jumpTarget (blocks : List Block) (offset : Nat) : Outcome Nat :=
  match blockStartingAt? blocks offset with
  | some index => .ok index
  | none => .error (.malformedCode offset .targetInsideBlock)

/-- Edges by which control leaves the block at `index`, exceptions apart. -/
def flowEdges (blocks : List Block) (index : Nat) (block : Block) : Outcome (List Edge) :=
  let last := block.last
  let next := if index + 1 < blocks.length then [EdgeTarget.block (index + 1)] else []
  if last.opcode.isExit then
    .ok [⟨.exit, .leave⟩]
  else if last.opcode.isSwitch then do
    let targets ← last.targets.mapM (jumpTarget blocks)
    return targets.eraseDups.map fun target => ⟨.block target, .jump⟩
  else if last.opcode.isConditional then
    match last.operand with
    | .branch target => do
      let target ← jumpTarget blocks target
      return ⟨.block target, .conditionalTrue⟩ :: next.map (⟨·, .conditionalFalse⟩)
    | _ => .error (.malformedCode last.offset .conditionalWithoutTarget)
  else if last.opcode.isUnconditional then
    match last.operand with
    | .branch target => do
      let target ← jumpTarget blocks target
      return [⟨.block target, .jump⟩]
    | _ => .error (.malformedCode last.offset .jumpWithoutTarget)
  else
    .ok (next.map (⟨·, .fallThrough⟩))

/-- Edges to the handlers whose range holds the start of a block, each handler block once. -/
def exceptionEdges (blocks : List Block) (handlers : List ExceptionHandler) (block : Block) :
    List Edge :=
  let entered := handlers.filterMap fun handler =>
    if handler.protects block.startOffset then blockStartingAt? blocks handler.handler else none
  entered.eraseDups.map fun index => ⟨.block index, .exception⟩

/-! ## §4. The graph. -/

/-- Builds the flow graph of a method body, or says where the body is malformed. -/
def build (instructions : List Instruction) (handlers : List ExceptionHandler) :
    Outcome Graph := do
  let some last := instructions.getLast? | throw (.malformedCode 0 .empty)
  checkIncreasing instructions
  let offsets := instructions.map Instruction.offset
  instructions.forM (checkTargets offsets)
  handlers.forM (checkHandler offsets last.offset)
  let blocks := cutBlocks instructions handlers
  let connected ← blocks.mapM fun block => do
    let edges ← flowEdges blocks block.index block
    return { block with edges := edges ++ exceptionEdges blocks handlers block }
  return ⟨connected⟩

end Graph

end PatchPresence
