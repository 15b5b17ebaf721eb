/-
  PatchPresence.Operand.Typing — kinds of stack entries and locals at the entry of every block.

  Blocks wait in a queue; visiting one executes it from its entry frame and joins what leaves it into
  the entry frames of its successors. A successor whose frame changes waits again.
-/
import PatchPresence.Data.Ascending
import PatchPresence.Data.Table
import PatchPresence.Flow.Graph
import PatchPresence.Operand.Frame

namespace PatchPresence

/-! ## §1. What is found out. -/

/-- What executing instructions shows besides the frames. -/
structure Findings where
  /-- Kinds taken by each invocation, receiver first, by offset. -/
  callArguments : Table Nat (List ValueKind)
  /-- Offsets of instructions without a rule, ascending. -/
  degraded : List Nat
deriving DecidableEq, Repr

namespace Findings

/-- Nothing found yet. -/
def none : Findings := ⟨.empty, []⟩

/-- Adds what executing an instruction in a frame shows. -/
def record (findings : Findings) (frame : Frame) (inst : Instruction) : Findings where
  callArguments :=
    match frame.arguments? inst with
    | some kinds => findings.callArguments.insert inst.offset kinds
    | Option.none => findings.callArguments
  degraded :=
    if inst.opcode.stackRule?.isNone then Ascending.insert inst.offset findings.degraded
    else findings.degraded

end Findings

/-- Operand kinds of one method. -/
structure OperandTyping where
  /-- Entry frame of each block that was visited. -/
  entries : Table Nat Frame
  findings : Findings
deriving DecidableEq, Repr

namespace OperandTyping

/-- Kind of a stack entry, counted from the bottom, at the entry of a block. -/
def entryStack? (typing : OperandTyping) (block slot : Nat) : Option ValueKind := do
  (← typing.entries.get? block).stack[slot]?

/-- Kind of a local variable at the entry of a block. -/
def entryLocal? (typing : OperandTyping) (block index : Nat) : Option ValueKind := do
  (← typing.entries.get? block).locals[index]?

end OperandTyping

namespace Typing

/-! ## §2. Frames that enter a method and its handlers. -/

/-- Slots that a parameter takes. -/
def parameterSlots (type : TypeDescriptor) : List ValueKind :=
  let kind := ValueKind.ofType type
  if kind.isWide then [kind, .unknown] else [kind]

/-- The frame that a method starts with: an empty stack, the receiver and the parameters. -/
def initialFrame (signature : MethodSignature) (method : MethodDescriptor) : Frame where
  stack := []
  locals :=
    (if signature.isStatic then [] else [.reference signature.owner])
      ++ method.parameters.flatMap parameterSlots

/-- Class of the exception that enters a block as a handler: that of the last handler there. -/
def caughtClass (graph : Graph) (handlers : List ExceptionHandler) (block : Nat) : String :=
  let last := handlers.reverse.find? fun handler =>
    graph.blockOfOffset? handler.handler == some block
  (last.bind ExceptionHandler.catchType).getD "java/lang/Throwable"

/-- The frame that goes along an edge, from the frames before and behind a block. A handler may be
    entered from anywhere in the block. -/
def leavingFrame (graph : Graph) (handlers : List ExceptionHandler) (edge : Edge)
    (before behind : Frame) (target : Nat) : Frame :=
  if edge.kind = .exception then
    ⟨[.reference (caughtClass graph handlers target)], joinSlots before.locals behind.locals⟩
  else
    behind

/-! ## §3. Visits. -/

/-- Executes instructions in order. -/
def run (strict : Bool) (frame : Frame) (instructions : List Instruction) : Outcome Frame :=
  instructions.foldlM (Frame.execute strict) frame

/-- Executes instructions in order and records what they show. -/
def runRecording (strict : Bool) (frame : Frame) (findings : Findings) :
    List Instruction → Outcome (Frame × Findings)
  | [] => .ok (frame, findings)
  | inst :: rest => do
    let next ← frame.execute strict inst
    runRecording strict next (findings.record frame inst) rest

/-- Frames so far, and the blocks that wait, in order of arrival. -/
structure Progress where
  entries : Table Nat Frame
  findings : Findings
  queue : List Nat
deriving DecidableEq, Repr

/-- Joins a frame into the entry frame of a block; the block waits when that changes its frame. -/
def Progress.deliver (progress : Progress) (target : Nat) (incoming : Frame) : Progress :=
  let old := progress.entries.get? target
  let merged :=
    match old with
    | some existing => existing.join incoming
    | none => incoming
  if old = some merged then
    progress
  else
    { progress with
      entries := progress.entries.insert target merged
      queue := if progress.queue.contains target then progress.queue
               else progress.queue ++ [target] }

/-- Executes a block and delivers what leaves it. -/
def visit (graph : Graph) (handlers : List ExceptionHandler) (strict : Bool) (progress : Progress)
    (index : Nat) : Outcome Progress :=
  match graph.block? index, progress.entries.get? index with
  | some block, some before => do
    let (behind, findings) ← runRecording strict before progress.findings block.instructions
    return block.edges.foldl (fun acc edge =>
      match edge.block? with
      | some target => acc.deliver target (leavingFrame graph handlers edge before behind target)
      | none => acc) { progress with findings }
  | _, _ => .ok progress

/-- Visits waiting blocks until none is left; at most `fuel` visits. -/
def settle (graph : Graph) (handlers : List ExceptionHandler) (strict : Bool) :
    Nat → Progress → Outcome (Option Progress)
  | fuel, progress =>
    match progress.queue, fuel with
    | [], _ => .ok (some progress)
    | _ :: _, 0 => .ok none
    | index :: queue, fuel + 1 => do
      let next ← visit graph handlers strict { progress with queue } index
      settle graph handlers strict fuel next

end Typing

/-! ## §4. The analysis. -/

/-- Options of the analysis. -/
structure TypingOptions where
  /-- An opcode without a rule is an error. -/
  strict : Bool
  /-- Greatest number of visits. -/
  cap : Nat
deriving DecidableEq, Repr

/-- Kinds at the entry of every block that can be reached. -/
def OperandTyping.infer (graph : Graph) (signature : MethodSignature)
    (handlers : List ExceptionHandler) (options : TypingOptions) : Outcome OperandTyping :=
  if graph.size = 0 then
    .ok ⟨.empty, .none⟩
  else do
    let method ← parseMethod signature.descriptor 0
    let start : Typing.Progress := {
      entries := Table.empty.insert 0 (Typing.initialFrame signature method)
      findings := .none
      queue := [0] }
    match ← Typing.settle graph handlers options.strict options.cap start with
    | some final => return ⟨final.entries, final.findings⟩
    | none => throw (.noConvergence .operandTypes options.cap)

end PatchPresence
