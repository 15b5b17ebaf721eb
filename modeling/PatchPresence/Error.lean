/-
  PatchPresence.Error — why an analysis stops, and the one wording of each cause.

  Every error belongs to one method body or one file of a diff: callers keep it with that unit and go
  on with the others.
-/
namespace PatchPresence

/-! ## §1. Causes. -/

/-- A place in a method body that has to be the offset of an instruction. -/
inductive Landmark
  | branchTarget
  | handler
  | rangeStart
  | rangeEnd
deriving DecidableEq, Repr

/-- What is wrong with a method body. -/
inductive CodeFault
  /-- There is no instruction. -/
  | empty
  /-- An instruction does not start after the one before it. -/
  | unordered
  /-- A landmark falls between instructions. -/
  | misaligned (landmark : Landmark) (offset : Nat)
  /-- A jump leads to an instruction that starts no block. -/
  | targetInsideBlock
  /-- A conditional branch carries no target. -/
  | conditionalWithoutTarget
  /-- An unconditional branch carries no target. -/
  | jumpWithoutTarget
  /-- A text that has to be a descriptor is none. -/
  | invalidDescriptor (text : String)
  /-- An invocation does not say what it calls. -/
  | missingCallSite
deriving DecidableEq, Repr

/-- Why the links of a syntax tree are not those of a forest. -/
inductive TreeFault
  | outOfRange (node : Nat)
  | reachedTwice (node : Nat)
  | parentDisagrees (node : Nat)
  | unreachable (node : Nat)
deriving DecidableEq, Repr

/-- What is wrong with a file section of a diff, or with the source that it is read against. -/
inductive DiffFault
  /-- A context line stands where the hunk has no line left on one side. -/
  | contextBeyondHunk
  /-- A line of a hunk fits none of the lines that its header still allows. -/
  | bodyMismatch
  /-- The text ends before the hunk does. -/
  | unfinishedHunk
  /-- A hunk header cannot be read. -/
  | unreadableHeader (line : String)
  /-- Hunks stand in a section that names no file. -/
  | missingFileHeader
  /-- A changed line is not a line of the source file. -/
  | lineOutsideSource (line : Nat) (path : String) (lineCount : Nat)
  /-- The syntax tree of a source file is broken. -/
  | brokenTree (path : String) (fault : TreeFault)
deriving DecidableEq, Repr

/-- An iteration that is stopped at a cap. -/
inductive CappedAnalysis
  | dominators
  | operandTypes
deriving DecidableEq, Repr

/-- Why the analysis of one unit stops. -/
inductive AnalysisError
  /-- The method body does not make a flow graph, or an instruction cannot be executed. -/
  | malformedCode (offset : Nat) (fault : CodeFault)
  /-- An instruction has no stack rule. -/
  | unsupportedOpcode (opcode : UInt8) (offset : Nat)
  /-- A section of a diff cannot be read, or does not fit its source. -/
  | malformedDiff (line : Nat) (fault : DiffFault)
  /-- An iteration was stopped at its cap. -/
  | noConvergence (analysis : CappedAnalysis) (iterations : Nat)
deriving DecidableEq, Repr

/-- Outcome of an analysis. -/
abbrev Outcome (α : Type) := Except AnalysisError α

/-! ## §2. Wording. -/

/-- Name of a landmark. -/
def Landmark.label : Landmark → String
  | .branchTarget => "branch target"
  | .handler => "handler"
  | .rangeStart => "protected range start"
  | .rangeEnd => "protected range end"

/-- Wording of a fault in a method body. -/
def CodeFault.message : CodeFault → String
  | .empty => "empty instruction list"
  | .unordered => "instruction offsets are not strictly increasing"
  | .misaligned landmark offset =>
    landmark.label ++ " " ++ toString offset ++ " does not start an instruction"
  | .targetInsideBlock => "target is not a block leader"
  | .conditionalWithoutTarget => "conditional branch without target"
  | .jumpWithoutTarget => "jump without target"
  | .invalidDescriptor text => "invalid descriptor `" ++ text ++ "`"
  | .missingCallSite => "invocation without call site"

/-- Wording of a fault in the links of a tree. -/
def TreeFault.message : TreeFault → String
  | .outOfRange node => "node " ++ toString node ++ " is out of range"
  | .reachedTwice node => "node " ++ toString node ++ " is reachable twice"
  | .parentDisagrees node => "node " ++ toString node ++ " disagrees with its parent link"
  | .unreachable node => "node " ++ toString node ++ " is unreachable from the roots"

/-- Wording of a fault in a section of a diff. -/
def DiffFault.message : DiffFault → String
  | .contextBeyondHunk => "context line beyond hunk range"
  | .bodyMismatch => "hunk body does not match its header counts"
  | .unfinishedHunk => "diff ends inside a hunk"
  | .unreadableHeader line => "unparsable hunk header `" ++ line ++ "`"
  | .missingFileHeader => "hunks without file header"
  | .lineOutsideSource line path lineCount =>
    "line " ++ toString line ++ " is outside " ++ path ++ " (" ++ toString lineCount ++ " lines)"
  | .brokenTree path fault => path ++ ": " ++ fault.message

/-- Name of a capped iteration. -/
def CappedAnalysis.label : CappedAnalysis → String
  | .dominators => "dominators"
  | .operandTypes => "operand types"

/-- Two lower-case hexadecimal digits of a byte. -/
def hexByte (byte : UInt8) : String :=
  String.ofList [Nat.digitChar (byte.toNat / 16), Nat.digitChar (byte.toNat % 16)]

/-- Wording of an error. -/
def AnalysisError.message : AnalysisError → String
  | .malformedCode offset fault =>
    "malformed bytecode at offset " ++ toString offset ++ ": " ++ fault.message
  | .unsupportedOpcode opcode offset =>
    "unsupported opcode 0x" ++ hexByte opcode ++ " at offset " ++ toString offset
  | .malformedDiff line fault =>
    "malformed diff at line " ++ toString line ++ ": " ++ fault.message
  | .noConvergence analysis iterations =>
    analysis.label ++ " did not converge within " ++ toString iterations ++ " iterations"

end PatchPresence
