/-
  PatchPresence.Flow.Graph — basic blocks with edges of several kinds.

  Block 0 is the entry. An edge leads to a block by index or out of the method.
-/
import PatchPresence.Bytecode.Instruction
import PatchPresence.Data.Bisect
import PatchPresence.Data.Explore

namespace PatchPresence

/-! ## §1. Blocks and edges. -/

/-- Why control goes along an edge. -/
inductive EdgeKind
  | fallThrough
  | conditionalTrue
  | conditionalFalse
  | exception
  | jump
  | leave
deriving DecidableEq, Repr

/-- Where an edge leads. -/
inductive EdgeTarget
  | block (index : Nat)
  | exit
deriving DecidableEq, Repr

/-- An edge out of a block. -/
structure Edge where
  target : EdgeTarget
  kind : EdgeKind
deriving DecidableEq, Repr

/-- The block that an edge leads to, if it stays in the method. -/
def Edge.block? (edge : Edge) : Option Nat :=
  match edge.target with
  | .block index => some index
  | .exit => none

/-- A run of instructions that is entered at its first and left after its last. -/
structure Block where
  index : Nat
  first : Instruction
  rest : List Instruction
  edges : List Edge
deriving DecidableEq, Repr

namespace Block

/-- Instructions in order; there is at least one. -/
def instructions (block : Block) : List Instruction := block.first :: block.rest

/-- The instruction that control leaves the block by. -/
def last (block : Block) : Instruction := block.rest.getLast?.getD block.first

/-- Offset of the first instruction. -/
def startOffset (block : Block) : Nat := block.first.offset

/-- Offset of the last instruction. -/
def endOffset (block : Block) : Nat := block.last.offset

/-- Blocks that edges lead to, with repetitions. -/
def successors (block : Block) : List Nat := block.edges.filterMap Edge.block?

end Block

/-! ## §2. Graphs. -/

/-- Flow graph of a method body. -/
structure Graph where
  blocks : List Block
deriving DecidableEq, Repr

namespace Graph

/-- Number of blocks. -/
def size (graph : Graph) : Nat := graph.blocks.length

/-- The block at an index. -/
def block? (graph : Graph) (index : Nat) : Option Block := graph.blocks[index]?

/-- Blocks that edges from a block lead to. -/
def successors (graph : Graph) (index : Nat) : List Nat :=
  ((graph.block? index).map Block.successors).getD []

/-- Blocks with an edge to a block, in ascending order. -/
def predecessors (graph : Graph) (index : Nat) : List Nat :=
  (graph.blocks.filter fun block => block.successors.contains index).map Block.index

/-- Every edge with the block it comes from. -/
def edges (graph : Graph) : List (Nat × Edge) :=
  graph.blocks.flatMap fun block => block.edges.map fun edge => (block.index, edge)

/-- Blocks that no edge leads from to another block. -/
def exitBlocks (graph : Graph) : List Nat :=
  (graph.blocks.filter fun block => block.successors.isEmpty).map Block.index

/-- The block whose offsets span `offset`. Blocks stand in the order of their offsets, so that it is the
    last block that starts at or before the offset. -/
def blockOfOffset? (graph : Graph) (offset : Nat) : Option Nat :=
  match partitionPoint (fun block => block.startOffset ≤ offset) graph.blocks with
  | 0 => none
  | position + 1 =>
    ((graph.block? position).filter fun block => offset ≤ block.endOffset).map Block.index

/-- Blocks that some path of edges leads to from the entry, in ascending order. -/
def reachable (graph : Graph) : List Nat :=
  let visited := explore graph.successors graph.size [0] []
  (List.range graph.size).filter visited.contains

end Graph

end PatchPresence
