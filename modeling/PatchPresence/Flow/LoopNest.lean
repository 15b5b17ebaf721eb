/-
  PatchPresence.Flow.LoopNest — natural loops and how they nest.

  A loop belongs to a header: a block with an edge from a block that it dominates. Its members are the
  header and all from which such a latch can be reached without passing the header.
-/
import PatchPresence.Flow.Dominance

namespace PatchPresence

/-- A natural loop. -/
structure NaturalLoop where
  header : Nat
  /-- Member blocks in ascending order, header included. -/
  members : List Nat
  /-- Sources of edges back to the header, in ascending order. -/
  latches : List Nat
  /-- Nesting depth, 1 for an outermost loop. -/
  depth : Nat
  /-- Position of the smallest loop around this one. -/
  parent : Option Nat
deriving DecidableEq, Repr

/-- Whether a block belongs to the loop. -/
def NaturalLoop.contains (loop : NaturalLoop) (block : Nat) : Bool := loop.members.contains block

namespace LoopNest

/-! ## §1. Single loops. -/

/-- Reachable blocks with an edge to a header that dominates them. -/
def latches (graph : Graph) (dominators : Dominators) (header : Nat) : List Nat :=
  (graph.predecessors header).filter (dominators.dominates header)

/-- The header with all blocks that reach a latch without passing it. -/
def members (graph : Graph) (dominators : Dominators) (header : Nat) : List Nat :=
  let backwards := fun block => (graph.predecessors block).filter dominators.isReachable
  let visited := explore backwards graph.size (latches graph dominators header) [header]
  (List.range graph.size).filter visited.contains

/-- Loops by ascending header, not yet nested. -/
def separate (graph : Graph) (dominators : Dominators) : List NaturalLoop :=
  (List.range graph.size).filterMap fun header =>
    let sources := latches graph dominators header
    if sources.isEmpty then
      none
    else
      some { header, members := members graph dominators header, latches := sources,
             depth := 1, parent := none }

/-! ## §2. Nesting. -/

/-- Position of the smallest loop that holds more than `loop` and all of it. -/
def parent? (loops : List NaturalLoop) (loop : NaturalLoop) : Option Nat :=
  (Ascending.firstLeast (fun a b => a.2.members.length ≤ b.2.members.length)
    (loops.zipIdx.map Prod.swap |>.filter fun other =>
      loop.members.length < other.2.members.length
        && Ascending.subset loop.members other.2.members)).map Prod.fst

/-- Length of a chain of parents, followed for at most `fuel` steps. -/
def chainLength (parents : List (Option Nat)) : Nat → Option Nat → Nat
  | 0, _ => 0
  | _, none => 0
  | fuel + 1, some loop => chainLength parents fuel (parents[loop]?).join + 1

/-- Adds parent links and depths. A parent has more members, so no chain is longer than the list. -/
def nest (loops : List NaturalLoop) : List NaturalLoop :=
  let parents := loops.map (parent? loops)
  loops.zipWith (fun loop parent =>
    { loop with parent, depth := chainLength parents loops.length parent + 1 }) parents

/-- Natural loops of a graph by ascending header. -/
def find (graph : Graph) (dominators : Dominators) : List NaturalLoop :=
  nest (separate graph dominators)

/-- Position of the deepest loop that a block belongs to. -/
def innermost? (loops : List NaturalLoop) (block : Nat) : Option Nat :=
  (Ascending.lastGreatest (fun other => other.2.depth)
    (loops.zipIdx.map Prod.swap |>.filter fun other => other.2.contains block)).map Prod.fst

end LoopNest

end PatchPresence
