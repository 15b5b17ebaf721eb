/-
  PatchPresence.Flow.Dominance — which blocks every path from the entry passes through.

  Sets start as large as they can be and shrink in rounds: a block is dominated by itself and by what
  dominates all its predecessors. Blocks that the entry does not reach have no set.
-/
import PatchPresence.Data.Ascending
import PatchPresence.Error
import PatchPresence.Flow.Graph

namespace PatchPresence

/-- Dominator set of each block by index; none for a block that the entry does not reach. -/
abbrev DominatorSets := List (Option (List Nat))

namespace DominatorSets

/-- The set of a block. -/
def of? (sets : DominatorSets) (block : Nat) : Option (List Nat) := (sets[block]?).join

/-! ## §1. Rounds. -/

/-- The sets to start with: the entry is dominated by itself alone, and every other block that can be
    reached by all of these. -/
def initial (graph : Graph) : DominatorSets :=
  let reachable := graph.reachable
  (List.range graph.size).map fun block =>
    if block = 0 then some [0] else if reachable.contains block then some reachable else none

/-- What dominates every predecessor that has a set; nothing when none has. -/
def meet (sets : DominatorSets) (predecessors : List Nat) : List Nat :=
  match predecessors.filterMap sets.of? with
  | [] => []
  | first :: others => others.foldl (fun acc set => acc.filter set.contains) first

/-- Brings the set of one block up to date. -/
def update (graph : Graph) (sets : DominatorSets) (block : Nat) : DominatorSets :=
  sets.set block (some (Ascending.insert block (sets.meet (graph.predecessors block))))

/-- Brings the set of every block behind the entry up to date, in ascending order. -/
def round (graph : Graph) (sets : DominatorSets) : DominatorSets :=
  (graph.reachable.filter (· != 0)).foldl (update graph) sets

/-- Repeats rounds until one changes nothing; gives up when `cap` rounds are used. -/
def iterate (graph : Graph) : Nat → DominatorSets → Option DominatorSets
  | 0, _ => none
  | cap + 1, sets =>
    let next := sets.round graph
    if next = sets then some sets else iterate graph cap next

/-! ## §2. The dominator tree. -/

/-- The closest of the blocks that dominate a block strictly: the one with the largest set. -/
def immediate? (sets : DominatorSets) (block : Nat) : Option Nat := do
  let set ← sets.of? block
  Ascending.lastGreatest (fun other => ((sets.of? other).map List.length).getD 0)
    (set.filter (· != block))

/-- Immediate dominator of each block by index. -/
def immediate (sets : DominatorSets) : List (Option Nat) :=
  (List.range sets.length).map sets.immediate?

end DominatorSets

/-! ## §3. Dominance facts of a graph. -/

/-- Dominance facts of one graph. -/
structure Dominators where
  sets : DominatorSets
  /-- Immediate dominator of each block by index. -/
  immediate : List (Option Nat)
  /-- Reachable blocks in preorder of the dominator tree. -/
  preorder : List Nat
deriving DecidableEq, Repr

namespace Dominators

/-- Blocks whose immediate dominator is `block`, in ascending order. -/
def children (immediate : List (Option Nat)) (block : Nat) : List Nat :=
  (immediate.zipIdx.filter fun entry => entry.1 == some block).map Prod.snd

/-- Collects what the final sets say. -/
def ofSets (sets : DominatorSets) : Dominators where
  sets
  immediate := sets.immediate
  preorder := explore (children sets.immediate) sets.length [0] []

/-- Dominance facts of a graph; at most `cap` rounds. -/
def compute (graph : Graph) (cap : Nat) : Outcome Dominators :=
  if graph.size = 0 then
    .ok ⟨[], [], []⟩
  else
    match DominatorSets.iterate graph cap (.initial graph) with
    | some sets => .ok (ofSets sets)
    | none => .error (.noConvergence .dominators cap)

/-- Whether the entry reaches a block. -/
def isReachable (dominators : Dominators) (block : Nat) : Bool :=
  (dominators.sets.of? block).isSome

/-- The closest strict dominator of a block; none for the entry and for blocks that it does not reach. -/
def immediateOf? (dominators : Dominators) (block : Nat) : Option Nat :=
  (dominators.immediate[block]?).join

/-- Whether every path from the entry to `b` passes through `a`. -/
def dominates (dominators : Dominators) (a b : Nat) : Bool :=
  match dominators.sets.of? b with
  | some set => set.contains a
  | none => false

end Dominators

end PatchPresence
