import PatchPresence.Catalog
import PatchPresence.CommandLine.Run
import PatchPresence.Main
import PatchPresence.Proofs.Flow.Build
import PatchPresence.Proofs.Search
import PatchPresence.Proofs.Flow.Path
import PatchPresence.Proofs.Collections
import PatchPresence.Proofs.Flow.Dominance
import PatchPresence.Proofs.Flow.Simulation
import PatchPresence.Proofs.Flow.WellFormed
import PatchPresence.Proofs.Flow.Partition
import PatchPresence.Proofs.Flow.Exceptions
import PatchPresence.Proofs.Flow.Detour
import PatchPresence.Proofs.Flow.Live
import PatchPresence.Proofs.Flow.LoopNest
import PatchPresence.Proofs.Operand.Join
import PatchPresence.Proofs.Operand.Invariant
import PatchPresence.Proofs.Folding.Runtime
import PatchPresence.Proofs.Folding.Execution
import PatchPresence.Proofs.Source.Forest
import PatchPresence.Proofs.Folding.Written
import PatchPresence.Proofs.Folding.Audit
import PatchPresence.Proofs.Folding.Agreement
import PatchPresence.Proofs.Folding.Control
import PatchPresence.Proofs.Folding.Soundness
import PatchPresence.Proofs.Folding.Faithful
import PatchPresence.Proofs.Layout.Relocation
import PatchPresence.Proofs.Layout.Analysis
import PatchPresence.Proofs.Layout.Features
import PatchPresence.Proofs.Diff.Blocks
import PatchPresence.Proofs.Text.Cut
import PatchPresence.Proofs.Diff.Rendering
import PatchPresence.Proofs.Diff.RoundTrip
import PatchPresence.Proofs.Source.Links
import PatchPresence.Proofs.Source.Navigation
import PatchPresence.Proofs.Source.Rearrangement
import PatchPresence.Proofs.Source.Nesting
import PatchPresence.Proofs.KeyOrder
import PatchPresence.Proofs.Folding.Values
import PatchPresence.Proofs.Folding.Fields
import PatchPresence.Proofs.Folding.Visited
import PatchPresence.Proofs.Folding.Forgotten
import PatchPresence.Proofs.Folding.Loops
import PatchPresence.Proofs.Source.Rekinding
import PatchPresence.Proofs.Folding.Rekinding
import PatchPresence.Proofs.Folding.Cases
import PatchPresence.Proofs.Folding.Assignments
import PatchPresence.Proofs.Folding.DeclaredTypes
import PatchPresence.Proofs.Folding.Governing
import PatchPresence.Proofs.Folding.Consistency
import PatchPresence.Proofs.Folding.Integers
import PatchPresence.Proofs.Float.Order
import PatchPresence.Proofs.Patch.Symmetry
import PatchPresence.Proofs.Diff.Scan
import PatchPresence.Proofs.Diff.Accounting
import PatchPresence.Proofs.Diff.Headers
import PatchPresence.Proofs.Diff.Renumbering
import PatchPresence.Proofs.Diff.Independence
import PatchPresence.Proofs.Diff.Recovery
import PatchPresence.Proofs.Diff.Surplus
import PatchPresence.Proofs.Diff.Attribution
import PatchPresence.Proofs.Patch.Dependence
import PatchPresence.Proofs.Patch.Sides
import PatchPresence.Proofs.Flow.Convergence
import PatchPresence.Proofs.Flow.DominatorTree
import PatchPresence.Proofs.Flow.LoopDepth
import PatchPresence.Proofs.Operand.Findings
import PatchPresence.Proofs.Operand.Replay
import PatchPresence.Proofs.Operand.Locals
import PatchPresence.Proofs.Operand.Strictness
import PatchPresence.Proofs.Operand.Handlers
import PatchPresence.Proofs.Operand.Slots
import PatchPresence.Proofs.Tally
import PatchPresence.Proofs.Feature.Conservation
import PatchPresence.Proofs.Feature.LoopExits
import PatchPresence.Proofs.Float.Rounding
import PatchPresence.Proofs.Float.Quotient
import PatchPresence.Proofs.Patch.Evidence
import PatchPresence.Proofs.Float.Totals
import PatchPresence.Proofs.Patch.Unanimity
import PatchPresence.Proofs.Feature.Families
import PatchPresence.Proofs.Source.Scopes
import PatchPresence.Proofs.Source.Labels
import PatchPresence.Proofs.Source.Growth
import PatchPresence.Proofs.Operand.Lattice
import PatchPresence.Proofs.Descriptor
import PatchPresence.Proofs.CommandLine.Counts
