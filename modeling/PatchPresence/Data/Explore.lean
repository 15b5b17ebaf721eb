/-
  PatchPresence.Data.Explore — depth-first exploration of a finite graph.

  Nodes are the numbers below a bound. `explore` is the one search of the library: it gives the
  reachable blocks of a flow graph, the members of a natural loop, the preorder of a dominator tree
  and the nodes below a node of a syntax tree.
-/
namespace PatchPresence

/-- Number of nodes below `bound` that are not in `seen`. -/
def unseenCount (bound : Nat) (seen : List Nat) : Nat :=
  ((List.range bound).filter fun node => !seen.contains node).length

/-- Visiting an unseen node below the bound leaves fewer unseen nodes. -/
theorem unseenCount_snoc_lt {bound node : Nat} {seen : List Nat} (hlt : node < bound)
    (hnew : seen.contains node = false) :
    unseenCount bound (seen ++ [node]) < unseenCount bound seen := by
  unfold unseenCount
  have hsub : ((List.range bound).filter fun other => !(seen ++ [node]).contains other)
      = ((List.range bound).filter fun other => !seen.contains other).filter (· != node) := by
    rw [List.filter_filter]
    apply List.filter_congr
    intro other _
    by_cases h : other = node <;> simp [h]
  rw [hsub]
  apply List.length_filter_lt_length_iff_exists.2
  exact ⟨node, by simpa [hlt] using hnew, by simp⟩

/-- Visits the nodes on the stack `work` and all that `next` leads to, depth first. The result is
    `seen` followed by the new nodes in the order of their visit; a node is visited once, and one at
    or above `bound` is passed over. -/
def explore (next : Nat → List Nat) (bound : Nat) (work seen : List Nat) : List Nat :=
  match work with
  | [] => seen
  | node :: rest =>
    if _h : node < bound ∧ seen.contains node = false then
      explore next bound (next node ++ rest) (seen ++ [node])
    else
      explore next bound rest seen
termination_by (unseenCount bound seen, work.length)
decreasing_by
  · exact Prod.Lex.left _ _ (unseenCount_snoc_lt _h.1 _h.2)
  · exact Prod.Lex.right _ (by simp)

end PatchPresence
