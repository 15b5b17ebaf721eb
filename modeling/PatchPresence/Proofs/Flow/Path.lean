/-
  PatchPresence.Proofs.Flow.Path — paths of edges in a flow graph, and the blocks they lead to.

  Edges of every kind count. A path carries its route, the list of all blocks on it, so that "passes
  through" is membership.

  Main result:
    * `Graph.Built.mem_reachable_iff` — the reachable blocks of a built graph are those that a path from
      the entry leads to.
-/
import PatchPresence.Proofs.Flow.Build
import PatchPresence.Proofs.Search

namespace PatchPresence

namespace Graph

/-! ## §1. Edges and paths. -/

/-- Some edge leads from one block to another. -/
def HasEdge (graph : Graph) (a b : Nat) : Prop :=
  ∃ edge, (a, edge) ∈ graph.edges ∧ edge.target = .block b

/-- `graph.Path source b route`: edges lead from `source` to `b` along the blocks of `route`, which lists
    them with the last first. -/
inductive Path (graph : Graph) (source : Nat) : Nat → List Nat → Prop
  | start : Path graph source source [source]
  | extend {b c : Nat} {route : List Nat} (hpath : Path graph source b route)
      (hedge : graph.HasEdge b c) : Path graph source c (c :: route)

/-- Some path leads to every block on a path. -/
theorem Path.exists_of_mem {graph : Graph} {source a b : Nat} {route : List Nat}
    (h : graph.Path source b route) (ha : a ∈ route) : ∃ shorter, graph.Path source a shorter := by
  induction h with
  | start =>
    rw [List.mem_singleton] at ha
    exact ⟨[source], ha ▸ .start⟩
  | extend hpath hedge ih =>
    rcases List.mem_cons.1 ha with rfl | ha
    · exact ⟨_, .extend hpath hedge⟩
    · exact ih ha

/-! ## §2. Built graphs. -/

variable {instructions : List Instruction} {handlers : List ExceptionHandler} {graph : Graph}

theorem edge_block?_eq_some_iff {edge : Edge} {target : Nat} :
    edge.block? = some target ↔ edge.target = .block target := by
  unfold Edge.block?
  cases edge.target <;> simp

namespace Built

theorem mem_blocks_iff (hb : Built instructions handlers graph) {block : Block} :
    block ∈ graph.blocks ↔ graph.block? block.index = some block := by
  constructor
  · intro hmem
    obtain ⟨i, hi⟩ := List.mem_iff_getElem?.1 hmem
    rw [hb.index_eq (i := i) hi]
    exact hi
  · intro hblock
    exact List.mem_of_getElem? hblock

theorem hasEdge_iff (hb : Built instructions handlers graph) {a b : Nat} :
    graph.HasEdge a b ↔ b ∈ graph.successors a := by
  unfold HasEdge Graph.edges Graph.successors
  constructor
  · rintro ⟨edge, hedge, htarget⟩
    obtain ⟨block, hblock, hmem⟩ := List.mem_flatMap.1 hedge
    obtain ⟨other, hother, heq⟩ := List.mem_map.1 hmem
    obtain ⟨rfl, rfl⟩ := Prod.mk.inj heq
    rw [hb.mem_blocks_iff.1 hblock]
    exact List.mem_filterMap.2 ⟨other, hother, edge_block?_eq_some_iff.2 htarget⟩
  · intro h
    cases hblock : graph.block? a with
    | none => simp [hblock] at h
    | some block =>
      rw [hblock] at h
      obtain ⟨edge, hedge, htarget⟩ := List.mem_filterMap.1 h
      refine ⟨edge, List.mem_flatMap.2 ⟨block, List.mem_of_getElem? hblock, ?_⟩,
        edge_block?_eq_some_iff.1 htarget⟩
      exact List.mem_map.2 ⟨edge, hedge, by rw [hb.index_eq hblock]⟩

theorem mem_predecessors_iff (hb : Built instructions handlers graph) {a b : Nat} :
    a ∈ graph.predecessors b ↔ graph.HasEdge a b := by
  rw [hb.hasEdge_iff]
  unfold Graph.predecessors Graph.successors
  constructor
  · intro h
    obtain ⟨block, hblock, rfl⟩ := List.mem_map.1 h
    obtain ⟨hmem, hsucc⟩ := List.mem_filter.1 hblock
    rw [hb.mem_blocks_iff.1 hmem]
    simpa using hsucc
  · intro h
    cases hblock : graph.block? a with
    | none => simp [hblock] at h
    | some block =>
      rw [hblock] at h
      refine List.mem_map.2 ⟨block, List.mem_filter.2 ⟨List.mem_of_getElem? hblock, ?_⟩,
        hb.index_eq hblock⟩
      simpa using h

/-- The reachable blocks are those that a path from the entry leads to. -/
theorem mem_reachable_iff (hb : Built instructions handlers graph) {b : Nat} :
    b ∈ graph.reachable ↔ ∃ route, graph.Path 0 b route := by
  unfold Graph.reachable
  rw [List.mem_filter, List.mem_range, List.contains_iff_mem, mem_explore_iff]
  constructor
  · rintro ⟨-, hseen | hreached⟩
    · simp at hseen
    · induction hreached with
      | seed hwork _ _ =>
        rw [List.mem_singleton] at hwork
        exact ⟨[0], hwork ▸ .start⟩
      | edge _ hnext _ _ ih =>
        obtain ⟨route, hroute⟩ := ih
        exact ⟨_, .extend hroute (hb.hasEdge_iff.2 hnext)⟩
  · rintro ⟨route, hroute⟩
    have hreached : Reached graph.successors graph.size [] [0] b := by
      induction hroute with
      | start => exact .seed List.mem_cons_self hb.size_pos List.not_mem_nil
      | extend _ hedge ih =>
        have hnext := hb.hasEdge_iff.1 hedge
        exact .edge ih hnext (hb.lt_size_of_mem_successors hnext) List.not_mem_nil
    exact ⟨hreached.lt, .inr hreached⟩

end Built

end Graph

end PatchPresence
