/-
  PatchPresence.Proofs.Flow.LoopNest — computed loops are the natural loops, and they nest.

  The backward search from all latches of a header stops at the header and at blocks that the entry does
  not reach. Every block on a path from a reachable block is reachable, so the second restriction takes
  nothing away, and what the search visits is what can reach a latch around the header.

  Main results:
    * `LoopNest.find_natural` — the loops that are found are the natural loops, one for each header.
    * `LoopNest.find_nested` — two loops that are found are disjoint, or one lies strictly in the other.
-/
import PatchPresence.Flow.LoopNest
import PatchPresence.Proofs.Flow.Detour

namespace PatchPresence

variable {instructions : List Instruction} {handlers : List ExceptionHandler} {graph : Graph}
  {cap : Nat} {dominators : Dominators} {header block : Nat}

/-! ## §1. Dominance facts in terms of paths. -/

namespace Dominators

/-- Dominance facts that say of a graph what holds over all its paths. -/
structure Describes (dominators : Dominators) (graph : Graph) : Prop where
  reachable : ∀ b, dominators.isReachable b = true ↔ graph.Reaches b
  dominated : ∀ a b, dominators.dominates a b = true ↔ graph.Reaches b ∧ graph.OnEveryPath a b

theorem describes_of_compute (hb : graph.Built instructions handlers)
    (hcompute : compute graph cap = .ok dominators) : dominators.Describes graph := by
  obtain ⟨hshaped, hcovers, hfix⟩ := sets_spec hb hcompute
  have hreachable : ∀ b, dominators.isReachable b = true ↔ graph.Reaches b :=
    fun b => (hshaped.known b).trans hb.mem_reachable_iff
  refine ⟨hreachable, fun a b => ?_⟩
  rw [← hreachable b]
  unfold dominates isReachable
  cases hset : dominators.sets.of? b with
  | none => simp
  | some set =>
    simp only [List.contains_iff_mem, Option.isSome_some, true_and]
    exact ⟨DominatorSets.onEveryPath_of_mem hb hshaped hfix hset, hcovers b set hset a⟩

end Dominators

namespace LoopNest

/-! ## §2. Single loops. -/

theorem mem_latches_iff (hb : graph.Built instructions handlers)
    (hd : dominators.Describes graph) :
    block ∈ latches graph dominators header ↔ graph.IsLatch header block := by
  unfold latches
  rw [List.mem_filter, hb.mem_predecessors_iff, hd.dominated]
  exact ⟨fun h => ⟨h.2.1, h.1, h.2.2⟩, fun h => ⟨h.edge, h.reaches, h.dominated⟩⟩

/-- Reachable predecessors of a block. -/
def backwards (graph : Graph) (dominators : Dominators) (block : Nat) : List Nat :=
  (graph.predecessors block).filter dominators.isReachable

theorem mem_backwards_iff (hb : graph.Built instructions handlers)
    (hd : dominators.Describes graph) {source : Nat} :
    source ∈ backwards graph dominators block ↔ graph.HasEdge source block ∧ graph.Reaches source := by
  unfold backwards
  rw [List.mem_filter, hb.mem_predecessors_iff, hd.reachable]

/-- What the backward search visits reaches a latch around the header. -/
theorem inLoop_of_reached (hb : graph.Built instructions handlers) (hd : dominators.Describes graph)
    (h : Reached (backwards graph dominators) graph.size [header]
      (latches graph dominators header) block) : graph.InLoop header block := by
  have hpath : graph.Reaches block
      ∧ ∃ latch, graph.IsLatch header latch ∧ graph.PathAround header block latch := by
    induction h with
    | @seed node hwork _ hnew =>
      have hlatch := (mem_latches_iff hb hd).1 hwork
      have hne : header ≠ node := by simpa [eq_comm] using hnew
      exact ⟨hlatch.reaches, node, hlatch, .refl hne⟩
    | @edge later earlier _ hnext _ hnew ih =>
      obtain ⟨-, latch, hlatch, hpath⟩ := ih
      obtain ⟨hedge, hreaches⟩ := (mem_backwards_iff hb hd).1 hnext
      have hne : header ≠ earlier := by simpa [eq_comm] using hnew
      exact ⟨hreaches, latch, hlatch, (Graph.PathAround.refl hne).step hedge hpath⟩
  exact .inr hpath

/-- The backward search follows a path around the header from its end to its start. -/
theorem reached_of_path (hb : graph.Built instructions handlers) (hd : dominators.Describes graph)
    {source target : Nat} {route : List Nat} {work : List Nat} (hsource : graph.Reaches source)
    (hroute : graph.Path source target route) (hnot : header ∉ route)
    (htarget : Reached (backwards graph dominators) graph.size [header] work target) :
    Reached (backwards graph dominators) graph.size [header] work source := by
  induction hroute with
  | start => exact htarget
  | @extend b c route hpath hedge ih =>
    have hreaches := hsource.append hpath
    have hrouteNot : header ∉ route := fun hmem => hnot (List.mem_cons_of_mem _ hmem)
    have hnew : b ∉ [header] := fun hmem =>
      hrouteNot ((List.mem_singleton.1 hmem) ▸ hpath.target_mem)
    have hlt := DominatorSets.lt_size_of_mem_reachable (hb.mem_reachable_iff.2 hreaches)
    exact ih hrouteNot (.edge htarget ((mem_backwards_iff hb hd).2 ⟨hedge, hreaches⟩) hlt hnew)

theorem mem_members_iff (hb : graph.Built instructions handlers) (hd : dominators.Describes graph)
    (hheader : header < graph.size) :
    block ∈ members graph dominators header ↔ graph.InLoop header block := by
  show block ∈ (List.range graph.size).filter
    (explore (backwards graph dominators) graph.size (latches graph dominators header) [header]).contains
      ↔ _
  rw [List.mem_filter, List.mem_range, List.contains_iff_mem, mem_explore_iff, List.mem_singleton]
  constructor
  · rintro ⟨-, rfl | hreached⟩
    · exact .inl rfl
    · exact inLoop_of_reached hb hd hreached
  · rintro (rfl | ⟨hreaches, latch, hlatch, route, hroute, hnot⟩)
    · exact ⟨hheader, .inl rfl⟩
    · have hlatchNe : latch ∉ [header] := fun hmem =>
        hnot ((List.mem_singleton.1 hmem) ▸ hroute.target_mem)
      have hlatchLt := DominatorSets.lt_size_of_mem_reachable (hb.mem_reachable_iff.2 hlatch.reaches)
      have hreached := reached_of_path hb hd hreaches hroute hnot
        (.seed ((mem_latches_iff hb hd).2 hlatch) hlatchLt hlatchNe)
      exact ⟨hreached.lt, .inr hreached⟩

/-! ## §3. All loops. -/

/-- A loop with its place among others. -/
def placed (loops : List NaturalLoop) (loop : NaturalLoop) : NaturalLoop :=
  { loop with
    parent := parent? loops loop
    depth := chainLength (loops.map (parent? loops)) loops.length (parent? loops loop) + 1 }

theorem nest_eq_map (loops : List NaturalLoop) : nest loops = loops.map (placed loops) := by
  unfold nest
  rw [List.zipWith_map_right, List.zipWith_self]
  rfl

/-- The loop of a header before it is placed. -/
def bare (graph : Graph) (dominators : Dominators) (header : Nat) : NaturalLoop where
  header
  members := members graph dominators header
  latches := latches graph dominators header
  depth := 1
  parent := none

theorem mem_separate_iff {loop : NaturalLoop} :
    loop ∈ separate graph dominators ↔ ∃ header, header < graph.size
      ∧ latches graph dominators header ≠ [] ∧ bare graph dominators header = loop := by
  unfold separate
  rw [List.mem_filterMap]
  simp only [List.mem_range, Option.ite_none_left_eq_some, List.isEmpty_iff, Option.some.injEq]
  rfl

/-- What is found is the loop of a header that has latches. -/
theorem of_mem_find {loop : NaturalLoop} (h : loop ∈ find graph dominators) :
    loop.header < graph.size ∧ loop.latches = latches graph dominators loop.header
      ∧ loop.members = members graph dominators loop.header ∧ loop.latches ≠ [] := by
  unfold find at h
  rw [nest_eq_map] at h
  obtain ⟨separated, hseparated, rfl⟩ := List.mem_map.1 h
  obtain ⟨header, hheader, hlatches, rfl⟩ := mem_separate_iff.1 hseparated
  exact ⟨hheader, rfl, rfl, hlatches⟩

/-- A header with a latch has its loop. -/
theorem exists_mem_find (hheader : header < graph.size)
    (hlatch : block ∈ latches graph dominators header) :
    ∃ loop ∈ find graph dominators, loop.header = header := by
  have hseparated : bare graph dominators header ∈ separate graph dominators :=
    mem_separate_iff.2 ⟨header, hheader, List.ne_nil_of_mem hlatch, rfl⟩
  unfold find
  rw [nest_eq_map]
  exact ⟨_, List.mem_map_of_mem hseparated, rfl⟩

theorem pairwise_header_find (graph : Graph) (dominators : Dominators) :
    (find graph dominators).Pairwise fun a b => a.header < b.header := by
  unfold find
  rw [nest_eq_map, List.pairwise_map]
  show (separate graph dominators).Pairwise fun a b => a.header < b.header
  unfold separate
  rw [List.pairwise_filterMap]
  refine List.pairwise_lt_range.imp fun {first second} hlt a ha b hb => ?_
  simp only [Option.ite_none_left_eq_some, Option.some.injEq] at ha hb
  rw [← ha.2, ← hb.2]
  exact hlt

/-- A loop that is found is the natural loop of its header. -/
structure IsNatural (graph : Graph) (loop : NaturalLoop) : Prop where
  latches : ∀ b, b ∈ loop.latches ↔ graph.IsLatch loop.header b
  members : ∀ b, b ∈ loop.members ↔ graph.InLoop loop.header b
  nonempty : ∃ latch, graph.IsLatch loop.header latch

theorem isNatural_of_mem_find (hb : graph.Built instructions handlers)
    (hd : dominators.Describes graph) {loop : NaturalLoop} (h : loop ∈ find graph dominators) :
    IsNatural graph loop := by
  obtain ⟨hheader, hlatches, hmembers, hne⟩ := of_mem_find h
  have hmem : ∀ b, b ∈ loop.latches ↔ graph.IsLatch loop.header b := by
    intro b
    rw [hlatches, mem_latches_iff hb hd]
  refine ⟨hmem, fun b => by rw [hmembers, mem_members_iff hb hd hheader], ?_⟩
  obtain ⟨latch, hlatch⟩ := List.exists_mem_of_ne_nil _ hne
  exact ⟨latch, (hmem latch).1 hlatch⟩

/-- **The loops that are found are the natural loops.** They stand by ascending header, one for each block
    with an edge from a reachable block that it dominates. Latches are the sources of these edges, members
    the header and the reachable blocks that reach a latch around it, and the header dominates them. -/
theorem find_natural (hbuild : Graph.build instructions handlers = .ok graph)
    (hcompute : Dominators.compute graph cap = .ok dominators) :
    (find graph dominators).Pairwise (fun a b => a.header < b.header)
      ∧ (∀ header, (∃ loop ∈ find graph dominators, loop.header = header)
          ↔ ∃ latch, graph.IsLatch header latch)
      ∧ ∀ loop ∈ find graph dominators,
          (∀ b, b ∈ loop.latches ↔ graph.IsLatch loop.header b)
            ∧ (∀ b, b ∈ loop.members ↔ graph.InLoop loop.header b)
            ∧ ∀ b ∈ loop.members, dominators.dominates loop.header b = true := by
  have hb := Graph.built_of_build hbuild
  have hd := Dominators.describes_of_compute hb hcompute
  refine ⟨pairwise_header_find graph dominators, fun header => ⟨?_, ?_⟩, fun loop hloop => ?_⟩
  · rintro ⟨loop, hloop, rfl⟩
    exact (isNatural_of_mem_find hb hd hloop).nonempty
  · rintro ⟨latch, hlatch⟩
    have hheader := DominatorSets.lt_size_of_mem_reachable
      (hb.mem_reachable_iff.2 hlatch.reaches_header)
    exact exists_mem_find hheader ((mem_latches_iff hb hd).2 hlatch)
  · have hnatural := isNatural_of_mem_find hb hd hloop
    obtain ⟨latch, hlatch⟩ := hnatural.nonempty
    refine ⟨hnatural.latches, hnatural.members, fun b hmember => ?_⟩
    have hin := (hnatural.members b).1 hmember
    exact (hd.dominated loop.header b).2 ⟨hin.reaches hlatch.reaches_header, hin.onEveryPath⟩

/-- A loop inside another: control goes back from offset 9 to 5, and from 12 to 1. -/
def loopInLoop : List Instruction :=
  [⟨0, 0x00, .none, none⟩, ⟨1, 0x1a, .none, none⟩, ⟨2, 0x99, .branch 20, none⟩, ⟨5, 0x1b, .none, none⟩,
    ⟨6, 0x99, .branch 12, none⟩, ⟨9, 0xa7, .branch 5, none⟩, ⟨12, 0xa7, .branch 1, none⟩,
    ⟨20, 0xb1, .none, none⟩]

/-- The flow graph of `loopInLoop`. -/
def nestedGraph : Graph := ⟨[
  ⟨0, ⟨0, 0x00, .none, none⟩, [], [⟨.block 1, .fallThrough⟩]⟩,
  ⟨1, ⟨1, 0x1a, .none, none⟩, [⟨2, 0x99, .branch 20, none⟩],
    [⟨.block 5, .conditionalTrue⟩, ⟨.block 2, .conditionalFalse⟩]⟩,
  ⟨2, ⟨5, 0x1b, .none, none⟩, [⟨6, 0x99, .branch 12, none⟩],
    [⟨.block 4, .conditionalTrue⟩, ⟨.block 3, .conditionalFalse⟩]⟩,
  ⟨3, ⟨9, 0xa7, .branch 5, none⟩, [], [⟨.block 2, .jump⟩]⟩,
  ⟨4, ⟨12, 0xa7, .branch 1, none⟩, [], [⟨.block 1, .jump⟩]⟩,
  ⟨5, ⟨20, 0xb1, .none, none⟩, [], [⟨.exit, .leave⟩]⟩]⟩

/-- Dominator sets of `nestedGraph`. -/
def nestedSets : DominatorSets :=
  [some [0], some [0, 1], some [0, 1, 2], some [0, 1, 2, 3], some [0, 1, 2, 4], some [0, 1, 5]]

theorem build_loopInLoop : Graph.build loopInLoop [] = .ok nestedGraph := by rfl

theorem compute_nestedGraph : Dominators.compute nestedGraph 4 = .ok (.ofSets nestedSets) := by
  have hreachable : nestedGraph.reachable = [0, 1, 2, 3, 4, 5] := by cbv
  have hsets : DominatorSets.iterate nestedGraph 4 (.initial nestedGraph) = some nestedSets := by
    simp only [DominatorSets.iterate, DominatorSets.round, DominatorSets.initial, hreachable]
    decide +kernel
  rw [Dominators.compute, if_neg (by decide), hsets]

/-- In `nestedGraph` the edges from 4 to 1 and from 3 to 2 go back. -/
theorem isLatch_nestedGraph : nestedGraph.IsLatch 1 4 ∧ nestedGraph.IsLatch 2 3 := by
  have hd := Dominators.describes_of_compute (Graph.built_of_build build_loopInLoop) compute_nestedGraph
  obtain ⟨hreaches, hdominated⟩ := (hd.dominated 1 4).1 (by decide)
  obtain ⟨hreachesInner, hdominatedInner⟩ := (hd.dominated 2 3).1 (by decide)
  exact ⟨⟨hreaches, ⟨⟨.block 1, .jump⟩, by decide, rfl⟩, hdominated⟩,
    ⟨hreachesInner, ⟨⟨.block 2, .jump⟩, by decide, rfl⟩, hdominatedInner⟩⟩

/-- The inner loop of `loopInLoop` has its latch for a member, and not the header of the outer loop. -/
theorem find_natural_loopInLoop :
    Graph.build loopInLoop [] = .ok nestedGraph
      ∧ Dominators.compute nestedGraph 4 = .ok (.ofSets nestedSets)
      ∧ ∃ loop ∈ find nestedGraph (.ofSets nestedSets),
          loop.header = 2 ∧ 3 ∈ loop.latches ∧ 3 ∈ loop.members ∧ 1 ∉ loop.members := by
  obtain ⟨-, hheaders, hloops⟩ := find_natural build_loopInLoop compute_nestedGraph
  have hlatch := isLatch_nestedGraph.2
  obtain ⟨loop, hloop, hheader⟩ := (hheaders 2).2 ⟨3, hlatch⟩
  obtain ⟨hlatches, hmembers, hdominated⟩ := hloops loop hloop
  rw [hheader] at hlatches hmembers hdominated
  refine ⟨build_loopInLoop, compute_nestedGraph, loop, hloop, hheader, (hlatches 3).2 hlatch,
    (hmembers 3).2 (.inr ⟨hlatch.reaches, 3, hlatch, .refl (by decide)⟩), fun hmem => ?_⟩
  exact absurd (hdominated 1 hmem) (by decide)

/-! ## §4. Nesting. -/

/-- No block belongs to both loops. -/
def Apart (a b : NaturalLoop) : Prop := ∀ block ∈ a.members, block ∉ b.members

/-- One loop lies in another that has more members. -/
def Inside (inner outer : NaturalLoop) : Prop :=
  (∀ block ∈ inner.members, block ∈ outer.members) ∧ ∃ block ∈ outer.members, block ∉ inner.members

/-- Of two natural loops that meet, the one whose header comes later lies in the other. -/
theorem inside_of_onEveryPath {inner outer : NaturalLoop} (hinner : IsNatural graph inner)
    (houter : IsNatural graph outer) (hne : outer.header ≠ inner.header)
    (hdom : graph.OnEveryPath outer.header inner.header) (hblock : block ∈ outer.members)
    (hblockInner : block ∈ inner.members) : Inside inner outer := by
  obtain ⟨innerLatch, hinnerLatch⟩ := hinner.nonempty
  obtain ⟨outerLatch, houterLatch⟩ := houter.nonempty
  rw [houter.members] at hblock
  rw [hinner.members] at hblockInner
  constructor
  · intro other hother
    rw [hinner.members] at hother
    exact (houter.members other).2 (Graph.inLoop_of_inLoop houterLatch.reaches_header hne hdom
      hinnerLatch.reaches_header hblock hblockInner hother)
  · refine ⟨outer.header, (houter.members _).2 (.inl rfl), fun hmem => ?_⟩
    exact Graph.not_inLoop_header houterLatch.reaches_header hne hdom ((hinner.members _).1 hmem)

/-- Two natural loops with different headers are apart, or one lies in the other. -/
theorem apart_or_inside {a b : NaturalLoop} (ha : IsNatural graph a) (hb : IsNatural graph b)
    (hne : a.header ≠ b.header) : Apart a b ∨ Inside a b ∨ Inside b a := by
  by_cases hmeet : ∃ block, block ∈ a.members ∧ block ∈ b.members
  · obtain ⟨block, hblockA, hblockB⟩ := hmeet
    obtain ⟨latch, hlatch⟩ := ha.nonempty
    have hinA := (ha.members block).1 hblockA
    have hinB := (hb.members block).1 hblockB
    have hreaches := hinA.reaches hlatch.reaches_header
    -- both headers are on every path to the common member, so one is on every path to the other
    rcases Graph.OnEveryPath.total hreaches hinA.onEveryPath hinB.onEveryPath hne with hdom | hdom
    · exact .inr (.inr (inside_of_onEveryPath hb ha hne hdom hblockA hblockB))
    · exact .inr (.inl (inside_of_onEveryPath ha hb (Ne.symm hne) hdom hblockB hblockA))
  · exact .inl fun block hblockA hblockB => hmeet ⟨block, hblockA, hblockB⟩

/-- Loops that are apart or strictly inside one another do not have the same members. -/
theorem members_ne {a b : NaturalLoop} (ha : IsNatural graph a)
    (h : Apart a b ∨ Inside a b ∨ Inside b a) : ¬ ∀ block, block ∈ a.members ↔ block ∈ b.members := by
  intro hsame
  rcases h with hapart | ⟨-, block, hblock, hnot⟩ | ⟨-, block, hblock, hnot⟩
  · have hheader : a.header ∈ a.members := (ha.members _).2 (.inl rfl)
    exact hapart a.header hheader ((hsame a.header).1 hheader)
  · exact hnot ((hsame block).2 hblock)
  · exact hnot ((hsame block).1 hblock)

/-- **Loops nest.** Of two loops that are found, either no block belongs to both, or one lies strictly in
    the other; they never have the same members. -/
theorem find_nested (hbuild : Graph.build instructions handlers = .ok graph)
    (hcompute : Dominators.compute graph cap = .ok dominators) :
    (find graph dominators).Pairwise fun a b =>
      (Apart a b ∨ Inside a b ∨ Inside b a)
        ∧ ¬ ∀ block, block ∈ a.members ↔ block ∈ b.members := by
  have hb := Graph.built_of_build hbuild
  have hd := Dominators.describes_of_compute hb hcompute
  refine (pairwise_header_find graph dominators).imp_of_mem fun {a b} ha hb' hlt => ?_
  have haNatural := isNatural_of_mem_find hb hd ha
  have hbNatural := isNatural_of_mem_find hb hd hb'
  have hnested := apart_or_inside haNatural hbNatural (Nat.ne_of_lt hlt)
  exact ⟨hnested, members_ne haNatural hnested⟩

/-- The two loops of `loopInLoop`, by header 1 and by header 2, nest. -/
theorem find_nested_loopInLoop :
    Graph.build loopInLoop [] = .ok nestedGraph
      ∧ Dominators.compute nestedGraph 4 = .ok (.ofSets nestedSets)
      ∧ (∃ loop ∈ find nestedGraph (.ofSets nestedSets), loop.header = 1)
      ∧ (∃ loop ∈ find nestedGraph (.ofSets nestedSets), loop.header = 2)
      ∧ (find nestedGraph (.ofSets nestedSets)).Pairwise fun a b =>
          (Apart a b ∨ Inside a b ∨ Inside b a)
            ∧ ¬ ∀ block, block ∈ a.members ↔ block ∈ b.members := by
  have hb := Graph.built_of_build build_loopInLoop
  have hd := Dominators.describes_of_compute hb compute_nestedGraph
  obtain ⟨houter, hinner⟩ := isLatch_nestedGraph
  exact ⟨build_loopInLoop, compute_nestedGraph,
    exists_mem_find (by decide) ((mem_latches_iff hb hd).2 houter),
    exists_mem_find (by decide) ((mem_latches_iff hb hd).2 hinner),
    find_nested build_loopInLoop compute_nestedGraph⟩

end LoopNest

end PatchPresence
