/-
  PatchPresence.Proofs.Flow.Dominance — computed dominator sets against paths.

  The iteration starts from sets that are too large and shrinks them. Two invariants meet at the point
  where it stops: no round takes out a block that is on every path (`Covers`), and sets that no round
  changes hold only blocks that are on every path.

  Main results:
    * `DominatorSets.iterate_spec` — what a run that stops ends with.
    * `Dominators.dominates_iff_forall_path` — reachability and dominance as computed are reachability
      and dominance over all paths.
-/
import PatchPresence.Flow.Dominance
import PatchPresence.Proofs.Collections
import PatchPresence.Proofs.Flow.Path

namespace PatchPresence

/-- Every path from the entry to `b` passes through `a`. -/
def Graph.OnEveryPath (graph : Graph) (a b : Nat) : Prop :=
  ∀ route, graph.Path 0 b route → a ∈ route

namespace DominatorSets

/-! ## §1. One update. -/

/-- What dominates every predecessor with a set is in all of these sets. -/
theorem mem_meet_iff {sets : DominatorSets} {predecessors : List Nat} {a : Nat} :
    a ∈ sets.meet predecessors
      ↔ (∃ p ∈ predecessors, (sets.of? p).isSome)
        ∧ ∀ p ∈ predecessors, ∀ set, sets.of? p = some set → a ∈ set := by
  have hfold : ∀ (others : List (List Nat)) (acc : List Nat),
      a ∈ others.foldl (fun acc set => acc.filter set.contains) acc
        ↔ a ∈ acc ∧ ∀ set ∈ others, a ∈ set := by
    intro others
    induction others with
    | nil => simp
    | cons set others ih =>
      intro acc
      rw [List.foldl_cons, ih, List.forall_mem_cons, List.mem_filter, List.contains_iff_mem, and_assoc]
  have hknown : (∀ p ∈ predecessors, ∀ set, sets.of? p = some set → a ∈ set)
      ↔ ∀ set ∈ predecessors.filterMap sets.of?, a ∈ set := by
    simp only [List.mem_filterMap]
    constructor
    · rintro h set ⟨p, hp, hset⟩
      exact h p hp set hset
    · intro h p hp set hset
      exact h set ⟨p, hp, hset⟩
  rw [hknown]
  unfold meet
  cases hsets : predecessors.filterMap sets.of? with
  | nil =>
    rw [List.filterMap_eq_nil_iff] at hsets
    simp only [List.not_mem_nil, false_iff, not_and]
    rintro ⟨p, hp, hsome⟩
    rw [hsets p hp] at hsome
    cases hsome
  | cons first others =>
    have hfirst : first ∈ predecessors.filterMap sets.of? := hsets ▸ List.mem_cons_self
    obtain ⟨p, hp, hset⟩ := List.mem_filterMap.1 hfirst
    rw [hfold, List.forall_mem_cons]
    exact ⟨fun h => ⟨⟨p, hp, by rw [hset]; rfl⟩, h⟩, fun h => h.2⟩

theorem of?_set {sets : DominatorSets} {block other : Nat} {set : List Nat}
    (hlt : block < sets.length) :
    of? (sets.set block (some set)) other = if other = block then some set else sets.of? other := by
  unfold of?
  rw [List.getElem?_set]
  by_cases h : block = other
  · subst h
    simp [hlt]
  · rw [if_neg h, if_neg (Ne.symm h)]

/-! ## §2. Invariants of rounds. -/

/-- The sets belong to the reachable blocks, and the entry is dominated by itself alone. -/
structure Shaped (graph : Graph) (sets : DominatorSets) : Prop where
  length : sets.length = graph.size
  entry : sets.of? 0 = some [0]
  known : ∀ b, (sets.of? b).isSome ↔ b ∈ graph.reachable

/-- No set lacks a block that is on every path. -/
def Covers (graph : Graph) (sets : DominatorSets) : Prop :=
  ∀ b set, sets.of? b = some set → ∀ a, graph.OnEveryPath a b → a ∈ set

variable {instructions : List Instruction} {handlers : List ExceptionHandler} {graph : Graph}
  {sets : DominatorSets} {block : Nat}

theorem lt_size_of_mem_reachable (h : block ∈ graph.reachable) : block < graph.size := by
  unfold Graph.reachable at h
  exact List.mem_range.1 (List.mem_filter.1 h).1

theorem Shaped.of?_update (hs : Shaped graph sets) (hblock : block ∈ graph.reachable) (other : Nat) :
    (sets.update graph block).of? other
      = if other = block
        then some (Ascending.insert block (sets.meet (graph.predecessors block)))
        else sets.of? other :=
  of?_set (hs.length ▸ lt_size_of_mem_reachable hblock)

theorem shaped_update (hs : Shaped graph sets) (hblock : block ∈ graph.reachable) (hne : block ≠ 0) :
    Shaped graph (sets.update graph block) where
  length := by
    rw [← hs.length]
    exact List.length_set
  entry := by rw [hs.of?_update hblock, if_neg (Ne.symm hne), hs.entry]
  known b := by
    rw [hs.of?_update hblock]
    split
    · next heq => simp [heq, hblock]
    · exact hs.known b

/-- A block on every path to `b`, other than `b`, is on every path to a predecessor of `b`. -/
theorem onEveryPath_of_edge {a b p : Nat} (hdom : graph.OnEveryPath a b) (hne : a ≠ b)
    (hedge : graph.HasEdge p b) : graph.OnEveryPath a p := by
  intro route hroute
  have hmem := hdom (b :: route) (.extend hroute hedge)
  exact (List.mem_cons.1 hmem).resolve_left hne

theorem covers_update (hb : graph.Built instructions handlers) (hs : Shaped graph sets)
    (hc : Covers graph sets) (hblock : block ∈ graph.reachable) (hne : block ≠ 0) :
    Covers graph (sets.update graph block) := by
  intro b set hset a hdom
  rw [hs.of?_update hblock] at hset
  split at hset
  · next heq =>
    subst heq
    obtain rfl := Option.some.inj hset
    rw [Ascending.mem_insert]
    by_cases hab : a = b
    · exact .inl hab
    · refine .inr (mem_meet_iff.2 ⟨?_, ?_⟩)
      · -- the last edge of a path to the block comes from a predecessor that has a set
        obtain ⟨route, hroute⟩ := hb.mem_reachable_iff.1 hblock
        cases hroute with
        | start => exact absurd rfl hne
        | extend hpath hedge =>
          exact ⟨_, hb.mem_predecessors_iff.2 hedge,
            (hs.known _).2 (hb.mem_reachable_iff.2 ⟨_, hpath⟩)⟩
      · intro p hp set hset
        exact hc p set hset a (onEveryPath_of_edge hdom hab (hb.mem_predecessors_iff.1 hp))
  · exact hc b set hset a hdom

/-- A round keeps what every update of a reachable block behind the entry keeps. -/
theorem round_induction {P : DominatorSets → Prop}
    (hstep : ∀ sets block, P sets → block ∈ graph.reachable → block ≠ 0 → P (sets.update graph block))
    (hsets : P sets) : P (sets.round graph) := by
  unfold round
  have hblocks : ∀ block ∈ graph.reachable.filter (· != 0), block ∈ graph.reachable ∧ block ≠ 0 := by
    intro block hmem
    simpa using hmem
  revert hblocks
  generalize graph.reachable.filter (· != 0) = blocks
  intro hblocks
  induction blocks generalizing sets with
  | nil => exact hsets
  | cons block blocks ih =>
    obtain ⟨hblock, hrest⟩ := List.forall_mem_cons.1 hblocks
    exact ih (hstep sets block hsets hblock.1 hblock.2) hrest

/-! ## §3. Sets that no round changes. -/

/-- When a round as a whole changes nothing, no update in it does: each block is updated once, so what
    its update writes is still there at the end. -/
theorem update_eq_of_round_eq (hs : Shaped graph sets) (hfix : sets.round graph = sets)
    (hblock : block ∈ graph.reachable) (hne : block ≠ 0) : sets.update graph block = sets := by
  have hnodup : (graph.reachable.filter (· != 0)).Nodup := by
    unfold Graph.reachable
    exact (List.nodup_range.filter _).filter _
  have hmem : block ∈ graph.reachable.filter (· != 0) := by simp [hblock, hne]
  have hlt : ∀ block ∈ graph.reachable.filter (· != 0), block < sets.length := by
    intro other hother
    rw [hs.length]
    exact lt_size_of_mem_reachable (List.mem_filter.1 hother).1
  unfold round at hfix
  revert hfix hnodup hmem hlt
  generalize graph.reachable.filter (· != 0) = blocks
  intro hfix hnodup hmem hlt
  induction blocks with
  | nil => simp at hmem
  | cons first blocks ih =>
    obtain ⟨hfirst, hnodup⟩ := List.nodup_cons.1 hnodup
    obtain ⟨hfirstLt, hlt⟩ := List.forall_mem_cons.1 hlt
    rw [List.foldl_cons] at hfix
    have hkept : ∀ (later : List Nat) (current : DominatorSets), first ∉ later →
        (later.foldl (update graph) current)[first]? = current[first]? := by
      intro later
      induction later with
      | nil => intro current _; rfl
      | cons next later ihLater =>
        intro current hnot
        rw [List.mem_cons, not_or] at hnot
        rw [List.foldl_cons, ihLater _ hnot.2]
        exact List.getElem?_set_ne (Ne.symm hnot.1)
    have hsame : sets.update graph first = sets := by
      have hat := hkept blocks (sets.update graph first) hfirst
      rw [hfix] at hat
      unfold update at hat ⊢
      rw [List.getElem?_set_self hfirstLt] at hat
      obtain ⟨_, hvalue⟩ := List.getElem?_eq_some_iff.1 hat
      rw [← hvalue]
      exact List.set_getElem_self hfirstLt
    rcases List.mem_cons.1 hmem with rfl | hmem
    · exact hsame
    · rw [hsame] at hfix
      exact ih hfix hnodup hmem hlt

/-- In sets that no round changes, what dominates a block is on every path to it. -/
theorem onEveryPath_of_mem (hb : graph.Built instructions handlers) (hs : Shaped graph sets)
    (hfix : sets.round graph = sets) {a b : Nat} {set : List Nat} (hset : sets.of? b = some set)
    (ha : a ∈ set) : graph.OnEveryPath a b := by
  intro route hroute
  induction hroute generalizing set with
  | start =>
    rw [hs.entry, Option.some.injEq] at hset
    exact hset ▸ ha
  | @extend p c route hpath hedge ih =>
    by_cases hc : c = 0
    · subst hc
      rw [hs.entry, Option.some.injEq] at hset
      subst hset
      rw [List.mem_singleton] at ha
      exact ha ▸ List.mem_cons_self
    · have hreach : c ∈ graph.reachable := hb.mem_reachable_iff.2 ⟨_, .extend hpath hedge⟩
      have hupdated := hs.of?_update hreach c
      rw [update_eq_of_round_eq hs hfix hreach hc, if_pos rfl, hset, Option.some.injEq] at hupdated
      rw [hupdated, Ascending.mem_insert] at ha
      rcases ha with rfl | ha
      · exact List.mem_cons_self
      · -- the predecessor on this path has a set, and the meet is inside it
        obtain ⟨before, hbefore⟩ := Option.isSome_iff_exists.1
          ((hs.known p).2 (hb.mem_reachable_iff.2 ⟨_, hpath⟩))
        have hmem := (mem_meet_iff.1 ha).2 p (hb.mem_predecessors_iff.2 hedge) before hbefore
        exact List.mem_cons_of_mem _ (ih hbefore hmem)

/-! ## §4. The iteration. -/

theorem of?_initial (b : Nat) :
    (initial graph).of? b
      = if b < graph.size then
          if b = 0 then some [0] else if b ∈ graph.reachable then some graph.reachable else none
        else none := by
  unfold initial of?
  by_cases hlt : b < graph.size
  · simp [hlt]
  · simp [hlt]

theorem shaped_initial (hb : graph.Built instructions handlers) : Shaped graph (initial graph) where
  length := by simp [initial]
  entry := by rw [of?_initial, if_pos hb.size_pos, if_pos rfl]
  known b := by
    have hentry : 0 ∈ graph.reachable := hb.mem_reachable_iff.2 ⟨_, .start⟩
    rw [of?_initial]
    by_cases hlt : b < graph.size
    · rw [if_pos hlt]
      by_cases hzero : b = 0
      · simp [hzero, hentry]
      · by_cases hmem : b ∈ graph.reachable <;> simp [hzero, hmem]
    · have hnot : b ∉ graph.reachable := fun hmem => hlt (lt_size_of_mem_reachable hmem)
      simp [hlt, hnot]

theorem covers_initial (hb : graph.Built instructions handlers) : Covers graph (initial graph) := by
  intro b set hset a hdom
  rw [of?_initial] at hset
  split at hset
  · split at hset
    · next hzero =>
      subst hzero
      rw [← Option.some.inj hset]
      exact hdom [0] .start
    · split at hset
      · next hreach =>
        obtain ⟨route, hroute⟩ := hb.mem_reachable_iff.1 hreach
        rw [← Option.some.inj hset]
        exact hb.mem_reachable_iff.2 (hroute.exists_of_mem (hdom route hroute))
      · cases hset
  · cases hset

/-- A run that stops keeps what every round keeps, and one more round would change nothing. -/
theorem iterate_spec {P : DominatorSets → Prop} (hround : ∀ sets, P sets → P (sets.round graph))
    {cap : Nat} {final : DominatorSets} (hsets : P sets) (h : iterate graph cap sets = some final) :
    P final ∧ final.round graph = final := by
  induction cap generalizing sets with
  | zero => simp [iterate] at h
  | succ cap ih =>
    simp only [iterate] at h
    split at h
    · next hsame =>
      obtain rfl := Option.some.inj h
      exact ⟨hsets, hsame⟩
    · exact ih (hround sets hsets) h

end DominatorSets

/-! ## §5. Dominance as computed. -/

namespace Dominators

open DominatorSets

/-- The computed sets belong to the reachable blocks, miss no block that is on every path, and change no
    more. -/
theorem sets_spec {instructions : List Instruction} {handlers : List ExceptionHandler} {graph : Graph}
    {cap : Nat} {dominators : Dominators} (hb : graph.Built instructions handlers)
    (h : compute graph cap = .ok dominators) :
    Shaped graph dominators.sets ∧ Covers graph dominators.sets
      ∧ dominators.sets.round graph = dominators.sets := by
  have hsize : graph.size ≠ 0 := Nat.ne_of_gt hb.size_pos
  unfold compute at h
  rw [if_neg hsize] at h
  split at h
  · next final hfinal =>
    obtain rfl := Except.ok.inj h
    have hround : ∀ sets, Shaped graph sets ∧ Covers graph sets →
        Shaped graph (sets.round graph) ∧ Covers graph (sets.round graph) := by
      intro sets hsets
      refine round_induction (P := fun sets => Shaped graph sets ∧ Covers graph sets)
        (fun sets block hsets hblock hne => ?_) hsets
      exact ⟨shaped_update hsets.1 hblock hne, covers_update hb hsets.1 hsets.2 hblock hne⟩
    obtain ⟨⟨hshaped, hcovers⟩, hfix⟩ :=
      iterate_spec hround ⟨shaped_initial hb, covers_initial hb⟩ hfinal
    exact ⟨hshaped, hcovers, hfix⟩
  · cases h

/-- **Dominance as computed is dominance over all paths.** A block is reported reachable when a path
    leads to it from the entry, and `a` is reported to dominate `b` when `b` is reachable and every path
    from the entry to `b` passes through `a`. -/
theorem dominates_iff_forall_path {instructions : List Instruction}
    {handlers : List ExceptionHandler} {graph : Graph} {cap : Nat} {dominators : Dominators}
    (hbuild : Graph.build instructions handlers = .ok graph)
    (hcompute : compute graph cap = .ok dominators) :
    (∀ b, dominators.isReachable b = true ↔ ∃ route, graph.Path 0 b route)
      ∧ ∀ a b, dominators.dominates a b = true
          ↔ (∃ route, graph.Path 0 b route) ∧ ∀ route, graph.Path 0 b route → a ∈ route := by
  have hb := Graph.built_of_build hbuild
  obtain ⟨hshaped, hcovers, hfix⟩ := sets_spec hb hcompute
  have hreachable : ∀ b, (dominators.sets.of? b).isSome ↔ ∃ route, graph.Path 0 b route :=
    fun b => (hshaped.known b).trans hb.mem_reachable_iff
  refine ⟨hreachable, fun a b => ?_⟩
  unfold dominates
  cases hset : dominators.sets.of? b with
  | none =>
    have hnone : ¬ ∃ route, graph.Path 0 b route := by
      rw [← hreachable b, hset]
      simp
    simp [hnone]
  | some set =>
    have hsome : ∃ route, graph.Path 0 b route := by
      rw [← hreachable b, hset]
      rfl
    dsimp only
    rw [List.contains_iff_mem]
    constructor
    · intro ha
      exact ⟨hsome, onEveryPath_of_mem hb hshaped hfix hset ha⟩
    · rintro ⟨-, hdom⟩
      exact hcovers b set hset a hdom

/-- A branch around one instruction; a jump that nothing leads to stands behind the return. -/
def branchAround : List Instruction :=
  [⟨0, 0x1a, .none, none⟩, ⟨1, 0x99, .branch 5, none⟩, ⟨4, 0x00, .none, none⟩,
    ⟨5, 0xb1, .none, none⟩, ⟨6, 0xa7, .branch 5, none⟩]

/-- Behind a branch around a block, the block is on some paths only. -/
theorem dominates_iff_forall_path_branchAround :
    ∃ graph dominators, Graph.build branchAround [] = .ok graph
      ∧ compute graph 4 = .ok dominators
      ∧ (∀ route, graph.Path 0 2 route → 0 ∈ route)
      ∧ (¬ ∀ route, graph.Path 0 2 route → 1 ∈ route)
      ∧ ¬ ∃ route, graph.Path 0 3 route := by
  let built : Graph := ⟨[
    ⟨0, ⟨0, 0x1a, .none, none⟩, [⟨1, 0x99, .branch 5, none⟩],
      [⟨.block 2, .conditionalTrue⟩, ⟨.block 1, .conditionalFalse⟩]⟩,
    ⟨1, ⟨4, 0x00, .none, none⟩, [], [⟨.block 2, .fallThrough⟩]⟩,
    ⟨2, ⟨5, 0xb1, .none, none⟩, [], [⟨.exit, .leave⟩]⟩,
    ⟨3, ⟨6, 0xa7, .branch 5, none⟩, [], [⟨.block 2, .jump⟩]⟩]⟩
  let sets : DominatorSets := [some [0], some [0, 1], some [0, 2], none]
  have hbuild : Graph.build branchAround [] = .ok built := by rfl
  have hblocks : built.reachable = [0, 1, 2] := by cbv
  have hsets : DominatorSets.iterate built 4 (.initial built) = some sets := by
    simp only [DominatorSets.iterate, DominatorSets.round, DominatorSets.initial, hblocks]
    decide +kernel
  have hcompute : compute built 4 = .ok (ofSets sets) := by
    rw [compute, if_neg (by decide), hsets]
  obtain ⟨hreachable, hdominates⟩ := dominates_iff_forall_path hbuild hcompute
  refine ⟨built, _, hbuild, hcompute, ((hdominates 0 2).1 rfl).2, fun hone => ?_, fun hthree => ?_⟩
  · have htwo := (hreachable 2).1 rfl
    exact absurd ((hdominates 1 2).2 ⟨htwo, hone⟩) (by decide)
  · exact absurd ((hreachable 3).2 hthree) (by decide)

end Dominators

end PatchPresence
