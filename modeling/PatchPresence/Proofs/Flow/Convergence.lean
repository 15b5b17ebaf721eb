/-
  PatchPresence.Proofs.Flow.Convergence — the dominator iteration ends within as many rounds as there are
  blocks.

  A round may take a single block out of a single set, so that counting what is taken out gives a bound that
  is quadratic in the number of blocks. The linear bound comes from paths: when `n` rounds are done, a set
  holds only blocks that are on every path of at most `n + 1` blocks, in whatever order the blocks of a round
  are updated. A path that comes to no block twice has at most as many blocks as the graph.

  Main results:
    * `DominatorSets.Narrowed.round` — one more round is right about paths that are one block longer.
    * `DominatorSets.Final.unique` — a graph has one list of sets that say what is on every path.
    * `Dominators.compute_converges` — the iteration ends within the cap of every accepted configuration.
-/
import PatchPresence.Config
import PatchPresence.Proofs.Flow.Live

namespace PatchPresence

/-! ## §1. Paths without repetition. -/

namespace Graph

variable {instructions : List Instruction} {handlers : List ExceptionHandler} {graph : Graph}
  {a s t : Nat} {route : List Nat}

/-- A path up to a block on it. -/
theorem Path.upTo (h : graph.Path s t route) (ha : a ∈ route) :
    ∃ front, graph.Path s a front ∧ front <:+ route := by
  induction h with
  | start =>
    rw [List.mem_singleton] at ha
    exact ⟨[s], ha ▸ .start, List.suffix_rfl⟩
  | @extend b c route hpath hedge ih =>
    rcases List.mem_cons.1 ha with rfl | ha
    · exact ⟨a :: route, .extend hpath hedge, List.suffix_rfl⟩
    · obtain ⟨front, hfront, hsuffix⟩ := ih ha
      exact ⟨front, hfront, hsuffix.trans (List.suffix_cons c route)⟩

/-- Where a path leads, a path leads that comes to no block twice and passes no other blocks. -/
theorem Path.exists_nodup (h : graph.Path s t route) :
    ∃ short, graph.Path s t short ∧ short.Nodup ∧ ∀ x ∈ short, x ∈ route := by
  induction h with
  | start => exact ⟨[s], .start, List.nodup_singleton s, fun _ hx => hx⟩
  | @extend b c route _ hedge ih =>
    obtain ⟨short, hshort, hnodup, hsub⟩ := ih
    by_cases hc : c ∈ short
    · -- the way back to a block that was passed is left out
      obtain ⟨front, hfront, hsuffix⟩ := hshort.upTo hc
      refine ⟨front, hfront, hsuffix.sublist.nodup hnodup, fun x hx => ?_⟩
      exact List.mem_cons_of_mem c (hsub x (hsuffix.subset hx))
    · refine ⟨c :: short, .extend hshort hedge, List.nodup_cons.2 ⟨hc, hnodup⟩, fun x hx => ?_⟩
      rcases List.mem_cons.1 hx with rfl | hx
      · exact List.mem_cons_self
      · exact List.mem_cons_of_mem c (hsub x hx)

theorem Built.lt_size_of_mem_route (hb : graph.Built instructions handlers)
    (h : graph.Path 0 t route) : ∀ x ∈ route, x < graph.size := by
  intro x hx
  obtain ⟨front, hfront, -⟩ := h.upTo hx
  exact DominatorSets.lt_size_of_mem_reachable (hb.mem_reachable_iff.2 ⟨front, hfront⟩)

theorem Built.length_route_le (hb : graph.Built instructions handlers) (h : graph.Path 0 t route)
    (hnodup : route.Nodup) : route.length ≤ graph.size := by
  have hsub : route ⊆ List.range graph.size := fun x hx =>
    List.mem_range.2 (hb.lt_size_of_mem_route h x hx)
  simpa using hnodup.length_le_of_subset hsub

/-- A block on every path that is not longer than the graph is on every path. -/
theorem Built.onEveryPath_of_short (hb : graph.Built instructions handlers)
    (h : ∀ route, graph.Path 0 t route → route.length ≤ graph.size → a ∈ route) :
    graph.OnEveryPath a t := by
  intro route hroute
  obtain ⟨short, hshort, hnodup, hsub⟩ := hroute.exists_nodup
  exact hsub a (h short hshort (hb.length_route_le hshort hnodup))

/-- A block has at least one instruction. -/
theorem Built.size_le (hb : graph.Built instructions handlers) : graph.size ≤ instructions.length := by
  have hparts : ∀ parts : List (Instruction × List Instruction),
      parts.length ≤ (parts.flatMap partElements).length := by
    intro parts
    induction parts with
    | nil => exact Nat.zero_le _
    | cons part parts ih =>
      rw [List.flatMap_cons, List.length_append, List.length_cons]
      have hpart : 1 ≤ (partElements part).length := by simp [partElements]
      omega
  rw [hb.size_eq]
  calc (parts instructions handlers).length
      ≤ ((parts instructions handlers).flatMap partElements).length := hparts _
    _ = instructions.length := congrArg List.length (flatten_cut _ instructions)

theorem Built.nodup_offsets (hb : graph.Built instructions handlers) :
    (instructions.map Instruction.offset).Nodup := by
  rw [List.Nodup, List.pairwise_map]
  exact hb.increasing.imp Nat.ne_of_lt

/-- Code whose offsets are below a bound has no more blocks than the bound. -/
theorem Built.size_le_of_offsets (hb : graph.Built instructions handlers) {bound : Nat}
    (hoffsets : ∀ inst ∈ instructions, inst.offset < bound) : graph.size ≤ bound := by
  have hsub : instructions.map Instruction.offset ⊆ List.range bound := by
    intro offset hoffset
    obtain ⟨inst, hinst, rfl⟩ := List.mem_map.1 hoffset
    exact List.mem_range.2 (hoffsets inst hinst)
  have hlength := hb.nodup_offsets.length_le_of_subset hsub
  rw [List.length_map, List.length_range] at hlength
  exact Nat.le_trans hb.size_le hlength

end Graph

namespace DominatorSets

variable {instructions : List Instruction} {handlers : List ExceptionHandler} {graph : Graph}
  {sets : DominatorSets} {block b count : Nat}

/-! ## §2. Ascending sets. -/

/-- Every set is listed in ascending order. -/
def Ordered (sets : DominatorSets) : Prop := ∀ b set, sets.of? b = some set → Ascending.Strict set

theorem strict_meet (h : Ordered sets) (predecessors : List Nat) :
    Ascending.Strict (sets.meet predecessors) := by
  have hfold : ∀ (others : List (List Nat)) (acc : List Nat), Ascending.Strict acc →
      Ascending.Strict (others.foldl (fun acc set => acc.filter set.contains) acc) := by
    intro others
    induction others with
    | nil => exact fun acc hacc => hacc
    | cons set others ih => exact fun acc hacc => ih _ (List.Pairwise.filter _ hacc)
  unfold meet
  cases hsets : predecessors.filterMap sets.of? with
  | nil => exact List.Pairwise.nil
  | cons first others =>
    obtain ⟨p, -, hp⟩ := List.mem_filterMap.1 (hsets ▸ List.mem_cons_self (a := first))
    exact hfold others first (h p first hp)

theorem ordered_update (hs : Shaped graph sets) (ho : Ordered sets) (hblock : block ∈ graph.reachable) :
    Ordered (sets.update graph block) := by
  intro b set hset
  rw [hs.of?_update hblock] at hset
  split at hset
  · rw [← Option.some.inj hset]
    exact Ascending.strict_insert block (strict_meet ho _)
  · exact ho b set hset

theorem ordered_initial (graph : Graph) : Ordered (initial graph) := by
  intro b set hset
  rw [of?_initial] at hset
  split at hset
  · split at hset
    · rw [← Option.some.inj hset]
      exact List.pairwise_singleton _ _
    · split at hset
      · rw [← Option.some.inj hset]
        exact graph.strict_reachable
      · cases hset
  · cases hset

/-! ## §3. Sets that are right about short paths. -/

/-- What the set of a block holds is on every path to it of at most `count` blocks. -/
def SoundUpTo (graph : Graph) (count b : Nat) (sets : DominatorSets) : Prop :=
  ∀ set, sets.of? b = some set → ∀ a ∈ set, ∀ route, graph.Path 0 b route → route.length ≤ count → a ∈ route

theorem SoundUpTo.mono (h : SoundUpTo graph count b sets) {fewer : Nat} (hle : fewer ≤ count) :
    SoundUpTo graph fewer b sets :=
  fun set hset a ha route hroute hlength => h set hset a ha route hroute (Nat.le_trans hlength hle)

/-- The set of the entry is right about all paths. -/
theorem soundUpTo_entry (hs : Shaped graph sets) (count : Nat) : SoundUpTo graph count 0 sets := by
  intro set hset a ha route hroute _
  rw [hs.entry, Option.some.injEq] at hset
  rw [← hset, List.mem_singleton] at ha
  exact ha ▸ hroute.source_mem

/-- An update brings the set of a block a block further than those of its predecessors. -/
theorem soundUpTo_update_self (hb : graph.Built instructions handlers) (hs : Shaped graph sets)
    (hall : ∀ p, SoundUpTo graph count p sets) (hblock : block ∈ graph.reachable) (hne : block ≠ 0) :
    SoundUpTo graph (count + 1) block (sets.update graph block) := by
  intro set hset a ha route hroute hlength
  rw [hs.of?_update hblock, if_pos rfl, Option.some.injEq] at hset
  rw [← hset, Ascending.mem_insert] at ha
  cases hroute with
  | start => exact absurd rfl hne
  | @extend p _ route hpath hedge =>
    rcases ha with rfl | ha
    · exact List.mem_cons_self
    · obtain ⟨before, hbefore⟩ := Option.isSome_iff_exists.1
        ((hs.known p).2 (hb.mem_reachable_iff.2 ⟨route, hpath⟩))
      have hmem := (mem_meet_iff.1 ha).2 p (hb.mem_predecessors_iff.2 hedge) before hbefore
      exact List.mem_cons_of_mem _ (hall p before hbefore a hmem route hpath
        (Nat.le_of_succ_le_succ hlength))

theorem soundUpTo_update_of_ne (hs : Shaped graph sets) (hblock : block ∈ graph.reachable) (hne : b ≠ block)
    (h : SoundUpTo graph count b sets) : SoundUpTo graph count b (sets.update graph block) := by
  unfold SoundUpTo
  rw [hs.of?_update hblock, if_neg hne]
  exact h

/-- Updates in any order bring every block that they reach a block further, and none back: what an update
    sees of predecessors is what they had before the round, or more. -/
theorem soundUpTo_foldl_update (hb : graph.Built instructions handlers) (blocks : List Nat)
    (hblocks : ∀ block ∈ blocks, block ∈ graph.reachable ∧ block ≠ 0) (hs : Shaped graph sets)
    (hall : ∀ p, SoundUpTo graph count p sets)
    (hreached : b ∈ blocks ∨ SoundUpTo graph (count + 1) b sets) :
    SoundUpTo graph (count + 1) b (blocks.foldl (update graph) sets) := by
  induction blocks generalizing sets with
  | nil => exact hreached.resolve_left List.not_mem_nil
  | cons block blocks ih =>
    obtain ⟨⟨hblock, hne⟩, hrest⟩ := List.forall_mem_cons.1 hblocks
    have hself := soundUpTo_update_self hb hs hall hblock hne
    refine ih hrest (shaped_update hs hblock hne) (fun p => ?_) ?_
    · by_cases hp : p = block
      · exact hp ▸ hself.mono (Nat.le_succ count)
      · exact soundUpTo_update_of_ne hs hblock hp (hall p)
    · by_cases heq : b = block
      · exact .inr (heq ▸ hself)
      · refine hreached.imp (fun hmem => (List.mem_cons.1 hmem).resolve_left heq) fun hsound => ?_
        exact soundUpTo_update_of_ne hs hblock heq hsound

/-! ## §4. Rounds. -/

/-- Sets on the way from the initial ones to the final ones: they miss nothing that is on every path, and
    what they hold is on every path of at most `count` blocks. -/
structure Narrowed (graph : Graph) (count : Nat) (sets : DominatorSets) : Prop where
  shaped : Shaped graph sets
  covers : Covers graph sets
  ordered : Ordered sets
  sound : ∀ b, SoundUpTo graph count b sets

theorem narrowed_initial (hb : graph.Built instructions handlers) : Narrowed graph 1 (initial graph) where
  shaped := shaped_initial hb
  covers := covers_initial hb
  ordered := ordered_initial graph
  sound b := by
    by_cases hzero : b = 0
    · exact hzero ▸ soundUpTo_entry (shaped_initial hb) 1
    · intro set _ a _ route hroute hlength
      cases hroute with
      | start => exact absurd rfl hzero
      | extend hpath _ =>
        have hpos := List.length_pos_of_mem hpath.target_mem
        simp only [List.length_cons] at hlength
        omega

/-- One more round is right about paths that are one block longer. -/
theorem Narrowed.round (hb : graph.Built instructions handlers) (h : Narrowed graph count sets) :
    Narrowed graph (count + 1) (sets.round graph) := by
  obtain ⟨hshaped, hcovers, hordered⟩ : Shaped graph (sets.round graph) ∧ Covers graph (sets.round graph)
      ∧ Ordered (sets.round graph) := by
    refine round_induction (P := fun sets => Shaped graph sets ∧ Covers graph sets ∧ Ordered sets)
      (fun sets block hsets hblock hne => ?_) ⟨h.shaped, h.covers, h.ordered⟩
    obtain ⟨hshaped, hcovers, hordered⟩ := hsets
    exact ⟨shaped_update hshaped hblock hne, covers_update hb hshaped hcovers hblock hne,
      ordered_update hshaped hordered hblock⟩
  refine ⟨hshaped, hcovers, hordered, fun b => ?_⟩
  by_cases hzero : b = 0
  · exact hzero ▸ soundUpTo_entry hshaped (count + 1)
  · by_cases hreach : b ∈ graph.reachable
    · have hblocks : ∀ block ∈ graph.reachable.filter (· != 0), block ∈ graph.reachable ∧ block ≠ 0 := by
        intro block hblock
        simpa using hblock
      exact soundUpTo_foldl_update hb _ hblocks h.shaped h.sound (.inl (by simp [hreach, hzero]))
    · -- a block that cannot be reached has no set
      intro set hset
      exact absurd ((hshaped.known b).1 (by rw [hset]; rfl)) hreach

/-! ## §5. Final sets. -/

/-- Sets that say what is on every path. -/
structure Final (graph : Graph) (sets : DominatorSets) : Prop where
  shaped : Shaped graph sets
  ordered : Ordered sets
  mem_iff : ∀ b set, sets.of? b = some set → ∀ a, a ∈ set ↔ graph.OnEveryPath a b

/-- Sets that are right about all paths that are not longer than the graph are final. -/
theorem Narrowed.final (hb : graph.Built instructions handlers) (h : Narrowed graph count sets)
    (hcount : graph.size ≤ count) : Final graph sets where
  shaped := h.shaped
  ordered := h.ordered
  mem_iff b set hset a := by
    refine ⟨fun ha => hb.onEveryPath_of_short fun route hroute hlength => ?_, h.covers b set hset a⟩
    exact h.sound b set hset a ha route hroute (Nat.le_trans hlength hcount)

theorem ext_of? {other : DominatorSets} (hlength : sets.length = other.length)
    (h : ∀ b, sets.of? b = other.of? b) : sets = other := by
  apply List.ext_getElem hlength
  intro b hb hother
  have hat := h b
  unfold of? at hat
  rw [List.getElem?_eq_getElem hb, List.getElem?_eq_getElem hother] at hat
  exact hat

/-- Final sets are determined by the graph. -/
theorem Final.unique {other : DominatorSets} (h : Final graph sets) (hother : Final graph other) :
    sets = other := by
  apply ext_of? (h.shaped.length.trans hother.shaped.length.symm)
  intro b
  have hknown : (sets.of? b).isSome ↔ (other.of? b).isSome :=
    (h.shaped.known b).trans (hother.shaped.known b).symm
  cases hset : sets.of? b with
  | none =>
    rw [hset] at hknown
    cases hotherSet : other.of? b with
    | none => rfl
    | some otherSet => simp [hotherSet] at hknown
  | some set =>
    rw [hset] at hknown
    obtain ⟨otherSet, hotherSet⟩ := Option.isSome_iff_exists.1 (hknown.1 rfl)
    rw [hotherSet]
    refine congrArg some ((h.ordered b set hset).eq_of_mem_iff (hother.ordered b otherSet hotherSet) ?_)
    intro a
    rw [h.mem_iff b set hset, hother.mem_iff b otherSet hotherSet]

/-- A round changes nothing once the sets are right about all paths that are not longer than the graph. -/
theorem Narrowed.round_eq (hb : graph.Built instructions handlers) (h : Narrowed graph count sets)
    (hcount : graph.size ≤ count) : sets.round graph = sets :=
  ((h.round hb).final hb (Nat.le_succ_of_le hcount)).unique (h.final hb hcount)

/-- Each round is right about longer paths, and the one behind the longest is the last. -/
theorem Narrowed.exists_iterate (hb : graph.Built instructions handlers) (h : Narrowed graph count sets)
    (hle : count ≤ graph.size) {cap : Nat} (hcap : graph.size < count + cap) :
    ∃ final, iterate graph cap sets = some final := by
  induction cap generalizing count sets with
  | zero => omega
  | succ cap ih =>
    simp only [iterate]
    by_cases hsame : sets.round graph = sets
    · exact ⟨sets, if_pos hsame⟩
    · have hlt : count < graph.size := by
        apply Nat.lt_of_not_le
        intro hcount
        exact hsame (h.round_eq hb hcount)
      rw [if_neg hsame]
      exact ih (h.round hb) hlt (by omega)

end DominatorSets

/-! ## §6. Caps. -/

theorem Config.capFactor_pos_of_validate {config : Config} (h : config.validate = .ok ()) :
    0 < config.capFactor := by
  apply Nat.pos_of_ne_zero
  intro hzero
  unfold validate at h
  rw [if_pos hzero] at h
  cases h

/-- The cap of an accepted configuration allows a round for every block, as long as their number is a number
    of 64 bits. -/
theorem Config.le_iterationCap {config : Config} (h : config.validate = .ok ()) {blocks : Nat}
    (hblocks : blocks < UInt64.size) : max blocks 1 ≤ config.iterationCap blocks := by
  have hfactor := capFactor_pos_of_validate h
  have hproduct : max blocks 1 ≤ config.capFactor * max blocks 1 := Nat.le_mul_of_pos_left _ hfactor
  have hword : max blocks 1 ≤ UInt64.size - 1 := by
    have hsize : 1 < UInt64.size := by decide
    omega
  exact Nat.le_min.2 ⟨hproduct, hword⟩

namespace Dominators

open DominatorSets

variable {instructions : List Instruction} {handlers : List ExceptionHandler} {graph : Graph} {cap : Nat}

theorem exists_compute (hb : graph.Built instructions handlers) (hcap : max graph.size 1 ≤ cap) :
    ∃ dominators, compute graph cap = .ok dominators := by
  have hpos := hb.size_pos
  have hrounds : graph.size < 1 + cap := by omega
  obtain ⟨final, hfinal⟩ := (narrowed_initial hb).exists_iterate hb hpos hrounds
  refine ⟨ofSets final, ?_⟩
  unfold compute
  rw [if_neg (Nat.ne_of_gt hpos), hfinal]

/-- **The dominator iteration ends.** It ends with dominance facts whenever it may take as many rounds as
    there are blocks, and so under every configuration that is accepted. Offsets are numbers of 32 bits, so
    that the number of blocks is one of 64 bits, which is where the cap of a configuration stops growing. -/
theorem compute_converges (hbuild : Graph.build instructions handlers = .ok graph) :
    (∀ cap, max graph.size 1 ≤ cap → ∃ dominators, compute graph cap = .ok dominators)
      ∧ ∀ config : Config, config.validate = .ok () →
          (∀ inst ∈ instructions, inst.offset < UInt32.size) →
          ∃ dominators, compute graph (config.iterationCap graph.size) = .ok dominators := by
  have hb := Graph.built_of_build hbuild
  refine ⟨fun cap hcap => exists_compute hb hcap, fun config hconfig hoffsets => ?_⟩
  have hsize : graph.size < UInt64.size :=
    Nat.lt_of_le_of_lt (hb.size_le_of_offsets hoffsets) (by decide)
  exact exists_compute hb (Config.le_iterationCap hconfig hsize)

/-- Code that is run from its end to its start: each block jumps to the one before it. -/
def backwardChain : List Instruction :=
  [⟨0, 0xa7, .branch 10, none⟩, ⟨3, 0xb1, .none, none⟩, ⟨4, 0xa7, .branch 3, none⟩,
    ⟨7, 0xa7, .branch 4, none⟩, ⟨10, 0xa7, .branch 7, none⟩]

/-- In `backwardChain` every round brings only one block up to date, so that three rounds are too few for its
    five blocks. -/
theorem compute_converges_backwardChain :
    ∃ graph, Graph.build backwardChain [] = .ok graph ∧ graph.size = 5
      ∧ ({ capFactor := 1 } : Config).validate = .ok ()
      ∧ (∀ inst ∈ backwardChain, inst.offset < UInt32.size)
      ∧ (∃ dominators, compute graph 5 = .ok dominators)
      ∧ (∃ dominators, compute graph (({ capFactor := 1 } : Config).iterationCap graph.size)
          = .ok dominators)
      ∧ compute graph 3 = .error (.noConvergence .dominators 3) := by
  let built : Graph := ⟨[
    ⟨0, ⟨0, 0xa7, .branch 10, none⟩, [], [⟨.block 4, .jump⟩]⟩,
    ⟨1, ⟨3, 0xb1, .none, none⟩, [], [⟨.exit, .leave⟩]⟩,
    ⟨2, ⟨4, 0xa7, .branch 3, none⟩, [], [⟨.block 1, .jump⟩]⟩,
    ⟨3, ⟨7, 0xa7, .branch 4, none⟩, [], [⟨.block 2, .jump⟩]⟩,
    ⟨4, ⟨10, 0xa7, .branch 7, none⟩, [], [⟨.block 3, .jump⟩]⟩]⟩
  have hbuild : Graph.build backwardChain [] = .ok built := by rfl
  have hblocks : built.reachable = [0, 1, 2, 3, 4] := by cbv
  have hsets : DominatorSets.iterate built 3 (.initial built) = none := by
    simp only [DominatorSets.iterate, DominatorSets.round, DominatorSets.initial, hblocks]
    decide +kernel
  have hshort : compute built 3 = .error (.noConvergence .dominators 3) := by
    rw [compute, if_neg (by decide), hsets]
  have hvalid : ({ capFactor := 1 } : Config).validate = .ok () := by rfl
  have hoffsets : ∀ inst ∈ backwardChain, inst.offset < UInt32.size := by decide
  obtain ⟨henough, hconfigured⟩ := compute_converges hbuild
  exact ⟨built, hbuild, rfl, hvalid, hoffsets, henough 5 (by decide),
    hconfigured _ hvalid hoffsets, hshort⟩

end Dominators

end PatchPresence
