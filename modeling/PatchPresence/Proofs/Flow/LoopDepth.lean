/-
  PatchPresence.Proofs.Flow.LoopDepth — parents, depths and innermost loops.

  A parent is chosen by its number of members, a depth is the length of a chain of parents, and the innermost
  loop of a block is chosen by depth. The three agree because loops nest: the loops around a loop form a chain,
  and so do the loops that a block belongs to. That loops nest is all that is used here (`Nested`), together
  with where their headers are.

  Main results:
    * `Nested.parent?_eq_some_iff` — the parent is the one smallest loop around a loop.
    * `Placed.exists_parentChain` — parent links lead through all loops around a loop, and end.
    * `find_placed` — parents, depths and innermost loops of the loops that are found.
-/
import PatchPresence.Proofs.Flow.LoopNest
import PatchPresence.Proofs.KeyOrder

namespace PatchPresence

namespace LoopNest

variable {loops : List NaturalLoop} {loop inner outer a b : NaturalLoop} {i block : Nat}

/-! ## §1. Loops inside loops. -/

namespace Inside

theorem irrefl (loop : NaturalLoop) : ¬ Inside loop loop := by
  rintro ⟨-, block, hblock, hnot⟩
  exact hnot hblock

theorem trans (hab : Inside inner loop) (hbc : Inside loop outer) : Inside inner outer := by
  obtain ⟨hsub, -⟩ := hab
  obtain ⟨hsubOuter, block, hblock, hnot⟩ := hbc
  exact ⟨fun x hx => hsubOuter x (hsub x hx), block, hblock, fun hx => hnot (hsub block hx)⟩

theorem length_lt (h : Inside inner outer) (hnodup : inner.members.Nodup) :
    inner.members.length < outer.members.length := by
  obtain ⟨hsub, block, hblock, hnot⟩ := h
  have hsubset : block :: inner.members ⊆ outer.members := by
    intro x hx
    rcases List.mem_cons.1 hx with rfl | hx
    · exact hblock
    · exact hsub x hx
  exact (List.nodup_cons.2 ⟨hnot, hnodup⟩).length_le_of_subset hsubset

end Inside

/-- Whether the members of a loop are some of the members of another, and not all. -/
def encloses (loop other : NaturalLoop) : Bool :=
  loop.members.length < other.members.length && Ascending.subset loop.members other.members

theorem encloses_iff (hloop : loop.members.Nodup) (houter : outer.members.Nodup) :
    encloses loop outer = true ↔ Inside loop outer := by
  have hsubset : Ascending.subset loop.members outer.members = true
      ↔ ∀ block ∈ loop.members, block ∈ outer.members := by
    unfold Ascending.subset
    simp only [List.all_eq_true, List.contains_iff_mem]
  unfold encloses
  rw [Bool.and_eq_true, decide_eq_true_eq, hsubset]
  constructor
  · rintro ⟨hlength, hsub⟩
    refine ⟨hsub, Classical.byContradiction fun hnone => ?_⟩
    have hback : outer.members ⊆ loop.members := by
      intro block hblock
      exact Classical.byContradiction fun hnot => hnone ⟨block, hblock, hnot⟩
    exact absurd (houter.length_le_of_subset hback) (Nat.not_le.2 hlength)
  · intro h
    exact ⟨h.length_lt hloop, h.1⟩

/-- At a position stands a loop of a kind, and it has fewer members than every other loop of the kind. -/
def IsSmallest (loops : List NaturalLoop) (kind : NaturalLoop → Prop) (i : Nat) : Prop :=
  ∃ loop, loops[i]? = some loop ∧ kind loop
    ∧ ∀ j other, loops[j]? = some other → kind other → j ≠ i →
        loop.members.length < other.members.length

theorem IsSmallest.unique {kind : NaturalLoop → Prop} {j : Nat} (hi : IsSmallest loops kind i)
    (hj : IsSmallest loops kind j) : i = j := by
  obtain ⟨a, ha, hkind, hsmaller⟩ := hi
  obtain ⟨b, hb, hkind', hsmaller'⟩ := hj
  by_cases heq : i = j
  · exact heq
  · -- were they different, each would have fewer members than the other
    have hlt := hsmaller j b hb hkind' (Ne.symm heq)
    have hgt := hsmaller' i a ha hkind heq
    omega

/-- A choice of smallest loops that fails only where there is no loop of the kind is the smallest loop. -/
theorem eq_some_iff_isSmallest {kind : NaturalLoop → Prop} {choice : Option Nat}
    (hsome : ∀ i, choice = some i → IsSmallest loops kind i)
    (hnone : choice = none → ∀ loop ∈ loops, ¬ kind loop) :
    choice = some i ↔ IsSmallest loops kind i := by
  refine ⟨hsome i, fun hsmallest => ?_⟩
  cases hchoice : choice with
  | none =>
    obtain ⟨loop, hat, hkind, -⟩ := hsmallest
    exact absurd hkind (hnone hchoice loop (List.mem_of_getElem? hat))
  | some j => rw [(hsome j hchoice).unique hsmallest]

/-- Loops with their positions. -/
theorem mem_positions_iff {entry : Nat × NaturalLoop} :
    entry ∈ loops.zipIdx.map Prod.swap ↔ loops[entry.1]? = some entry.2 := by
  obtain ⟨i, loop⟩ := entry
  simp only [List.mem_map, Prod.exists, Prod.swap_prod_mk, Prod.mk.injEq, List.mem_zipIdx_iff_getElem?]
  constructor
  · rintro ⟨_, _, hat, rfl, rfl⟩
    exact hat
  · exact fun hat => ⟨loop, i, hat, rfl, rfl⟩

/-! ## §2. Nested loops. -/

/-- Loops of which any two are apart or one inside the other. A header is a member of its own loop, and of no
    loop inside it. -/
structure Nested (loops : List NaturalLoop) : Prop where
  distinct : loops.Nodup
  nodup : ∀ loop ∈ loops, loop.members.Nodup
  meet : ∀ a ∈ loops, ∀ b ∈ loops, a ≠ b → Apart a b ∨ Inside a b ∨ Inside b a
  header_mem : ∀ loop ∈ loops, loop.header ∈ loop.members
  header_notMem : ∀ inner ∈ loops, ∀ outer ∈ loops, Inside inner outer → outer.header ∉ inner.members

/-- The loops around a loop. -/
def around (loops : List NaturalLoop) (loop : NaturalLoop) : List NaturalLoop :=
  loops.filter (encloses loop)

namespace Nested

/-- Of two loops with a common member one is inside the other. -/
theorem inside_or_inside (h : Nested loops) (ha : a ∈ loops) (hb : b ∈ loops) (hne : a ≠ b)
    (hblockA : block ∈ a.members) (hblockB : block ∈ b.members) : Inside a b ∨ Inside b a := by
  rcases h.meet a ha b hb hne with hapart | hinside
  · exact absurd hblockB (hapart block hblockA)
  · exact hinside

theorem mem_around_iff (h : Nested loops) (hloop : loop ∈ loops) :
    outer ∈ around loops loop ↔ outer ∈ loops ∧ Inside loop outer := by
  unfold around
  rw [List.mem_filter]
  exact and_congr_right fun houter => encloses_iff (h.nodup loop hloop) (h.nodup outer houter)

theorem nodup_around (h : Nested loops) (loop : NaturalLoop) : (around loops loop).Nodup :=
  h.distinct.filter _

theorem nodup_cons_around (h : Nested loops) (hloop : loop ∈ loops) :
    (loop :: around loops loop).Nodup := by
  refine List.nodup_cons.2 ⟨fun hmem => ?_, h.nodup_around loop⟩
  exact Inside.irrefl loop ((h.mem_around_iff hloop).1 hmem).2

theorem index_unique (h : Nested loops) {j : Nat} (hi : loops[i]? = some loop)
    (hj : loops[j]? = some loop) : i = j := by
  have hlt := (List.getElem?_eq_some_iff.1 hi).1
  exact (List.getElem?_inj hlt h.distinct).1 (hi.trans hj.symm)

/-! ## §3. Parents. -/

theorem mem_candidates_iff (h : Nested loops) (hloop : loop ∈ loops) {entry : Nat × NaturalLoop} :
    entry ∈ (loops.zipIdx.map Prod.swap).filter (fun other => encloses loop other.2)
      ↔ loops[entry.1]? = some entry.2 ∧ Inside loop entry.2 := by
  rw [List.mem_filter, mem_positions_iff]
  refine and_congr_right fun hat => ?_
  exact encloses_iff (h.nodup loop hloop) (h.nodup _ (List.mem_of_getElem? hat))

theorem parent?_eq_none_iff (h : Nested loops) (hloop : loop ∈ loops) :
    parent? loops loop = none ↔ ∀ outer ∈ loops, ¬ Inside loop outer := by
  show (Ascending.firstLeast _ ((loops.zipIdx.map Prod.swap).filter fun other =>
    encloses loop other.2)).map Prod.fst = none ↔ _
  rw [Option.map_eq_none_iff, Ascending.firstLeast_eq_none_iff, List.eq_nil_iff_forall_not_mem]
  constructor
  · intro hnone outer houter hinside
    obtain ⟨i, hi⟩ := List.mem_iff_getElem?.1 houter
    exact hnone (i, outer) ((h.mem_candidates_iff hloop).2 ⟨hi, hinside⟩)
  · intro hnone entry hentry
    obtain ⟨hat, hinside⟩ := (h.mem_candidates_iff hloop).1 hentry
    exact hnone entry.2 (List.mem_of_getElem? hat) hinside

/-- Every loop around a loop is its parent or is around its parent. -/
theorem of_parent? (h : Nested loops) (hloop : loop ∈ loops) (hparent : parent? loops loop = some i) :
    ∃ outer, loops[i]? = some outer ∧ Inside loop outer
      ∧ ∀ other ∈ loops, Inside loop other → other = outer ∨ Inside outer other := by
  obtain ⟨⟨j, outer⟩, hleast, rfl⟩ := Option.map_eq_some_iff.1 hparent
  obtain ⟨hmem, hsmallest⟩ := Ascending.of_firstLeast hleast
  obtain ⟨hat, hinside⟩ := (h.mem_candidates_iff hloop).1 hmem
  refine ⟨outer, hat, hinside, fun other hother hinsideOther => ?_⟩
  by_cases heq : other = outer
  · exact .inl heq
  · -- both loops have the header of `loop`, and the parent is not the larger one
    have hheader := h.header_mem loop hloop
    rcases h.inside_or_inside hother (List.mem_of_getElem? hat) heq (hinsideOther.1 _ hheader)
      (hinside.1 _ hheader) with hsmaller | hlarger
    · obtain ⟨k, hk⟩ := List.mem_iff_getElem?.1 hother
      have hle := hsmallest (k, other) ((h.mem_candidates_iff hloop).2 ⟨hk, hinsideOther⟩)
      have hlt := hsmaller.length_lt (h.nodup other hother)
      exact absurd hlt (Nat.not_lt.2 hle)
    · exact .inr hlarger

/-- The parent is the smallest loop around a loop. -/
theorem parent?_eq_some_iff (h : Nested loops) (hloop : loop ∈ loops) :
    parent? loops loop = some i ↔ IsSmallest loops (Inside loop) i := by
  apply eq_some_iff_isSmallest _ (h.parent?_eq_none_iff hloop).1
  intro i hparent
  obtain ⟨outer, hat, hinside, hothers⟩ := h.of_parent? hloop hparent
  refine ⟨outer, hat, hinside, fun j other hj hinsideOther hne => ?_⟩
  rcases hothers other (List.mem_of_getElem? hj) hinsideOther with rfl | hlarger
  · exact absurd (h.index_unique hj hat) hne
  · exact hlarger.length_lt (h.nodup outer (List.mem_of_getElem? hat))

/-! ## §4. Depths. -/

/-- The loops around a loop are its parent and the loops around its parent. -/
theorem perm_around (h : Nested loops) (hloop : loop ∈ loops) (hparent : parent? loops loop = some i) :
    ∃ outer, loops[i]? = some outer ∧ (around loops loop).Perm (outer :: around loops outer) := by
  obtain ⟨outer, hat, hinside, hothers⟩ := h.of_parent? hloop hparent
  have houter := List.mem_of_getElem? hat
  refine ⟨outer, hat, ?_⟩
  rw [List.perm_ext_iff_of_nodup (h.nodup_around loop) (h.nodup_cons_around houter)]
  intro other
  rw [h.mem_around_iff hloop, List.mem_cons, h.mem_around_iff houter]
  constructor
  · rintro ⟨hother, hinsideOther⟩
    exact (hothers other hother hinsideOther).imp id fun hlarger => ⟨hother, hlarger⟩
  · rintro (rfl | ⟨hother, hlarger⟩)
    · exact ⟨houter, hinside⟩
    · exact ⟨hother, hinside.trans hlarger⟩

theorem length_around (h : Nested loops) (hloop : loop ∈ loops) (hparent : parent? loops loop = some i) :
    ∃ outer, loops[i]? = some outer
      ∧ (around loops loop).length = (around loops outer).length + 1 := by
  obtain ⟨outer, hat, hperm⟩ := h.perm_around hloop hparent
  exact ⟨outer, hat, hperm.length_eq⟩

/-- The loops that have the header of a loop are the loop and those around it. -/
theorem perm_holders (h : Nested loops) (hloop : loop ∈ loops) :
    (loops.filter (·.contains loop.header)).Perm (loop :: around loops loop) := by
  have hheader := h.header_mem loop hloop
  rw [List.perm_ext_iff_of_nodup (h.distinct.filter _) (h.nodup_cons_around hloop)]
  intro other
  rw [List.mem_filter, List.mem_cons, h.mem_around_iff hloop, NaturalLoop.contains,
    List.contains_iff_mem]
  constructor
  · rintro ⟨hother, hmem⟩
    by_cases heq : other = loop
    · exact .inl heq
    · rcases h.inside_or_inside hother hloop heq hmem hheader with hinside | hinside
      · exact absurd hmem (h.header_notMem other hother loop hloop hinside)
      · exact .inr ⟨hother, hinside⟩
  · rintro (rfl | ⟨hother, hinside⟩)
    · exact ⟨hloop, hheader⟩
    · exact ⟨hother, hinside.1 _ hheader⟩

/-- There are more loops around an inner loop than around an outer one. -/
theorem length_around_lt (h : Nested loops) (hinner : inner ∈ loops) (houter : outer ∈ loops)
    (hinside : Inside inner outer) : (around loops outer).length < (around loops inner).length := by
  have hsub : outer :: around loops outer ⊆ around loops inner := by
    intro other hother
    rcases List.mem_cons.1 hother with rfl | hother
    · exact (h.mem_around_iff hinner).2 ⟨houter, hinside⟩
    · obtain ⟨hmem, hlarger⟩ := (h.mem_around_iff houter).1 hother
      exact (h.mem_around_iff hinner).2 ⟨hmem, hinside.trans hlarger⟩
  exact (h.nodup_cons_around houter).length_le_of_subset hsub

end Nested

/-! ## §5. Loops that carry their places. -/

/-- The way up from a parent link: links are followed until there is none. -/
inductive ParentChain (loops : List NaturalLoop) : Option Nat → List Nat → Prop
  | top : ParentChain loops none []
  | up {i : Nat} {loop : NaturalLoop} {chain : List Nat} (hloop : loops[i]? = some loop)
      (hchain : ParentChain loops loop.parent chain) : ParentChain loops (some i) (i :: chain)

/-- The bounded way up is the whole way where the bound is not below its length. -/
theorem ParentChain.chainLength_eq {link : Option Nat} {chain : List Nat}
    (h : ParentChain loops link chain) {fuel : Nat} (hfuel : chain.length ≤ fuel) :
    chainLength (loops.map NaturalLoop.parent) fuel link = chain.length := by
  induction h generalizing fuel with
  | top => cases fuel <;> rfl
  | @up i loop chain hloop _ ih =>
    obtain ⟨less, rfl⟩ : ∃ less, fuel = less + 1 := by
      cases fuel with
      | zero => simp at hfuel
      | succ less => exact ⟨less, rfl⟩
    have hparent : ((loops.map NaturalLoop.parent)[i]?).join = loop.parent := by
      rw [List.getElem?_map, hloop]
      rfl
    rw [chainLength, hparent, ih (Nat.le_of_succ_le_succ hfuel)]
    rfl

/-- Nested loops with parent links and depths. -/
structure Placed (loops : List NaturalLoop) : Prop where
  nested : Nested loops
  parent : ∀ loop ∈ loops, loop.parent = parent? loops loop
  depth : ∀ loop ∈ loops,
    loop.depth = chainLength (loops.map NaturalLoop.parent) loops.length loop.parent + 1

namespace Placed

/-- Parent links lead through all loops around a loop, and end. -/
theorem exists_parentChain (h : Placed loops) (hloop : loop ∈ loops) :
    ∃ chain, ParentChain loops loop.parent chain ∧ chain.length = (around loops loop).length := by
  -- by induction on the number of loops around: there is one less around the parent
  induction hcount : (around loops loop).length generalizing loop with
  | zero =>
    have hnone : parent? loops loop = none := by
      rw [h.nested.parent?_eq_none_iff hloop]
      intro outer houter hinside
      have hmem := (h.nested.mem_around_iff hloop).2 ⟨houter, hinside⟩
      rw [List.length_eq_zero_iff.1 hcount] at hmem
      cases hmem
    rw [h.parent loop hloop, hnone]
    exact ⟨[], .top, rfl⟩
  | succ count ih =>
    cases hparent : parent? loops loop with
    | none =>
      have hpos : 0 < (around loops loop).length := by omega
      obtain ⟨outer, hmem⟩ := List.exists_mem_of_length_pos hpos
      obtain ⟨houter, hinside⟩ := (h.nested.mem_around_iff hloop).1 hmem
      exact absurd hinside ((h.nested.parent?_eq_none_iff hloop).1 hparent outer houter)
    | some i =>
      obtain ⟨outer, hat, hlength⟩ := h.nested.length_around hloop hparent
      obtain ⟨chain, hchain, hchainLength⟩ := ih (List.mem_of_getElem? hat) (by omega)
      rw [h.parent loop hloop, hparent]
      exact ⟨i :: chain, .up hat hchain, congrArg Nat.succ hchainLength⟩

theorem depth_eq (h : Placed loops) (hloop : loop ∈ loops) :
    loop.depth = (around loops loop).length + 1 := by
  obtain ⟨chain, hchain, hlength⟩ := h.exists_parentChain hloop
  have hbound : chain.length ≤ loops.length := by
    rw [hlength]
    exact List.length_filter_le _ _
  rw [h.depth loop hloop, hchain.chainLength_eq hbound, hlength]

end Placed

/-! ## §6. Innermost loops. -/

theorem mem_holders_iff {entry : Nat × NaturalLoop} :
    entry ∈ (loops.zipIdx.map Prod.swap).filter (fun other => other.2.contains block)
      ↔ loops[entry.1]? = some entry.2 ∧ block ∈ entry.2.members := by
  rw [List.mem_filter, mem_positions_iff, NaturalLoop.contains, List.contains_iff_mem]

theorem innermost?_eq_none_iff :
    innermost? loops block = none ↔ ∀ loop ∈ loops, block ∉ loop.members := by
  unfold innermost?
  rw [Option.map_eq_none_iff, Ascending.lastGreatest_eq_none_iff, List.eq_nil_iff_forall_not_mem]
  constructor
  · intro hnone loop hloop hblock
    obtain ⟨i, hi⟩ := List.mem_iff_getElem?.1 hloop
    exact hnone (i, loop) (mem_holders_iff.2 ⟨hi, hblock⟩)
  · intro hnone entry hentry
    obtain ⟨hat, hblock⟩ := mem_holders_iff.1 hentry
    exact hnone entry.2 (List.mem_of_getElem? hat) hblock

/-- The deepest loop of a block is the smallest loop that the block belongs to. -/
theorem Placed.innermost?_eq_some_iff (h : Placed loops) :
    innermost? loops block = some i ↔ IsSmallest loops (block ∈ ·.members) i := by
  apply eq_some_iff_isSmallest _ innermost?_eq_none_iff.1
  intro i hinnermost
  obtain ⟨⟨k, loop⟩, hdeepest, rfl⟩ := Option.map_eq_some_iff.1 hinnermost
  obtain ⟨hmem, hgreatest⟩ := Ascending.of_lastGreatest hdeepest
  obtain ⟨hat, hblock⟩ := mem_holders_iff.1 hmem
  have hloop := List.mem_of_getElem? hat
  refine ⟨loop, hat, hblock, fun j other hj hblockOther hne => ?_⟩
  have hother := List.mem_of_getElem? hj
  have hdifferent : loop ≠ other := by
    rintro rfl
    exact hne (h.nested.index_unique hj hat)
  rcases h.nested.inside_or_inside hloop hother hdifferent hblock hblockOther with hinside | hinside
  · exact hinside.length_lt (h.nested.nodup loop hloop)
  · -- a loop inside the chosen one would be deeper
    have hdepth : other.depth ≤ loop.depth :=
      hgreatest (j, other) (mem_holders_iff.2 ⟨hj, hblockOther⟩)
    have hmore := h.nested.length_around_lt hother hloop hinside
    rw [h.depth_eq hloop, h.depth_eq hother] at hdepth
    omega

/-! ## §7. Loops of a graph. -/

/-- A parent is found by members alone, so that it does not matter whether other loops have their places. -/
theorem parent?_nest (loops : List NaturalLoop) (loop : NaturalLoop) :
    parent? (nest loops) loop = parent? loops loop := by
  have hpositions : (nest loops).zipIdx.map Prod.swap
      = (loops.zipIdx.map Prod.swap).map (Prod.map id (placed loops)) := by
    rw [nest_eq_map, List.zipIdx_map, List.map_map, List.map_map]
    rfl
  unfold parent?
  rw [hpositions, List.filter_map, Ascending.firstLeast_map, Option.map_map]
  rfl

variable {instructions : List Instruction} {handlers : List ExceptionHandler} {graph : Graph}
  {cap : Nat} {dominators : Dominators}

theorem nodup_members (graph : Graph) (dominators : Dominators) (header : Nat) :
    (members graph dominators header).Nodup := by
  unfold members
  exact List.nodup_range.filter _

theorem nested_find (hb : graph.Built instructions handlers) (hd : dominators.Describes graph) :
    Nested (find graph dominators) where
  distinct := by
    apply (pairwise_header_find graph dominators).imp
    rintro a b hlt rfl
    exact Nat.lt_irrefl _ hlt
  nodup loop hloop := by
    obtain ⟨-, -, hmembers, -⟩ := of_mem_find hloop
    rw [hmembers]
    exact nodup_members graph dominators loop.header
  meet a ha b hb' hne := by
    have hheaders : a.header ≠ b.header := by
      have hpairwise : (find graph dominators).Pairwise fun a b => a.header ≠ b.header :=
        (pairwise_header_find graph dominators).imp Nat.ne_of_lt
      have : Std.Symm fun a b : NaturalLoop => a.header ≠ b.header := ⟨fun _ _ => Ne.symm⟩
      exact hpairwise.forall ha hb' hne
    exact apart_or_inside (isNatural_of_mem_find hb hd ha) (isNatural_of_mem_find hb hd hb') hheaders
  header_mem loop hloop := ((isNatural_of_mem_find hb hd hloop).members _).2 (.inl rfl)
  header_notMem inner hinner outer houter hinside hmem := by
    -- each header would be on every path to the other
    have hinnerNatural := isNatural_of_mem_find hb hd hinner
    have houterNatural := isNatural_of_mem_find hb hd houter
    have hheaderInner : inner.header ∈ inner.members := (hinnerNatural.members _).2 (.inl rfl)
    have hto := ((houterNatural.members _).1 (hinside.1 _ hheaderInner)).onEveryPath
    have hback := ((hinnerNatural.members _).1 hmem).onEveryPath
    obtain ⟨latch, hlatch⟩ := houterNatural.nonempty
    have hsame := Graph.OnEveryPath.antisymm hlatch.reaches_header hto hback
    obtain ⟨-, block, hblock, hnot⟩ := hinside
    rw [houterNatural.members, hsame, ← hinnerNatural.members] at hblock
    exact hnot hblock

theorem placed_find (hb : graph.Built instructions handlers) (hd : dominators.Describes graph) :
    Placed (find graph dominators) := by
  have hplace : ∀ loop ∈ find graph dominators,
      loop.parent = parent? (find graph dominators) loop ∧ loop.depth = chainLength
        ((find graph dominators).map NaturalLoop.parent) (find graph dominators).length loop.parent + 1 := by
    intro loop hloop
    unfold find at hloop ⊢
    have hparents : (nest (separate graph dominators)).map NaturalLoop.parent
        = (separate graph dominators).map (parent? (separate graph dominators)) := by
      rw [nest_eq_map, List.map_map]
      rfl
    have hlength : (nest (separate graph dominators)).length = (separate graph dominators).length := by
      rw [nest_eq_map, List.length_map]
    rw [parent?_nest, hparents, hlength]
    rw [nest_eq_map] at hloop
    obtain ⟨separated, -, rfl⟩ := List.mem_map.1 hloop
    exact ⟨rfl, rfl⟩
  exact ⟨nested_find hb hd, fun loop hloop => (hplace loop hloop).1,
    fun loop hloop => (hplace loop hloop).2⟩

/-- **Loops carry their places.** The parent of a loop is the smallest loop that strictly contains it, parent
    links end, the depth of a loop is the number of loops that its header belongs to, and the innermost loop
    of a block is the smallest loop that the block belongs to. In both choices there is one smallest loop. -/
theorem find_placed (hbuild : Graph.build instructions handlers = .ok graph)
    (hcompute : Dominators.compute graph cap = .ok dominators) :
    (∀ loop ∈ find graph dominators, loop.members.Nodup
          ∧ (loop.parent = none ↔ ∀ outer ∈ find graph dominators, ¬ Inside loop outer)
          ∧ (∀ i, loop.parent = some i ↔ IsSmallest (find graph dominators) (Inside loop) i)
          ∧ loop.depth = (find graph dominators).countP (·.contains loop.header)
          ∧ ∃ chain, ParentChain (find graph dominators) loop.parent chain
              ∧ loop.depth = chain.length + 1)
      ∧ ∀ block,
          (innermost? (find graph dominators) block = none
              ↔ ∀ loop ∈ find graph dominators, block ∉ loop.members)
            ∧ ∀ i, innermost? (find graph dominators) block = some i
                ↔ IsSmallest (find graph dominators) (block ∈ ·.members) i := by
  have hb := Graph.built_of_build hbuild
  have hplaced := placed_find hb (Dominators.describes_of_compute hb hcompute)
  refine ⟨fun loop hloop => ?_, fun block =>
    ⟨innermost?_eq_none_iff, fun i => hplaced.innermost?_eq_some_iff⟩⟩
  rw [hplaced.parent loop hloop]
  refine ⟨hplaced.nested.nodup loop hloop, hplaced.nested.parent?_eq_none_iff hloop,
    fun i => hplaced.nested.parent?_eq_some_iff hloop, ?_, ?_⟩
  · rw [hplaced.depth_eq hloop, List.countP_eq_length_filter,
      (hplaced.nested.perm_holders hloop).length_eq, List.length_cons]
  · obtain ⟨chain, hchain, hlength⟩ := hplaced.exists_parentChain hloop
    rw [hplaced.parent loop hloop] at hchain
    exact ⟨chain, hchain, by rw [hplaced.depth_eq hloop, hlength]⟩

/-- In `loopInLoop` the loop by header 2 lies in the loop by header 1. -/
theorem find_loopInLoop : find nestedGraph (.ofSets nestedSets)
    = [⟨1, [1, 2, 3, 4], [4], 1, none⟩, ⟨2, [2, 3], [3], 2, some 0⟩] := by
  have hreachable : ∀ block ∈ nestedGraph.blocks.map Block.index,
      (Dominators.ofSets nestedSets).isReachable block = true := by decide
  have hbackwards : (fun block => (nestedGraph.predecessors block).filter
      (Dominators.ofSets nestedSets).isReachable) = nestedGraph.predecessors := by
    funext block
    rw [List.filter_eq_self]
    intro before hbefore
    exact hreachable before ((List.filter_sublist.map Block.index).subset hbefore)
  have hexploredOuter : explore nestedGraph.predecessors 6 [4] [1] = [1, 4, 2, 3] := by cbv
  have hexploredInner : explore nestedGraph.predecessors 6 [3] [2] = [2, 3] := by cbv
  have houter : members nestedGraph (.ofSets nestedSets) 1 = [1, 2, 3, 4] := by
    rw [members, hbackwards]
    exact congrArg (fun visited => (List.range 6).filter visited.contains) hexploredOuter
  have hinner : members nestedGraph (.ofSets nestedSets) 2 = [2, 3] := by
    rw [members, hbackwards]
    exact congrArg (fun visited => (List.range 6).filter visited.contains) hexploredInner
  have hseparate : separate nestedGraph (.ofSets nestedSets)
      = [⟨1, members nestedGraph (.ofSets nestedSets) 1, [4], 1, none⟩,
        ⟨2, members nestedGraph (.ofSets nestedSets) 2, [3], 1, none⟩] := rfl
  rw [find, hseparate, houter, hinner]
  decide

/-- The inner loop of `loopInLoop` has the outer one, at position 0, for its parent, and depth 2; block 4 is
    outside the inner loop. -/
theorem find_placed_loopInLoop :
    Graph.build loopInLoop [] = .ok nestedGraph
      ∧ Dominators.compute nestedGraph 4 = .ok (.ofSets nestedSets)
      ∧ ⟨2, [2, 3], [3], 2, some 0⟩ ∈ find nestedGraph (.ofSets nestedSets)
      ∧ (∃ outer, (find nestedGraph (.ofSets nestedSets))[0]? = some outer
          ∧ Inside ⟨2, [2, 3], [3], 2, some 0⟩ outer)
      ∧ (find nestedGraph (.ofSets nestedSets)).countP (·.contains 2) = 2
      ∧ (∃ chain, ParentChain (find nestedGraph (.ofSets nestedSets)) (some 0) chain
          ∧ 2 = chain.length + 1)
      ∧ ∃ loop, (find nestedGraph (.ofSets nestedSets))[0]? = some loop ∧ 4 ∈ loop.members := by
  have hmem : ⟨2, [2, 3], [3], 2, some 0⟩ ∈ find nestedGraph (.ofSets nestedSets) := by
    rw [find_loopInLoop]
    decide
  have hinnermost : innermost? (find nestedGraph (.ofSets nestedSets)) 4 = some 0 := by
    rw [find_loopInLoop]
    decide
  obtain ⟨hloops, hblocks⟩ := find_placed build_loopInLoop compute_nestedGraph
  obtain ⟨-, -, hparent, hdepth, hchain⟩ := hloops _ hmem
  obtain ⟨outer, houter, hinside, -⟩ := (hparent 0).1 rfl
  obtain ⟨loop, hloop, hblock, -⟩ := ((hblocks 4).2 0).1 hinnermost
  exact ⟨build_loopInLoop, compute_nestedGraph, hmem, ⟨outer, houter, hinside⟩, hdepth.symm, hchain,
    loop, hloop, hblock⟩

end LoopNest

end PatchPresence
