/-
  PatchPresence.Proofs.Flow.Build — what a graph that was built says about the code it was built from.

  `Built` collects what the checks of `Graph.build` guarantee of the code and how the blocks of the graph
  come from the parts that the code is cut into. Everything later about built graphs starts from it.

  Main results:
    * `built_of_build` — a build that succeeds gives a `Built` graph.
    * `Built.mem_successors_iff` — where the edges out of a block lead: to the next block, to the blocks
      at jump targets, and to the handlers whose range holds the start of the block.
-/
import PatchPresence.Proofs.Flow.Cut
import PatchPresence.Proofs.Outcome

namespace PatchPresence

/-! ## §1. How control leaves an instruction. -/

/-- Control may go on to the next instruction. -/
def Instruction.fallsThrough (inst : Instruction) : Bool :=
  !inst.opcode.isExit && !inst.opcode.isSwitch && !inst.opcode.isUnconditional

/-- Control may go to a target of the operand. -/
def Instruction.jumps (inst : Instruction) : Bool :=
  inst.opcode.isConditional || inst.opcode.isUnconditional || inst.opcode.isSwitch

namespace Opcode

/-- No opcode belongs to two of the classes that steer control flow. -/
theorem classes_disjoint (opcode : Opcode) :
    (opcode.isExit → opcode.isConditional = false ∧ opcode.isUnconditional = false
        ∧ opcode.isSwitch = false)
      ∧ (opcode.isSwitch → opcode.isConditional = false ∧ opcode.isUnconditional = false)
      ∧ (opcode.isConditional → opcode.isUnconditional = false) := by
  simp only [isExit, isReturn, isThrow, isSubroutineReturn, isConditional, isUnconditional, isSwitch,
    UInt8.le_iff_toNat_le, UInt8.toNat_ofNat, ← UInt8.toNat_inj, Bool.and_eq_true, Bool.or_eq_true,
    decide_eq_true_eq, beq_iff_eq, Bool.or_eq_false_iff, Bool.and_eq_false_iff,
    decide_eq_false_iff_not, beq_eq_false_iff_ne, ne_eq]
  omega

end Opcode

theorem Block.last_mem (block : Block) : block.last ∈ block.instructions :=
  Graph.partLast_mem (block.first, block.rest)

namespace Graph

/-! ## §2. What the checks guarantee. -/

theorem checkAligned_eq_ok_iff {offsets : List Nat} {landmark : Landmark} {offset reportedAt : Nat} :
    checkAligned offsets landmark offset reportedAt = .ok () ↔ offset ∈ offsets := by
  unfold checkAligned
  split <;> simp_all

theorem pairwise_of_checkIncreasing {instructions : List Instruction}
    (h : checkIncreasing instructions = .ok ()) :
    instructions.Pairwise fun a b => a.offset < b.offset := by
  fun_induction checkIncreasing instructions with
  | case1 a b rest hle => simp at h
  | case2 a b rest hlt ih =>
    have hrest := ih h
    refine List.pairwise_cons.2 ⟨fun c hc => ?_, hrest⟩
    rcases List.mem_cons.1 hc with rfl | hc
    · omega
    · have := (List.pairwise_cons.1 hrest).1 c hc
      omega
  | case3 instructions hshort =>
    match instructions, hshort with
    | [], _ => exact List.Pairwise.nil
    | [a], _ => exact List.pairwise_singleton _ _
    | a :: b :: rest, hshort => exact absurd rfl (hshort a b rest)

/-- The offset of an instruction. -/
def Starts (instructions : List Instruction) (offset : Nat) : Prop :=
  ∃ inst ∈ instructions, inst.offset = offset

theorem starts_iff_mem_map {instructions : List Instruction} {offset : Nat} :
    Starts instructions offset ↔ offset ∈ instructions.map Instruction.offset := by
  simp [Starts]

/-- A graph with the code that it was built from. -/
structure Built (instructions : List Instruction) (handlers : List ExceptionHandler)
    (graph : Graph) : Prop where
  nonempty : instructions ≠ []
  increasing : instructions.Pairwise fun a b => a.offset < b.offset
  targets : ∀ inst ∈ instructions, ∀ target ∈ inst.targets, Starts instructions target
  handler : ∀ handler ∈ handlers, Starts instructions handler.handler
  start : ∀ handler ∈ handlers, Starts instructions handler.start
  stop : ∀ handler ∈ handlers, Starts instructions handler.stop
    ∨ ∀ inst ∈ instructions, inst.offset < handler.stop
  size : graph.size = (cutBlocks instructions handlers).length
  block : ∀ (i : Nat) (block : Block), graph.block? i = some block →
    ∃ bare edges, (cutBlocks instructions handlers)[i]? = some bare
      ∧ flowEdges (cutBlocks instructions handlers) bare.index bare = .ok edges
      ∧ block = { bare with
          edges := edges ++ exceptionEdges (cutBlocks instructions handlers) handlers bare }

variable {instructions : List Instruction} {handlers : List ExceptionHandler} {graph : Graph}

theorem starts_of_checkHandler {handler : ExceptionHandler} {last : Instruction}
    (hlast : ∀ inst ∈ instructions, inst.offset ≤ last.offset)
    (h : checkHandler (instructions.map Instruction.offset) last.offset handler = .ok ()) :
    Starts instructions handler.handler ∧ Starts instructions handler.start
      ∧ (Starts instructions handler.stop
          ∨ ∀ inst ∈ instructions, inst.offset < handler.stop) := by
  unfold checkHandler at h
  obtain ⟨⟨⟩, hhandler, h⟩ := bind_eq_ok_iff.1 h
  obtain ⟨⟨⟩, hstart, h⟩ := bind_eq_ok_iff.1 h
  rw [checkAligned_eq_ok_iff, ← starts_iff_mem_map] at hhandler hstart
  refine ⟨hhandler, hstart, ?_⟩
  split at h
  · rw [checkAligned_eq_ok_iff, ← starts_iff_mem_map] at h
    exact .inl h
  · refine .inr fun inst hinst => ?_
    have := hlast inst hinst
    omega

/-- The last of a list with growing offsets has the greatest. -/
theorem le_getLast_offset {last : Instruction}
    (hincreasing : instructions.Pairwise fun a b => a.offset < b.offset)
    (hlast : instructions.getLast? = some last) :
    ∀ inst ∈ instructions, inst.offset ≤ last.offset := by
  obtain ⟨front, rfl⟩ := List.getLast?_eq_some_iff.1 hlast
  intro inst hinst
  rcases List.mem_append.1 hinst with hfront | hself
  · exact Nat.le_of_lt ((List.pairwise_append.1 hincreasing).2.2 inst hfront last (by simp))
  · rw [List.mem_singleton] at hself
    exact Nat.le_of_eq (by rw [hself])

/-- The block with its edges. -/
def connect (blocks : List Block) (handlers : List ExceptionHandler) (block : Block) : Outcome Block := do
  let edges ← flowEdges blocks block.index block
  return { block with edges := edges ++ exceptionEdges blocks handlers block }

/-- A build succeeds when its checks pass and every block gets its edges. -/
theorem build_eq_ok_iff :
    build instructions handlers = .ok graph
      ↔ ∃ last, instructions.getLast? = some last
          ∧ checkIncreasing instructions = .ok ()
          ∧ instructions.forM (checkTargets (instructions.map Instruction.offset)) = .ok ()
          ∧ handlers.forM (checkHandler (instructions.map Instruction.offset) last.offset) = .ok ()
          ∧ (cutBlocks instructions handlers).mapM (connect (cutBlocks instructions handlers) handlers)
            = .ok graph.blocks := by
  unfold build
  cases hlast : instructions.getLast? with
  | none => simp [throw, throwThe, MonadExceptOf.throw]
  | some last =>
    simp only [bind_eq_ok_iff, pure, Except.pure, Except.ok.injEq, Option.some.injEq, exists_eq_left']
    constructor
    · rintro ⟨⟨⟩, hincreasing, ⟨⟩, htargets, ⟨⟩, hhandlers, connected, hconnected, rfl⟩
      exact ⟨hincreasing, htargets, hhandlers, hconnected⟩
    · rintro ⟨hincreasing, htargets, hhandlers, hconnected⟩
      exact ⟨(), hincreasing, (), htargets, (), hhandlers, graph.blocks, hconnected, rfl⟩

/-- A build that succeeds gives a graph that belongs to its code. -/
theorem built_of_build (h : build instructions handlers = .ok graph) :
    Built instructions handlers graph := by
  obtain ⟨last, hlast, hincreasing, htargets, hhandlers, hconnected⟩ := build_eq_ok_iff.1 h
  have hpairwise := pairwise_of_checkIncreasing hincreasing
  have hle := le_getLast_offset hpairwise hlast
  rw [forM_eq_ok_iff] at htargets hhandlers
  have hlandmarks := fun handler hmem => starts_of_checkHandler hle (hhandlers handler hmem)
  obtain ⟨hsize, hat⟩ := getElem?_of_mapM_eq_ok hconnected
  exact {
    nonempty := by rintro rfl; simp at hlast
    increasing := hpairwise
    targets := by
      intro inst hinst target htarget
      have hcheck := (forM_eq_ok_iff _).1 (htargets inst hinst) target htarget
      exact starts_iff_mem_map.2 (checkAligned_eq_ok_iff.1 hcheck)
    handler := fun handler hmem => (hlandmarks handler hmem).1
    start := fun handler hmem => (hlandmarks handler hmem).2.1
    stop := fun handler hmem => (hlandmarks handler hmem).2.2
    size := hsize
    block := by
      intro i block hblock
      obtain ⟨bare, hbare, hedges⟩ := hat i block hblock
      obtain ⟨edges, hflow, hpure⟩ := bind_eq_ok_iff.1 hedges
      simp only [pure, Except.pure, Except.ok.injEq] at hpure
      exact ⟨bare, edges, hbare, hflow, hpure.symm⟩ }

/-! ## §3. Blocks. -/

/-- Whether a block starts at an instruction. -/
def leadsBlock (instructions : List Instruction) (handlers : List ExceptionHandler)
    (inst : Instruction) : Bool :=
  (leaders instructions handlers).contains inst.offset

/-- The parts that the code is cut into. -/
def parts (instructions : List Instruction) (handlers : List ExceptionHandler) :
    List (Instruction × List Instruction) :=
  cut (leadsBlock instructions handlers) instructions

/-- The block of a part, still without edges. -/
def bareBlock (index : Nat) (part : Instruction × List Instruction) : Block :=
  { index, first := part.1, rest := part.2, edges := [] }

theorem cutBlocks_getElem? (i : Nat) :
    (cutBlocks instructions handlers)[i]? = ((parts instructions handlers)[i]?).map (bareBlock i) := by
  unfold cutBlocks
  rw [List.getElem?_mapIdx]
  rfl

theorem length_cutBlocks :
    (cutBlocks instructions handlers).length = (parts instructions handlers).length := by
  unfold cutBlocks
  rw [List.length_mapIdx]
  rfl

theorem mem_of_mem_cutBlocks {block : Block} {inst : Instruction}
    (hblock : block ∈ cutBlocks instructions handlers) (hinst : inst ∈ block.instructions) :
    inst ∈ instructions := by
  obtain ⟨i, hi⟩ := List.mem_iff_getElem?.1 hblock
  rw [cutBlocks_getElem?, Option.map_eq_some_iff] at hi
  obtain ⟨part, hpart, rfl⟩ := hi
  exact mem_iff_mem_cut.2 ⟨part, List.mem_of_getElem? hpart, hinst⟩

theorem blockStartingAt?_eq_some {offset i : Nat}
    (h : blockStartingAt? (cutBlocks instructions handlers) offset = some i) :
    ∃ part, (parts instructions handlers)[i]? = some part ∧ part.1.offset = offset := by
  unfold blockStartingAt? at h
  obtain ⟨hlt, hstart, -⟩ := List.findIdx?_eq_some_iff_getElem.1 h
  have hat := List.getElem?_eq_getElem hlt
  rw [cutBlocks_getElem?, Option.map_eq_some_iff] at hat
  obtain ⟨part, hpart, hbare⟩ := hat
  refine ⟨part, hpart, ?_⟩
  rw [← hbare] at hstart
  simpa [bareBlock, Block.startOffset] using hstart

theorem exists_blockStartingAt? {offset i : Nat} {part : Instruction × List Instruction}
    (hpart : (parts instructions handlers)[i]? = some part) (hoffset : part.1.offset = offset) :
    ∃ j, blockStartingAt? (cutBlocks instructions handlers) offset = some j := by
  unfold blockStartingAt?
  rw [← Option.isSome_iff_exists, List.findIdx?_isSome, List.any_eq_true]
  refine ⟨bareBlock i part, List.mem_of_getElem? (i := i) ?_, ?_⟩
  · rw [cutBlocks_getElem?, hpart]
    rfl
  · simpa [bareBlock, Block.startOffset] using hoffset

/-! ## §4. Edges. -/

theorem jumpTarget_eq_ok_iff {blocks : List Block} {offset i : Nat} :
    jumpTarget blocks offset = .ok i ↔ blockStartingAt? blocks offset = some i := by
  unfold jumpTarget
  cases blockStartingAt? blocks offset <;> simp

theorem filterMap_block?_cons (target : Nat) (kind : EdgeKind) (edges : List Edge) :
    (⟨.block target, kind⟩ :: edges).filterMap Edge.block?
      = target :: edges.filterMap Edge.block? := rfl

/-- The edge to the next block stands when there is one. -/
theorem mem_nextEdges_iff {index count target : Nat} {kind : EdgeKind} :
    target ∈ ((if index + 1 < count then [EdgeTarget.block (index + 1)] else []).map
        (Edge.mk · kind)).filterMap Edge.block?
      ↔ index + 1 < count ∧ target = index + 1 := by
  split
  · next hlt => simp [Edge.block?, hlt]
  · next hge => simp [hge]

/-- The only target of a branch. -/
theorem exists_branch_target_iff {blocks : List Block} {inst : Instruction} {offset taken target : Nat}
    (hoperand : inst.operand = .branch offset) (htaken : jumpTarget blocks offset = .ok taken) :
    (∃ other ∈ inst.targets, blockStartingAt? blocks other = some target) ↔ target = taken := by
  rw [jumpTarget_eq_ok_iff] at htaken
  have htargets : inst.targets = [offset] := by simp [Instruction.targets, hoperand]
  rw [htargets]
  simp only [List.mem_singleton, exists_eq_left, htaken, Option.some.injEq]
  exact eq_comm

/-- Where control goes behind a block, exceptions apart. -/
theorem mem_flowEdges_iff {blocks : List Block} {index : Nat} {block : Block} {edges : List Edge}
    (h : flowEdges blocks index block = .ok edges) (target : Nat) :
    target ∈ edges.filterMap Edge.block?
      ↔ (block.last.fallsThrough = true ∧ index + 1 < blocks.length ∧ target = index + 1)
        ∨ (block.last.jumps = true
            ∧ ∃ offset ∈ block.last.targets, blockStartingAt? blocks offset = some target) := by
  obtain ⟨hexit, hswitch, hconditional⟩ := Opcode.classes_disjoint block.last.opcode
  unfold flowEdges at h
  unfold Instruction.fallsThrough Instruction.jumps
  dsimp only at h
  split at h
  · next hclass =>
    simp only [Except.ok.injEq] at h
    subst h
    simp [Edge.block?, hclass, hexit hclass]
  · next hnotExit =>
    split at h
    · next hclass =>
      -- a table of jumps: every target, each block once
      obtain ⟨targets, htargets, h⟩ := bind_eq_ok_iff.1 h
      simp only [pure, Except.pure, Except.ok.injEq] at h
      subst h
      have hmem := mem_of_mapM_eq_ok htargets target
      simp only [jumpTarget_eq_ok_iff] at hmem
      simp [List.filterMap_map, Function.comp_def, Edge.block?, hclass, hmem, List.mem_eraseDups]
    · next hnotSwitch =>
      split at h
      · next hclass =>
        split at h
        · next offset hoperand =>
          obtain ⟨taken, htaken, h⟩ := bind_eq_ok_iff.1 h
          simp only [pure, Except.pure, Except.ok.injEq] at h
          subst h
          rw [exists_branch_target_iff hoperand htaken, filterMap_block?_cons, List.mem_cons,
            mem_nextEdges_iff]
          simp [hnotExit, hnotSwitch, hclass, hconditional hclass, or_comm]
        · simp at h
      · next hnotConditional =>
        split at h
        · next hclass =>
          split at h
          · next offset hoperand =>
            obtain ⟨taken, htaken, h⟩ := bind_eq_ok_iff.1 h
            simp only [pure, Except.pure, Except.ok.injEq] at h
            subst h
            rw [exists_branch_target_iff hoperand htaken, filterMap_block?_cons]
            simp [hclass]
          · simp at h
        · next hnotUnconditional =>
          simp only [Except.ok.injEq] at h
          subst h
          rw [mem_nextEdges_iff]
          simp [hnotExit, hnotSwitch, hnotConditional, hnotUnconditional]

theorem mem_exceptionEdges_iff {blocks : List Block} {block : Block} (target : Nat) :
    target ∈ (exceptionEdges blocks handlers block).filterMap Edge.block?
      ↔ ∃ handler ∈ handlers, handler.protects block.startOffset = true
          ∧ blockStartingAt? blocks handler.handler = some target := by
  simp [exceptionEdges, List.filterMap_map, Function.comp_def, Edge.block?, List.mem_eraseDups]

/-- How control may get from the part at `i` to the start of a block. -/
inductive LeadsTo (instructions : List Instruction) (handlers : List ExceptionHandler) (i : Nat)
    (part : Instruction × List Instruction) : Nat → Prop
  | next (hfalls : (partLast part).fallsThrough = true)
      (hlt : i + 1 < (cutBlocks instructions handlers).length) :
      LeadsTo instructions handlers i part (i + 1)
  | jump {offset target : Nat} (hjumps : (partLast part).jumps = true)
      (hoffset : offset ∈ (partLast part).targets)
      (hstart : blockStartingAt? (cutBlocks instructions handlers) offset = some target) :
      LeadsTo instructions handlers i part target
  | raise {handler : ExceptionHandler} {target : Nat} (hhandler : handler ∈ handlers)
      (hprotects : handler.protects part.1.offset = true)
      (hstart : blockStartingAt? (cutBlocks instructions handlers) handler.handler = some target) :
      LeadsTo instructions handlers i part target

theorem mem_edges_iff {i : Nat} {part : Instruction × List Instruction} {edges : List Edge}
    (hflow : flowEdges (cutBlocks instructions handlers) i (bareBlock i part) = .ok edges)
    (target : Nat) :
    target ∈ (edges ++ exceptionEdges (cutBlocks instructions handlers) handlers
        (bareBlock i part)).filterMap Edge.block?
      ↔ LeadsTo instructions handlers i part target := by
  rw [List.filterMap_append, List.mem_append, mem_flowEdges_iff hflow, mem_exceptionEdges_iff]
  constructor
  · rintro ((⟨hfalls, hlt, rfl⟩ | ⟨hjumps, offset, hoffset, hstart⟩) | ⟨handler, hmem, hin, hstart⟩)
    · exact .next hfalls hlt
    · exact .jump hjumps hoffset hstart
    · exact .raise hmem hin hstart
  · intro h
    cases h with
    | next hfalls hlt => exact .inl (.inl ⟨hfalls, hlt, rfl⟩)
    | jump hjumps hoffset hstart => exact .inl (.inr ⟨hjumps, _, hoffset, hstart⟩)
    | raise hmem hin hstart => exact .inr ⟨_, hmem, hin, hstart⟩

/-! ## §5. The graph. -/

namespace Built

variable {i : Nat} {block : Block} {part : Instruction × List Instruction}

/-- A block of the graph is that of a part, with its edges. -/
theorem part_of_block (hb : Built instructions handlers graph) (hblock : graph.block? i = some block) :
    ∃ part edges, (parts instructions handlers)[i]? = some part
      ∧ flowEdges (cutBlocks instructions handlers) i (bareBlock i part) = .ok edges
      ∧ block = { bareBlock i part with
          edges := edges
            ++ exceptionEdges (cutBlocks instructions handlers) handlers (bareBlock i part) } := by
  obtain ⟨bare, edges, hbare, hflow, rfl⟩ := hb.block i block hblock
  rw [cutBlocks_getElem?, Option.map_eq_some_iff] at hbare
  obtain ⟨part, hpart, rfl⟩ := hbare
  exact ⟨part, edges, hpart, hflow, rfl⟩

theorem size_eq (hb : Built instructions handlers graph) :
    graph.size = (parts instructions handlers).length := by
  rw [hb.size, length_cutBlocks]

/-- Every part has its block in the graph. -/
theorem block_of_part (hb : Built instructions handlers graph)
    (hpart : (parts instructions handlers)[i]? = some part) :
    ∃ block, graph.block? i = some block ∧ block.first = part.1 ∧ block.rest = part.2 := by
  have hlt : i < graph.size := by
    rw [hb.size_eq]
    exact (List.getElem?_eq_some_iff.1 hpart).1
  have hblock : graph.block? i = some graph.blocks[i] := List.getElem?_eq_getElem hlt
  refine ⟨graph.blocks[i], hblock, ?_⟩
  obtain ⟨other, edges, hother, -, heq⟩ := hb.part_of_block hblock
  rw [hpart, Option.some.injEq] at hother
  subst hother
  rw [heq]
  exact ⟨rfl, rfl⟩

theorem index_eq (hb : Built instructions handlers graph) (hblock : graph.block? i = some block) :
    block.index = i := by
  obtain ⟨part, edges, -, -, rfl⟩ := hb.part_of_block hblock
  rfl

/-- Where edges out of a block lead: to the next block, to blocks at jump targets, and to the handlers
    whose range holds the start of the block. -/
theorem mem_successors_iff (hb : Built instructions handlers graph) (target : Nat) :
    target ∈ graph.successors i
      ↔ ∃ part, (parts instructions handlers)[i]? = some part
          ∧ LeadsTo instructions handlers i part target := by
  constructor
  · intro htarget
    unfold Graph.successors at htarget
    cases hblock : graph.block? i with
    | none => simp [hblock] at htarget
    | some block =>
      obtain ⟨part, edges, hpart, hflow, rfl⟩ := hb.part_of_block hblock
      rw [hblock] at htarget
      exact ⟨part, hpart, (mem_edges_iff hflow target).1 htarget⟩
  · rintro ⟨part, hpart, hleads⟩
    obtain ⟨block, hblock, -, -⟩ := hb.block_of_part hpart
    obtain ⟨other, edges, hother, hflow, rfl⟩ := hb.part_of_block hblock
    rw [hpart, Option.some.injEq] at hother
    subst hother
    unfold Graph.successors
    rw [hblock]
    exact (mem_edges_iff hflow target).2 hleads

/-- Edges stay in the graph. -/
theorem lt_size_of_mem_successors (hb : Built instructions handlers graph) {target : Nat}
    (h : target ∈ graph.successors i) : target < graph.size := by
  have hstarting : ∀ offset,
      blockStartingAt? (cutBlocks instructions handlers) offset = some target →
      target < graph.size := by
    intro offset hoffset
    obtain ⟨part, hpart, -⟩ := blockStartingAt?_eq_some hoffset
    rw [hb.size_eq]
    exact (List.getElem?_eq_some_iff.1 hpart).1
  obtain ⟨part, -, hleads⟩ := (hb.mem_successors_iff target).1 h
  cases hleads with
  | next _ hlt => exact hb.size ▸ hlt
  | jump _ _ hstart => exact hstarting _ hstart
  | raise _ _ hstart => exact hstarting _ hstart

/-- There is a block to enter. -/
theorem size_pos (hb : Built instructions handlers graph) : 0 < graph.size := by
  rw [hb.size_eq, List.length_pos_iff]
  intro hnil
  have hflat := flatten_cut (leadsBlock instructions handlers) instructions
  rw [show cut (leadsBlock instructions handlers) instructions = [] from hnil] at hflat
  exact hb.nonempty hflat.symm

end Built

end Graph

end PatchPresence
