/-
  PatchPresence.Proofs.Layout.Relocation — code whose offsets are moved, and its flow graph.

  Offsets are names with an order. A map that keeps the order of the offsets which a method body mentions
  gives a body with the same leaders, the same blocks and the same edges: every question that is asked of an
  offset while the graph is built is whether it equals another or comes before it.

  Main result:
    * `Graph.build_relocate` — the graph of relocated code is the relocated graph.
-/
import Mathlib.Data.List.Basic
import Mathlib.Data.List.Find
import PatchPresence.Proofs.Flow.Build

namespace PatchPresence

/-! ## §1. Maps that keep the order of some offsets. -/

/-- A map that keeps the order of the given offsets. -/
def IncreasingOn (move : Nat → Nat) (marks : List Nat) : Prop :=
  ∀ a ∈ marks, ∀ b ∈ marks, a < b → move a < move b

namespace IncreasingOn

variable {move : Nat → Nat} {marks : List Nat} {a b : Nat}

theorem lt_iff (h : IncreasingOn move marks) (ha : a ∈ marks) (hb : b ∈ marks) :
    move a < move b ↔ a < b := by
  refine ⟨fun hlt => ?_, h a ha b hb⟩
  rcases Nat.lt_trichotomy a b with hab | rfl | hba
  · exact hab
  · omega
  · have := h b hb a ha hba
    omega

theorem le_iff (h : IncreasingOn move marks) (ha : a ∈ marks) (hb : b ∈ marks) :
    move a ≤ move b ↔ a ≤ b := by
  have := h.lt_iff hb ha
  omega

theorem eq_iff (h : IncreasingOn move marks) (ha : a ∈ marks) (hb : b ∈ marks) :
    move a = move b ↔ a = b := by
  have hab := h.lt_iff ha hb
  have hba := h.lt_iff hb ha
  omega

theorem contains_map (h : IncreasingOn move marks) {xs : List Nat} (hxs : ∀ x ∈ xs, x ∈ marks)
    (ha : a ∈ marks) : (xs.map move).contains (move a) = xs.contains a := by
  rw [Bool.eq_iff_iff, List.contains_iff_mem, List.contains_iff_mem, List.mem_map]
  constructor
  · rintro ⟨x, hx, heq⟩
    exact (h.eq_iff (hxs x hx) ha).1 heq ▸ hx
  · exact fun hmem => ⟨a, hmem, rfl⟩

end IncreasingOn

/-! ## §2. Relocated code. -/

variable (move : Nat → Nat)

/-- The operand with its targets moved. -/
def Operand.relocate : Operand → Operand
  | .branch target => .branch (move target)
  | .switch fallback cases => .switch (move fallback) (cases.map fun entry => (entry.1, move entry.2))
  | other => other

/-- The instruction at its new offset, with its targets moved. -/
def Instruction.relocate (inst : Instruction) : Instruction :=
  { inst with offset := move inst.offset, operand := inst.operand.relocate move }

/-- The handler with its landmarks moved. -/
def ExceptionHandler.relocate (handler : ExceptionHandler) : ExceptionHandler :=
  { handler with
    start := move handler.start
    stop := move handler.stop
    handler := move handler.handler }

/-- The method body with every offset, target and landmark moved. -/
def MethodBody.relocate (body : MethodBody) : MethodBody :=
  { body with
    instructions := body.instructions.map (Instruction.relocate move)
    handlers := body.handlers.map (ExceptionHandler.relocate move) }

/-- The block with its instructions relocated. -/
def Block.relocate (block : Block) : Block :=
  { block with first := block.first.relocate move, rest := block.rest.map (Instruction.relocate move) }

/-- The graph with the instructions of its blocks relocated. -/
def Graph.relocate (graph : Graph) : Graph := ⟨graph.blocks.map (Block.relocate move)⟩

/-- Offsets that code mentions: those of instructions, their targets and the landmarks of handlers. -/
def landmarks (instructions : List Instruction) (handlers : List ExceptionHandler) : List Nat :=
  instructions.flatMap (fun inst => inst.offset :: inst.targets)
    ++ handlers.flatMap fun handler => [handler.start, handler.stop, handler.handler]

/-- Offsets that a method body mentions. -/
def MethodBody.landmarks (body : MethodBody) : List Nat :=
  PatchPresence.landmarks body.instructions body.handlers

variable {move} {instructions : List Instruction} {handlers : List ExceptionHandler} {marks : List Nat}

theorem offset_mem_landmarks {inst : Instruction} (h : inst ∈ instructions) :
    inst.offset ∈ landmarks instructions handlers :=
  List.mem_append_left _ (List.mem_flatMap.2 ⟨inst, h, List.mem_cons_self⟩)

theorem target_mem_landmarks {inst : Instruction} {target : Nat} (h : inst ∈ instructions)
    (htarget : target ∈ inst.targets) : target ∈ landmarks instructions handlers :=
  List.mem_append_left _ (List.mem_flatMap.2 ⟨inst, h, List.mem_cons_of_mem _ htarget⟩)

theorem handler_mem_landmarks {handler : ExceptionHandler} {offset : Nat} (h : handler ∈ handlers)
    (hoffset : offset ∈ [handler.start, handler.stop, handler.handler]) :
    offset ∈ landmarks instructions handlers :=
  List.mem_append_right _ (List.mem_flatMap.2 ⟨handler, h, hoffset⟩)

namespace Instruction

@[simp] theorem relocate_offset (inst : Instruction) : (inst.relocate move).offset = move inst.offset := rfl

@[simp] theorem relocate_opcode (inst : Instruction) : (inst.relocate move).opcode = inst.opcode := rfl

theorem relocate_operand (inst : Instruction) :
    (inst.relocate move).operand = inst.operand.relocate move := rfl

@[simp] theorem relocate_targets (inst : Instruction) :
    (inst.relocate move).targets = inst.targets.map move := by
  unfold targets
  rw [relocate_operand]
  cases inst.operand with
  | switch fallback cases =>
    simp only [Operand.relocate, List.map_cons, List.map_map]
    rfl
  | _ => rfl

@[simp] theorem relocate_endsBlock (inst : Instruction) :
    (inst.relocate move).endsBlock = inst.endsBlock := by
  unfold endsBlock
  rw [relocate_targets, relocate_opcode, List.isEmpty_map]

end Instruction

namespace Block

@[simp] theorem relocate_index (block : Block) : (block.relocate move).index = block.index := rfl

@[simp] theorem relocate_instructions (block : Block) :
    (block.relocate move).instructions = block.instructions.map (Instruction.relocate move) := rfl

@[simp] theorem relocate_last (block : Block) :
    (block.relocate move).last = block.last.relocate move := by
  unfold last
  show ((block.rest.map (Instruction.relocate move)).getLast?).getD (block.first.relocate move) = _
  rw [List.getLast?_map, Option.getD_map]

@[simp] theorem relocate_startOffset (block : Block) :
    (block.relocate move).startOffset = move block.startOffset := rfl

end Block

theorem ExceptionHandler.relocate_protects {handler : ExceptionHandler} {offset : Nat}
    (hmove : IncreasingOn move marks) (hstart : handler.start ∈ marks) (hstop : handler.stop ∈ marks)
    (hoffset : offset ∈ marks) :
    (handler.relocate move).protects (move offset) = handler.protects offset := by
  unfold protects relocate
  rw [Bool.eq_iff_iff]
  simp only [Bool.and_eq_true, decide_eq_true_eq, hmove.le_iff hstart hoffset,
    hmove.lt_iff hoffset hstop]

namespace Graph

/-! ## §3. Checks. -/

theorem checkIncreasing_relocate (hmove : IncreasingOn move marks)
    (hmarks : ∀ inst ∈ instructions, inst.offset ∈ marks)
    (h : checkIncreasing instructions = .ok ()) :
    checkIncreasing (instructions.map (Instruction.relocate move)) = .ok () := by
  fun_induction checkIncreasing instructions with
  | case1 a b rest hle => simp at h
  | case2 a b rest hlt ih =>
    obtain ⟨ha, hrest⟩ := List.forall_mem_cons.1 hmarks
    have hb : b.offset ∈ marks := hrest b List.mem_cons_self
    rw [List.map_cons, List.map_cons, checkIncreasing, Instruction.relocate_offset,
      Instruction.relocate_offset, if_neg (by rw [hmove.le_iff hb ha]; exact hlt)]
    exact ih hrest h
  | case3 instructions hshort =>
    rcases instructions with _ | ⟨a, _ | ⟨b, rest⟩⟩
    · rfl
    · rfl
    · exact absurd rfl (hshort a b rest)

theorem checkAligned_relocate {offsets : List Nat} {landmark : Landmark} {offset reportedAt : Nat}
    (h : checkAligned offsets landmark offset reportedAt = .ok ()) (reportedAt' : Nat) :
    checkAligned (offsets.map move) landmark (move offset) reportedAt' = .ok () := by
  rw [checkAligned_eq_ok_iff] at h ⊢
  exact List.mem_map_of_mem h

theorem checkTargets_relocate {offsets : List Nat} {inst : Instruction}
    (h : checkTargets offsets inst = .ok ()) :
    checkTargets (offsets.map move) (inst.relocate move) = .ok () := by
  unfold checkTargets at h ⊢
  rw [forM_eq_ok_iff] at h ⊢
  intro target htarget
  rw [Instruction.relocate_targets] at htarget
  obtain ⟨old, hold, rfl⟩ := List.mem_map.1 htarget
  exact checkAligned_relocate (h old hold) _

/-- Behind the last instruction a range may still end, and only there it need not end at one. -/
theorem checkHandler_relocate {offsets : List Nat} {lastOffset : Nat} {handler : ExceptionHandler}
    (hmove : IncreasingOn move marks) (hstop : handler.stop ∈ marks) (hlast : lastOffset ∈ marks)
    (h : checkHandler offsets lastOffset handler = .ok ()) :
    checkHandler (offsets.map move) (move lastOffset) (handler.relocate move) = .ok () := by
  unfold checkHandler at h ⊢
  obtain ⟨⟨⟩, hhandler, h⟩ := bind_eq_ok_iff.1 h
  obtain ⟨⟨⟩, hstart, h⟩ := bind_eq_ok_iff.1 h
  refine bind_eq_ok_iff.2 ⟨(), checkAligned_relocate hhandler _,
    bind_eq_ok_iff.2 ⟨(), checkAligned_relocate hstart _, ?_⟩⟩
  show (if move handler.stop ≤ move lastOffset then
    checkAligned (offsets.map move) .rangeEnd (move handler.stop) (move handler.stop) else pure ()) = .ok ()
  -- a range may end behind the code, and does so before and behind the move
  by_cases hle : handler.stop ≤ lastOffset
  · rw [if_pos hle] at h
    rw [if_pos ((hmove.le_iff hstop hlast).2 hle)]
    exact checkAligned_relocate h _
  · rw [if_neg fun hmoved => hle ((hmove.le_iff hstop hlast).1 hmoved)]
    rfl

/-! ## §4. Blocks. -/

/-- Cutting a mapped list cuts at the same places when the same elements lead. -/
theorem cut_map {α β : Type} (leads : α → Bool) {leadsMapped : β → Bool} (f : α → β) {xs : List α}
    (h : ∀ x ∈ xs, leadsMapped (f x) = leads x) :
    cut leadsMapped (xs.map f) = (cut leads xs).map fun part => (f part.1, part.2.map f) := by
  fun_induction cut leads xs with
  | case1 => rfl
  | case2 a rest hcut ih =>
    have hmapped := ih (List.forall_mem_cons.1 h).2
    rw [hcut] at hmapped
    simp only [List.map_cons, cut, hmapped]
    rfl
  -- whether `b` starts a part is asked of `b`, which stands first in the rest of the list
  | case3 a rest b bs parts hcut hleads ih =>
    have hrest := (List.forall_mem_cons.1 h).2
    have hmapped := ih hrest
    obtain ⟨tail, htail⟩ := head?_of_cut hcut
    have hb := hrest b (htail ▸ List.mem_cons_self)
    rw [hcut] at hmapped
    simp only [List.map_cons, cut, hmapped, hb, hleads]
    rfl
  | case4 a rest b bs parts hcut hleads ih =>
    have hrest := (List.forall_mem_cons.1 h).2
    have hmapped := ih hrest
    obtain ⟨tail, htail⟩ := head?_of_cut hcut
    have hb := hrest b (htail ▸ List.mem_cons_self)
    rw [hcut] at hmapped
    simp only [List.map_cons, cut, hmapped, hb, hleads]
    rfl

theorem followers_relocate (instructions : List Instruction) :
    followers (instructions.map (Instruction.relocate move)) = (followers instructions).map move := by
  fun_induction followers instructions with
  | case1 a b rest hends ih =>
    simp only [List.map_cons] at ih ⊢
    rw [followers, Instruction.relocate_endsBlock, if_pos hends, ih]
    rfl
  | case2 a b rest hends ih =>
    simp only [List.map_cons] at ih ⊢
    rw [followers, Instruction.relocate_endsBlock, if_neg hends, ih]
  | case3 instructions hshort =>
    rcases instructions with _ | ⟨a, _ | ⟨b, rest⟩⟩
    · rfl
    · rfl
    · exact absurd rfl (hshort a b rest)

theorem leaders_relocate (instructions : List Instruction) (handlers : List ExceptionHandler) :
    leaders (instructions.map (Instruction.relocate move)) (handlers.map (ExceptionHandler.relocate move))
      = (leaders instructions handlers).map move := by
  unfold leaders
  simp only [List.map_append, followers_relocate, List.flatMap_map, List.map_flatMap, ← List.map_take,
    List.map_map, Instruction.relocate_targets]
  rfl

theorem mem_instructions_of_mem_followers {offset : Nat} (h : offset ∈ followers instructions) :
    ∃ inst ∈ instructions, inst.offset = offset := by
  fun_induction followers instructions with
  | case1 a b rest hends ih =>
    rcases List.mem_cons.1 h with rfl | h
    · exact ⟨b, List.mem_cons_of_mem _ List.mem_cons_self, rfl⟩
    · obtain ⟨inst, hinst, heq⟩ := ih h
      exact ⟨inst, List.mem_cons_of_mem _ hinst, heq⟩
  | case2 a b rest hends ih =>
    obtain ⟨inst, hinst, heq⟩ := ih h
    exact ⟨inst, List.mem_cons_of_mem _ hinst, heq⟩
  | case3 instructions hshort => simp at h

theorem leaders_subset_landmarks :
    ∀ offset ∈ leaders instructions handlers, offset ∈ landmarks instructions handlers := by
  intro offset h
  unfold leaders at h
  simp only [List.mem_append] at h
  rcases h with ((hfirst | htarget) | hfollower) | hlandmark
  · obtain ⟨inst, hinst, rfl⟩ := List.mem_map.1 hfirst
    exact offset_mem_landmarks (List.mem_of_mem_take hinst)
  · obtain ⟨inst, hinst, htarget⟩ := List.mem_flatMap.1 htarget
    exact target_mem_landmarks hinst htarget
  · obtain ⟨inst, hinst, rfl⟩ := mem_instructions_of_mem_followers hfollower
    exact offset_mem_landmarks hinst
  · obtain ⟨handler, hhandler, hoffset⟩ := List.mem_flatMap.1 hlandmark
    refine handler_mem_landmarks hhandler ?_
    simp only [List.mem_cons, List.not_mem_nil, or_false] at hoffset ⊢
    rcases hoffset with rfl | rfl | rfl
    · exact .inr (.inr rfl)
    · exact .inl rfl
    · exact .inr (.inl rfl)

/-- The blocks of relocated code are the relocated blocks. -/
theorem cutBlocks_relocate (hmove : IncreasingOn move (landmarks instructions handlers)) :
    cutBlocks (instructions.map (Instruction.relocate move)) (handlers.map (ExceptionHandler.relocate move))
      = (cutBlocks instructions handlers).map (Block.relocate move) := by
  unfold cutBlocks
  dsimp only
  rw [leaders_relocate, cut_map (fun inst => (leaders instructions handlers).contains inst.offset)
    (Instruction.relocate move)]
  · -- the number of a block is its place, so that the lists are compared place by place
    apply List.ext_getElem?
    intro i
    rw [List.getElem?_mapIdx, List.getElem?_map, List.getElem?_map, List.getElem?_mapIdx, Option.map_map,
      Option.map_map]
    rfl
  · intro inst hinst
    exact hmove.contains_map leaders_subset_landmarks (offset_mem_landmarks hinst)

/-! ## §5. Edges. -/

variable {blocks : List Block} {block : Block}

theorem blockStartingAt?_relocate (hmove : IncreasingOn move marks)
    (hstarts : ∀ block ∈ blocks, block.startOffset ∈ marks) {offset : Nat} (hoffset : offset ∈ marks) :
    blockStartingAt? (blocks.map (Block.relocate move)) (move offset) = blockStartingAt? blocks offset := by
  unfold blockStartingAt?
  induction blocks with
  | nil => rfl
  | cons first blocks ih =>
    obtain ⟨hfirst, hrest⟩ := List.forall_mem_cons.1 hstarts
    rw [List.map_cons, List.findIdx?_cons, List.findIdx?_cons, ih hrest, Block.relocate_startOffset]
    have hsame : (move first.startOffset == move offset) = (first.startOffset == offset) := by
      rw [Bool.eq_iff_iff, beq_iff_eq, beq_iff_eq, hmove.eq_iff hfirst hoffset]
    rw [hsame]

theorem jumpTarget_relocate (hmove : IncreasingOn move marks)
    (hstarts : ∀ block ∈ blocks, block.startOffset ∈ marks) {offset index : Nat} (hoffset : offset ∈ marks)
    (h : jumpTarget blocks offset = .ok index) :
    jumpTarget (blocks.map (Block.relocate move)) (move offset) = .ok index := by
  rw [jumpTarget_eq_ok_iff] at h ⊢
  rw [blockStartingAt?_relocate hmove hstarts hoffset, h]

theorem flowEdges_relocate {index : Nat} {edges : List Edge} (hmove : IncreasingOn move marks)
    (hstarts : ∀ block ∈ blocks, block.startOffset ∈ marks)
    (htargets : ∀ target ∈ block.last.targets, target ∈ marks)
    (h : flowEdges blocks index block = .ok edges) :
    flowEdges (blocks.map (Block.relocate move)) index (block.relocate move) = .ok edges := by
  unfold flowEdges at h ⊢
  simp only [Block.relocate_last, Instruction.relocate_opcode, Instruction.relocate_targets,
    Instruction.relocate_operand, List.length_map] at h ⊢
  have hjump : ∀ target ∈ block.last.targets, ∀ index, jumpTarget blocks target = .ok index →
      jumpTarget (blocks.map (Block.relocate move)) (move target) = .ok index :=
    fun target htarget index => jumpTarget_relocate hmove hstarts (htargets target htarget)
  have hbranch : ∀ target, block.last.operand = .branch target → target ∈ block.last.targets := by
    intro target hoperand
    simp [Instruction.targets, hoperand]
  split at h
  · next hexit =>
    rw [if_pos hexit]
    exact h
  · next hnotExit =>
    rw [if_neg hnotExit]
    split at h
    · next hswitch =>
      rw [if_pos hswitch]
      obtain ⟨entered, hentered, h⟩ := bind_eq_ok_iff.1 h
      have hmoved := mapM_map_eq_ok move id hjump hentered
      rw [List.map_id] at hmoved
      exact bind_eq_ok_iff.2 ⟨entered, hmoved, h⟩
    · next hnotSwitch =>
      rw [if_neg hnotSwitch]
      split at h
      · next hconditional =>
        rw [if_pos hconditional]
        split at h
        · next target hoperand =>
          obtain ⟨entered, hentered, h⟩ := bind_eq_ok_iff.1 h
          rw [hoperand]
          exact bind_eq_ok_iff.2 ⟨entered, hjump target (hbranch target hoperand) entered hentered, h⟩
        · cases h
      · next hnotConditional =>
        rw [if_neg hnotConditional]
        split at h
        · next hunconditional =>
          rw [if_pos hunconditional]
          split at h
          · next target hoperand =>
            obtain ⟨entered, hentered, h⟩ := bind_eq_ok_iff.1 h
            rw [hoperand]
            exact bind_eq_ok_iff.2 ⟨entered, hjump target (hbranch target hoperand) entered hentered, h⟩
          · cases h
        · next hfalls =>
          rw [if_neg hfalls]
          exact h

theorem exceptionEdges_relocate (hmove : IncreasingOn move marks)
    (hstarts : ∀ block ∈ blocks, block.startOffset ∈ marks)
    (hhandlers : ∀ handler ∈ handlers, ∀ offset ∈ [handler.start, handler.stop, handler.handler],
      offset ∈ marks)
    (hblock : block.startOffset ∈ marks) :
    exceptionEdges (blocks.map (Block.relocate move)) (handlers.map (ExceptionHandler.relocate move))
        (block.relocate move)
      = exceptionEdges blocks handlers block := by
  unfold exceptionEdges
  dsimp only
  rw [List.filterMap_map]
  congr 2
  apply List.filterMap_congr
  intro handler hhandler
  have hmarks := hhandlers handler hhandler
  have hprotects := ExceptionHandler.relocate_protects hmove (hmarks handler.start (by simp))
    (hmarks handler.stop (by simp)) hblock
  have hstarting := blockStartingAt?_relocate hmove hstarts (hmarks handler.handler (by simp))
  show (if (handler.relocate move).protects (move block.startOffset) = true then
    blockStartingAt? (blocks.map (Block.relocate move)) (move handler.handler) else none) = _
  rw [hprotects, hstarting]

/-! ## §6. The graph. -/

theorem connect_relocate {connected : Block}
    (hmove : IncreasingOn move (landmarks instructions handlers))
    (hblock : block ∈ cutBlocks instructions handlers)
    (h : connect (cutBlocks instructions handlers) handlers block = .ok connected) :
    connect ((cutBlocks instructions handlers).map (Block.relocate move))
        (handlers.map (ExceptionHandler.relocate move)) (block.relocate move)
      = .ok (connected.relocate move) := by
  have hstarts : ∀ block ∈ cutBlocks instructions handlers,
      block.startOffset ∈ landmarks instructions handlers :=
    fun block hmem => offset_mem_landmarks (mem_of_mem_cutBlocks hmem List.mem_cons_self)
  have htargets : ∀ target ∈ block.last.targets, target ∈ landmarks instructions handlers :=
    fun target => target_mem_landmarks (mem_of_mem_cutBlocks hblock block.last_mem)
  unfold connect at h ⊢
  obtain ⟨edges, hedges, h⟩ := bind_eq_ok_iff.1 h
  simp only [pure, Except.pure, Except.ok.injEq] at h
  subst h
  refine bind_eq_ok_iff.2 ⟨edges, flowEdges_relocate hmove hstarts htargets hedges, ?_⟩
  rw [exceptionEdges_relocate hmove hstarts (fun handler hmem offset => handler_mem_landmarks hmem)
    (hstarts block hblock)]
  rfl

/-- **The graph of relocated code is the relocated graph.** -/
theorem build_relocate {graph : Graph} (hmove : IncreasingOn move (landmarks instructions handlers))
    (h : build instructions handlers = .ok graph) :
    build (instructions.map (Instruction.relocate move)) (handlers.map (ExceptionHandler.relocate move))
      = .ok (graph.relocate move) := by
  obtain ⟨last, hlast, hincreasing, htargets, hhandlers, hconnected⟩ := build_eq_ok_iff.1 h
  have hlastMem : last ∈ instructions := List.mem_of_getLast? hlast
  have hoffsets : (instructions.map (Instruction.relocate move)).map Instruction.offset
      = (instructions.map Instruction.offset).map move := by
    rw [List.map_map, List.map_map]
    rfl
  refine build_eq_ok_iff.2 ⟨last.relocate move, by rw [List.getLast?_map, hlast]; rfl, ?_, ?_, ?_, ?_⟩
  · exact checkIncreasing_relocate hmove (fun inst => offset_mem_landmarks) hincreasing
  · rw [forM_eq_ok_iff] at htargets ⊢
    rw [hoffsets]
    intro moved hmoved
    obtain ⟨inst, hinst, rfl⟩ := List.mem_map.1 hmoved
    exact checkTargets_relocate (htargets inst hinst)
  · rw [forM_eq_ok_iff] at hhandlers ⊢
    rw [hoffsets]
    intro moved hmoved
    obtain ⟨handler, hhandler, rfl⟩ := List.mem_map.1 hmoved
    exact checkHandler_relocate hmove (handler_mem_landmarks hhandler (by simp))
      (offset_mem_landmarks hlastMem) (hhandlers handler hhandler)
  · rw [cutBlocks_relocate hmove]
    exact mapM_map_eq_ok (Block.relocate move) (Block.relocate move)
      (fun block hblock connected => connect_relocate hmove hblock) hconnected

end Graph

end PatchPresence
