/-
  PatchPresence.Proofs.Flow.Partition — the blocks of a flow graph cut its code at the leaders.

  `Code.Leads` lists the reasons for a block to start at an instruction. The first instruction has a reason
  too, so that the cut, which does not ask for one there, starts blocks at leaders only. Blocks cover
  disjoint spans of offsets in ascending order; between two spans there may be a gap, because an instruction
  may be longer than one offset. A search by halving therefore finds the span of an offset, or none.

  Main results:
    * `Graph.Built.exists_first_eq_iff` — blocks start at the leaders and nowhere else.
    * `Graph.Built.blockOfOffset?_eq_some_iff` — an offset is looked up in the block that spans it.
    * `Graph.partitions_of_build` — both, with the order and the contents of the blocks.
-/
import PatchPresence.Proofs.Bisect
import PatchPresence.Proofs.Flow.Simulation

namespace PatchPresence

/-! ## §1. Reasons to start a block. -/

/-- Why a block has to start at an instruction. -/
inductive Code.Leads (instructions : List Instruction) (handlers : List ExceptionHandler) :
    Instruction → Prop
  | first {inst : Instruction} (hfirst : instructions.head? = some inst) :
      Leads instructions handlers inst
  | target {inst jump : Instruction} (hjump : jump ∈ instructions) (htarget : inst.offset ∈ jump.targets) :
      Leads instructions handlers inst
  | behind {inst before : Instruction} (hfollows : Follows instructions before inst)
      (hends : before.targets ≠ [] ∨ before.opcode.isConditional = true
        ∨ before.opcode.isUnconditional = true ∨ before.opcode.isSwitch = true
        ∨ before.opcode.isExit = true) :
      Leads instructions handlers inst
  | handler {inst : Instruction} {handler : ExceptionHandler} (hmem : handler ∈ handlers)
      (hoffset : inst.offset = handler.handler) : Leads instructions handlers inst
  | rangeStart {inst : Instruction} {handler : ExceptionHandler} (hmem : handler ∈ handlers)
      (hoffset : inst.offset = handler.start) : Leads instructions handlers inst
  | rangeEnd {inst : Instruction} {handler : ExceptionHandler} (hmem : handler ∈ handlers)
      (hoffset : inst.offset = handler.stop) : Leads instructions handlers inst

theorem Instruction.endsBlock_iff (inst : Instruction) :
    inst.endsBlock = true ↔ inst.targets ≠ [] ∨ inst.opcode.isConditional = true
      ∨ inst.opcode.isUnconditional = true ∨ inst.opcode.isSwitch = true ∨ inst.opcode.isExit = true := by
  simp [Instruction.endsBlock, Opcode.endsBlock, or_assoc]

namespace Graph

variable {instructions : List Instruction} {handlers : List ExceptionHandler} {graph : Graph}
  {inst : Instruction}

theorem exists_follows_of_mem_followers {offset : Nat} (h : offset ∈ followers instructions) :
    ∃ before leader, Follows instructions before leader ∧ before.endsBlock = true
      ∧ leader.offset = offset := by
  fun_induction followers instructions with
  | case1 a b rest hends ih =>
    rcases List.mem_cons.1 h with rfl | h
    · exact ⟨a, b, .here, hends, rfl⟩
    · obtain ⟨before, leader, hfollows, hbefore, hoffset⟩ := ih h
      exact ⟨before, leader, .there hfollows, hbefore, hoffset⟩
  | case2 a b rest hends ih =>
    obtain ⟨before, leader, hfollows, hbefore, hoffset⟩ := ih h
    exact ⟨before, leader, .there hfollows, hbefore, hoffset⟩
  | case3 => cases h

theorem leadsBlock_of_leads (h : Code.Leads instructions handlers inst) :
    leadsBlock instructions handlers inst = true := by
  cases h with
  | first hfirst =>
    have hmem : inst.offset ∈ (instructions.take 1).map Instruction.offset := by
      obtain ⟨rest, rfl⟩ := List.head?_eq_some_iff.1 hfirst
      exact List.mem_cons_self
    simp only [leadsBlock, leaders, List.contains_iff_mem, List.mem_append]
    exact .inl (.inl (.inl hmem))
  | target hjump htarget => exact leadsBlock_of_mem_targets hjump htarget
  | @behind before hfollows hends => exact leadsBlock_of_follows hfollows (before.endsBlock_iff.2 hends)
  | handler hmem hoffset => exact leadsBlock_of_landmark hmem (by simp [hoffset])
  | rangeStart hmem hoffset => exact leadsBlock_of_landmark hmem (by simp [hoffset])
  | rangeEnd hmem hoffset => exact leadsBlock_of_landmark hmem (by simp [hoffset])

namespace Built

/-- Leaders are found by their offset, which belongs to one instruction only. -/
theorem leads_of_leadsBlock (hb : Built instructions handlers graph) (hinst : inst ∈ instructions)
    (h : leadsBlock instructions handlers inst = true) : Code.Leads instructions handlers inst := by
  simp only [leadsBlock, leaders, List.contains_iff_mem, List.mem_append] at h
  rcases h with ((hfirst | htarget) | hbehind) | hlandmark
  · obtain ⟨first, hmem, hoffset⟩ := List.mem_map.1 hfirst
    have hhead : instructions.head? = some first := by
      cases instructions with
      | nil => cases hmem
      | cons a rest => rw [List.mem_singleton.1 hmem]; rfl
    have hsame : first = inst := hb.eq_of_offset_eq (List.mem_of_mem_take hmem) hinst hoffset
    exact .first (hsame ▸ hhead)
  · obtain ⟨jump, hjump, htarget⟩ := List.mem_flatMap.1 htarget
    exact .target hjump htarget
  · obtain ⟨before, leader, hfollows, hends, hoffset⟩ := exists_follows_of_mem_followers hbehind
    have hsame : leader = inst := hb.eq_of_offset_eq hfollows.mem_right hinst hoffset
    exact .behind (hsame ▸ hfollows) (before.endsBlock_iff.1 hends)
  · obtain ⟨handler, hmem, hoffset⟩ := List.mem_flatMap.1 hlandmark
    simp only [List.mem_cons, List.not_mem_nil, or_false] at hoffset
    rcases hoffset with hoffset | hoffset | hoffset
    · exact .handler hmem hoffset
    · exact .rangeStart hmem hoffset
    · exact .rangeEnd hmem hoffset

/-- A part starts with a leader: the first part with the first instruction, every other behind a border. -/
theorem leadsBlock_first (hb : Built instructions handlers graph) {i : Nat}
    {part : Instruction × List Instruction} (hpart : (parts instructions handlers)[i]? = some part) :
    leadsBlock instructions handlers part.1 = true := by
  cases i with
  | zero =>
    obtain ⟨first, hzero, hhead⟩ := hb.first_part
    obtain rfl := Option.some.inj (hpart.symm.trans hzero)
    exact leadsBlock_of_leads (.first hhead)
  | succ i =>
    have hlt : i < (parts instructions handlers).length := by
      have := (List.getElem?_eq_some_iff.1 hpart).1
      omega
    exact (follows_of_border (List.getElem?_eq_getElem hlt) hpart).2

/-- Blocks start at the leaders and nowhere else. -/
theorem exists_first_eq_iff (hb : Built instructions handlers graph) (hinst : inst ∈ instructions) :
    (∃ block ∈ graph.blocks, block.first = inst) ↔ Code.Leads instructions handlers inst := by
  constructor
  · rintro ⟨block, hblock, rfl⟩
    obtain ⟨part, edges, hpart, -, hparts⟩ := hb.part_of_block (hb.mem_blocks_iff.1 hblock)
    have hfirst : block.first = part.1 := by rw [hparts]; rfl
    rw [hfirst] at hinst ⊢
    exact hb.leads_of_leadsBlock hinst (hb.leadsBlock_first hpart)
  · intro hleads
    obtain ⟨i, part, hpart, hmem⟩ := exists_part handlers hinst
    obtain ⟨block, hblock, hfirst, -⟩ := hb.block_of_part hpart
    refine ⟨block, List.mem_of_getElem? hblock, ?_⟩
    rcases List.mem_cons.1 hmem with hself | hrest
    · exact hfirst.trans hself.symm
    · -- behind the first of a part no instruction leads
      have hnot := leads_eq_false_of_mem_rest (List.mem_of_getElem? hpart) hrest
      rw [leadsBlock_of_leads hleads] at hnot
      cases hnot

/-! ## §2. Contents of the blocks. -/

/-- The blocks put together are the code. -/
theorem flatMap_blocks (hb : Built instructions handlers graph) :
    graph.blocks.flatMap Block.instructions = instructions := by
  have hparts : graph.blocks.map Block.instructions
      = (parts instructions handlers).map partElements := by
    apply List.ext_getElem?
    intro i
    rw [List.getElem?_map, List.getElem?_map]
    cases hblock : graph.blocks[i]? with
    | none =>
      have hsize : (parts instructions handlers).length ≤ i := by
        rw [← hb.size_eq]
        exact List.getElem?_eq_none_iff.1 hblock
      rw [List.getElem?_eq_none hsize]
      rfl
    | some block =>
      obtain ⟨part, edges, hpart, -, rfl⟩ := hb.part_of_block hblock
      rw [hpart]
      rfl
  rw [List.flatMap_def, hparts, ← List.flatMap_def]
  exact flatten_cut (leadsBlock instructions handlers) instructions

theorem mem_of_mem_block (hb : Built instructions handlers graph) {block : Block}
    (hblock : block ∈ graph.blocks) (hinst : inst ∈ block.instructions) : inst ∈ instructions := by
  rw [← hb.flatMap_blocks]
  exact List.mem_flatMap.2 ⟨block, hblock, hinst⟩

theorem nodup_blocks (hb : Built instructions handlers graph) : graph.blocks.Nodup := by
  rw [List.Nodup, List.pairwise_iff_getElem]
  intro i j hi hj hlt heq
  have hindex : graph.blocks[i].index = i := hb.index_eq (List.getElem?_eq_getElem hi)
  have hindex' : graph.blocks[j].index = j := hb.index_eq (List.getElem?_eq_getElem hj)
  rw [heq] at hindex
  omega

/-! ## §3. Spans of offsets. -/

/-- Offsets grow inside a block and from each block to those behind it. -/
theorem pairwise_offsets (hb : Built instructions handlers graph) :
    (∀ block ∈ graph.blocks, block.instructions.Pairwise fun a b => a.offset < b.offset)
      ∧ graph.blocks.Pairwise fun x y =>
          ∀ a ∈ x.instructions, ∀ b ∈ y.instructions, a.offset < b.offset := by
  have hincreasing := hb.increasing
  rwa [← hb.flatMap_blocks, List.pairwise_flatMap] at hincreasing

/-- Offsets tell the instructions of two blocks apart. -/
theorem offset_ne_of_index_ne (hb : Built instructions handlers graph) {i j : Nat} {x y : Block}
    (hx : graph.block? i = some x) (hy : graph.block? j = some y) (hne : i ≠ j) {a b : Instruction}
    (ha : a ∈ x.instructions) (hinst : b ∈ y.instructions) : a.offset ≠ b.offset := by
  intro heq
  refine hne (index_eq_of_pairwise hb.pairwise_offsets.2 hx hy (fun hbefore => ?_) (fun hbefore => ?_))
  · exact Nat.ne_of_lt (hbefore a ha b hinst) heq
  · exact Nat.ne_of_lt (hbefore b hinst a ha) heq.symm

theorem startOffset_le_endOffset (hb : Built instructions handlers graph) {block : Block}
    (hblock : block ∈ graph.blocks) : block.startOffset ≤ block.endOffset := by
  have hinside := hb.pairwise_offsets.1 block hblock
  show block.first.offset ≤ block.last.offset
  rcases List.mem_cons.1 block.last_mem with hlast | hlast
  · exact Nat.le_of_eq (congrArg Instruction.offset hlast.symm)
  · exact Nat.le_of_lt ((List.pairwise_cons.1 hinside).1 block.last hlast)

/-- A block ends before the next one starts. -/
theorem pairwise_spans (hb : Built instructions handlers graph) :
    graph.blocks.Pairwise fun x y => x.endOffset < y.startOffset := by
  refine hb.pairwise_offsets.2.imp fun {x y} hbefore => ?_
  exact hbefore x.last x.last_mem y.first List.mem_cons_self

/-- The blocks that start at or before an offset stand in front of the others. -/
theorem partitioned_blocks (hb : Built instructions handlers graph) (offset : Nat) :
    Partitioned (fun block => block.startOffset ≤ offset) graph.blocks := by
  refine hb.pairwise_spans.imp_of_mem fun {x y} hx _ hbefore hy => ?_
  have hspan := hb.startOffset_le_endOffset hx
  simp only [decide_eq_true_eq] at hy ⊢
  omega

/-- An offset is looked up in the block that spans it. -/
theorem blockOfOffset?_eq_some_iff (hb : Built instructions handlers graph) {offset i : Nat} :
    graph.blockOfOffset? offset = some i
      ↔ ∃ block, graph.block? i = some block ∧ block.startOffset ≤ offset ∧ offset ≤ block.endOffset := by
  have hborder := lt_partitionPoint_iff (hb.partitioned_blocks offset)
  unfold blockOfOffset?
  generalize partitionPoint (fun block => decide (block.startOffset ≤ offset)) graph.blocks = border at hborder ⊢
  simp only [decide_eq_true_eq] at hborder
  constructor
  · intro h
    cases border with
    | zero => cases h
    | succ position =>
      obtain ⟨block, hblock, rfl⟩ := Option.map_eq_some_iff.1 h
      obtain ⟨hat, hend⟩ := Option.filter_eq_some_iff.1 hblock
      obtain ⟨other, hother, hstart⟩ := (hborder position).1 (by omega)
      obtain rfl := Option.some.inj (hat.symm.trans hother)
      rw [hb.index_eq hat]
      exact ⟨block, hat, hstart, by simpa using hend⟩
  · rintro ⟨block, hblock, hstart, hend⟩
    -- the block passes the test and the next one fails it, so the border is between them
    have hfront : i < border := (hborder i).2 ⟨block, hblock, hstart⟩
    have hbehind : ¬ i + 1 < border := by
      intro hlt
      obtain ⟨next, hnext, hnextStart⟩ := (hborder (i + 1)).1 hlt
      obtain ⟨hi, rfl⟩ := List.getElem?_eq_some_iff.1 hblock
      obtain ⟨hj, rfl⟩ := List.getElem?_eq_some_iff.1 hnext
      have hspans := List.pairwise_iff_getElem.1 hb.pairwise_spans i (i + 1) hi hj (by omega)
      omega
    obtain rfl : border = i + 1 := by omega
    refine Option.map_eq_some_iff.2 ⟨block, ?_, hb.index_eq hblock⟩
    exact Option.filter_eq_some_iff.2 ⟨hblock, by simpa using hend⟩

end Built

/-! ## §4. The partition. -/

/-- The blocks of a graph cut the code at its leaders, and offsets are looked up in the blocks that span
    them. -/
structure Partitions (graph : Graph) (instructions : List Instruction)
    (handlers : List ExceptionHandler) : Prop where
  nonempty : ∀ block ∈ graph.blocks, block.instructions ≠ []
  index : ∀ i block, graph.block? i = some block → block.index = i
  code : graph.blocks.flatMap Block.instructions = instructions
  starts : ∀ inst ∈ instructions,
    (∃ block ∈ graph.blocks, block.first = inst) ↔ Code.Leads instructions handlers inst
  successors : ∀ block ∈ graph.blocks, ∀ target ∈ block.successors, target < graph.size
  lookup : ∀ offset i, graph.blockOfOffset? offset = some i
    ↔ ∃ block, graph.block? i = some block ∧ block.startOffset ≤ offset ∧ offset ≤ block.endOffset

/-- **The blocks of a graph partition its code.** -/
theorem partitions_of_build (h : build instructions handlers = .ok graph) :
    graph.Partitions instructions handlers := by
  have hb := built_of_build h
  exact {
    nonempty := fun block _ => List.cons_ne_nil block.first block.rest
    index := fun i block => hb.index_eq
    code := hb.flatMap_blocks
    starts := fun inst => hb.exists_first_eq_iff
    successors := by
      intro block hblock target htarget
      apply hb.lt_size_of_mem_successors (i := block.index)
      unfold Graph.successors
      rw [hb.mem_blocks_iff.1 hblock]
      exact htarget
    lookup := fun offset i => hb.blockOfOffset?_eq_some_iff }

/-- A table of jumps, which is longer than one offset, and a handler for all of the code. -/
def tableJump : List Instruction :=
  [⟨0, 0x1a, .none, none⟩, ⟨1, 0xaa, .switch 20 [(0, 21)], none⟩, ⟨20, 0xb1, .none, none⟩,
    ⟨21, 0xbf, .none, none⟩]

/-- The table ends the first block, an offset inside the table is in no block, and every block is protected by
    the handler, which is a block of its own. -/
theorem partitions_of_build_tableJump :
    ∃ graph, build tableJump [⟨0, 30, 21, none⟩] = .ok graph
      ∧ graph.Partitions tableJump [⟨0, 30, 21, none⟩]
      ∧ graph.blockOfOffset? 1 = some 0 ∧ graph.blockOfOffset? 10 = none
      ∧ graph.blockOfOffset? 20 = some 1 := by
  let built : Graph := ⟨[
    ⟨0, ⟨0, 0x1a, .none, none⟩, [⟨1, 0xaa, .switch 20 [(0, 21)], none⟩],
      [⟨.block 1, .jump⟩, ⟨.block 2, .jump⟩, ⟨.block 2, .exception⟩]⟩,
    ⟨1, ⟨20, 0xb1, .none, none⟩, [], [⟨.exit, .leave⟩, ⟨.block 2, .exception⟩]⟩,
    ⟨2, ⟨21, 0xbf, .none, none⟩, [], [⟨.exit, .leave⟩, ⟨.block 2, .exception⟩]⟩]⟩
  have hbuild : build tableJump [⟨0, 30, 21, none⟩] = .ok built := by rfl
  exact ⟨built, hbuild, partitions_of_build hbuild, by decide +kernel⟩

end Graph

end PatchPresence
