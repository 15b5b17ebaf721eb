/-
  PatchPresence.Proofs.Flow.Live — the blocks and instructions that control can come to.

  Main results:
    * `Graph.Built.mem_live_iff` — live instructions are those of the blocks that can be reached.
    * `Graph.Built.strict_liveOffsets` — their offsets ascend, so that any choice of them is listed by offset.
    * `Graph.Built.perm_live` — any order of the blocks that can be reached leads through the live instructions.
-/
import PatchPresence.Proofs.Flow.Detour
import PatchPresence.Proofs.Flow.Partition
import PatchPresence.Proofs.KeyOrder

namespace PatchPresence

namespace Graph

variable {instructions : List Instruction} {handlers : List ExceptionHandler} {graph : Graph}
  {inst : Instruction}

theorem strict_reachable (graph : Graph) : Ascending.Strict graph.reachable := by
  unfold Graph.reachable
  exact (List.pairwise_lt_range.filter _).imp fun hlt => Nat.compare_eq_lt.2 hlt

/-- Instructions of the blocks that can be reached, in the order of the code. -/
def live (graph : Graph) : List Instruction :=
  (graph.blocks.filter fun block => graph.reachable.contains block.index).flatMap Block.instructions

/-- Offsets of chosen live instructions. -/
def liveOffsets (graph : Graph) (choose : Instruction → Bool) : List Nat :=
  (graph.live.filter choose).map Instruction.offset

theorem mem_liveOffsets {choose : Instruction → Bool} {offset : Nat} :
    offset ∈ graph.liveOffsets choose
      ↔ ∃ inst ∈ graph.live, choose inst = true ∧ inst.offset = offset := by
  simp only [liveOffsets, List.mem_map, List.mem_filter, and_assoc]

namespace Built

theorem live_sublist (hb : graph.Built instructions handlers) : graph.live.Sublist instructions := by
  have hsub : graph.live.Sublist (graph.blocks.flatMap Block.instructions) :=
    List.filter_sublist.flatMap Block.instructions
  rwa [hb.flatMap_blocks] at hsub

theorem mem_live_iff (hb : graph.Built instructions handlers) :
    inst ∈ graph.live
      ↔ ∃ i block, graph.block? i = some block ∧ graph.Reaches i ∧ inst ∈ block.instructions := by
  unfold live
  rw [List.mem_flatMap]
  constructor
  · rintro ⟨block, hblock, hinst⟩
    obtain ⟨hmem, hreachable⟩ := List.mem_filter.1 hblock
    have hreaches := hb.mem_reachable_iff.1 (List.contains_iff_mem.1 hreachable)
    exact ⟨block.index, block, hb.mem_blocks_iff.1 hmem, hreaches, hinst⟩
  · rintro ⟨i, block, hblock, hreaches, hinst⟩
    obtain rfl := hb.index_eq hblock
    refine ⟨block, List.mem_filter.2 ⟨List.mem_of_getElem? hblock, ?_⟩, hinst⟩
    exact List.contains_iff_mem.2 (hb.mem_reachable_iff.2 hreaches)

theorem strict_liveOffsets (hb : graph.Built instructions handlers) (choose : Instruction → Bool) :
    Ascending.Strict (graph.liveOffsets choose) := by
  have hincreasing : (graph.live.filter choose).Pairwise fun a b => a.offset < b.offset :=
    hb.increasing.sublist (List.filter_sublist.trans hb.live_sublist)
  show ((graph.live.filter choose).map Instruction.offset).Pairwise _
  rw [List.pairwise_map]
  exact hincreasing.imp fun hlt => Nat.compare_eq_lt.2 hlt

/-- Any order that has every reachable block once leads through the live instructions. -/
theorem perm_live (hb : graph.Built instructions handlers) {order : List Nat}
    (hnodup : order.Nodup) (hmem : ∀ b, b ∈ order ↔ graph.Reaches b) :
    ((order.filterMap graph.block?).flatMap Block.instructions).Perm graph.live := by
  apply List.Perm.flatMap_right
  have hwalked : (order.filterMap graph.block?).Nodup := by
    apply hnodup.filterMap
    intro i j block hi hj
    rw [← hb.index_eq hi, ← hb.index_eq hj]
  rw [List.perm_ext_iff_of_nodup hwalked (hb.nodup_blocks.filter _)]
  intro block
  rw [List.mem_filterMap, List.mem_filter, List.contains_iff_mem]
  constructor
  · rintro ⟨i, hi, hblock⟩
    obtain rfl := hb.index_eq hblock
    exact ⟨List.mem_of_getElem? hblock, hb.mem_reachable_iff.2 ((hmem _).1 hi)⟩
  · rintro ⟨hblock, hreachable⟩
    exact ⟨block.index, (hmem _).2 (hb.mem_reachable_iff.1 hreachable), hb.mem_blocks_iff.1 hblock⟩

end Built

end Graph

end PatchPresence
