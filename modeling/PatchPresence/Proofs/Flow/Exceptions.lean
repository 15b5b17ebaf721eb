/-
  PatchPresence.Proofs.Flow.Exceptions — the edges by which exceptions enter handlers.

  Only the first offset of a block is held against a protected range. This decides for all of its
  instructions: ranges start and end at leaders, or end behind the code, so no range parts a block. Ranges may
  be empty or inverted, cover their own handler, and share a handler with others.

  Main result:
    * `Graph.raise_mem_edges_iff` — a block has an edge to a handler exactly when one, and then each, of its
      instructions is in a protected range of that handler, and it has the edge once.
-/
import PatchPresence.Proofs.Collections
import PatchPresence.Proofs.Flow.Partition

namespace PatchPresence

/-- The edge by which an exception enters a handler. -/
def Edge.raise (index : Nat) : Edge := ⟨.block index, .exception⟩

namespace Graph

variable {instructions : List Instruction} {handlers : List ExceptionHandler} {graph : Graph}
  {blocks : List Block} {block : Block} {index : Nat}

/-! ## §1. Edges of a block. -/

/-- Control that leaves a block without an exception takes no edge of an exception. -/
theorem raise_notMem_flowEdges {edges : List Edge} (h : flowEdges blocks index block = .ok edges)
    (target : Nat) : Edge.raise target ∉ edges := by
  have hmap : ∀ (kind : EdgeKind) (targets : List EdgeTarget), kind ≠ .exception →
      Edge.raise target ∉ targets.map (Edge.mk · kind) := by
    intro kind targets hkind hmem
    obtain ⟨other, -, hother⟩ := List.mem_map.1 hmem
    exact hkind (congrArg Edge.kind hother)
  unfold flowEdges at h
  dsimp only at h
  split at h
  · obtain rfl := Except.ok.inj h
    simp [Edge.raise]
  · split at h
    · obtain ⟨targets, -, h⟩ := bind_eq_ok_iff.1 h
      obtain rfl := Except.ok.inj h
      simp [Edge.raise]
    · split at h
      · split at h
        · obtain ⟨taken, -, h⟩ := bind_eq_ok_iff.1 h
          obtain rfl := Except.ok.inj h
          rw [List.mem_cons, not_or]
          exact ⟨by simp [Edge.raise], hmap .conditionalFalse _ (by simp)⟩
        · cases h
      · split at h
        · split at h
          · obtain ⟨taken, -, h⟩ := bind_eq_ok_iff.1 h
            obtain rfl := Except.ok.inj h
            simp [Edge.raise]
          · cases h
        · obtain rfl := Except.ok.inj h
          exact hmap .fallThrough _ (by simp)

/-- Handlers whose range holds the start of a block. -/
theorem raise_mem_exceptionEdges_iff {target : Nat} :
    Edge.raise target ∈ exceptionEdges blocks handlers block
      ↔ ∃ handler ∈ handlers, handler.protects block.startOffset = true
          ∧ blockStartingAt? blocks handler.handler = some target := by
  simp [exceptionEdges, Edge.raise, List.mem_eraseDups]

theorem nodup_exceptionEdges : (exceptionEdges blocks handlers block).Nodup := by
  unfold exceptionEdges
  refine List.Pairwise.map _ (fun a b hne heq => hne ?_) (nodup_eraseDups _)
  injection heq with htarget
  injection htarget

/-! ## §2. Built graphs. -/

namespace Built

/-- A block is found at the offset where it starts, and at no other. -/
theorem blockStartingAt?_eq_some_iff (hb : Built instructions handlers graph)
    (hblock : graph.block? index = some block) {offset : Nat} :
    blockStartingAt? (cutBlocks instructions handlers) offset = some index ↔ offset = block.startOffset := by
  obtain ⟨part, edges, hpart, -, rfl⟩ := hb.part_of_block hblock
  show _ ↔ offset = part.1.offset
  constructor
  · intro hfound
    obtain ⟨other, hother, hoffset⟩ := blockStartingAt?_eq_some hfound
    obtain rfl := Option.some.inj (hpart.symm.trans hother)
    exact hoffset.symm
  · rintro rfl
    exact hb.blockStartingAt?_of_leads hpart List.mem_cons_self (hb.leadsBlock_first hpart)

/-- A protected range holds all instructions of a block or none. -/
theorem protects_iff (hb : Built instructions handlers graph) (hblock : graph.block? index = some block)
    {handler : ExceptionHandler} (hmem : handler ∈ handlers) {inst : Instruction}
    (hinst : inst ∈ block.instructions) :
    handler.start ≤ inst.offset ∧ inst.offset < handler.stop
      ↔ handler.protects block.startOffset = true := by
  obtain ⟨part, edges, hpart, -, rfl⟩ := hb.part_of_block hblock
  have hsame : handler.protects inst.offset = handler.protects part.1.offset :=
    hb.protects_eq (List.mem_of_getElem? hpart) hinst hmem
  show _ ↔ handler.protects part.1.offset = true
  rw [← hsame]
  simp [ExceptionHandler.protects]

/-- The edges of exceptions are those to handlers whose range holds the start of the block. -/
theorem raise_mem_edges_iff_protects (hb : Built instructions handlers graph)
    (hblock : graph.block? index = some block) {target : Nat} :
    Edge.raise target ∈ block.edges
      ↔ ∃ handler ∈ handlers, handler.protects block.startOffset = true
          ∧ blockStartingAt? (cutBlocks instructions handlers) handler.handler = some target := by
  obtain ⟨part, edges, -, hflow, rfl⟩ := hb.part_of_block hblock
  show Edge.raise target ∈ edges ++ _ ↔ _
  rw [List.mem_append, raise_mem_exceptionEdges_iff]
  exact or_iff_right (raise_notMem_flowEdges hflow target)

theorem count_raise_le_one (hb : Built instructions handlers graph)
    (hblock : graph.block? index = some block) (target : Nat) :
    block.edges.count (.raise target) ≤ 1 := by
  obtain ⟨part, edges, -, hflow, rfl⟩ := hb.part_of_block hblock
  show (edges ++ _).count _ ≤ 1
  rw [List.count_append, List.count_eq_zero.2 (raise_notMem_flowEdges hflow target), Nat.zero_add]
  exact List.nodup_iff_count.1 nodup_exceptionEdges _

end Built

/-- **Edges of exceptions are exact.** A block has an edge to a handler exactly when one of its instructions is
    in a protected range of a handler that starts there; a range that holds one instruction of a block holds
    them all; and no block has such an edge twice. -/
theorem raise_mem_edges_iff (hbuild : build instructions handlers = .ok graph) {i j : Nat}
    {source target : Block} (hsource : graph.block? i = some source) (htarget : graph.block? j = some target) :
    (Edge.raise j ∈ source.edges
        ↔ ∃ handler ∈ handlers, handler.handler = target.startOffset
            ∧ ∃ inst ∈ source.instructions, handler.start ≤ inst.offset ∧ inst.offset < handler.stop)
      ∧ (∀ handler ∈ handlers,
          (∃ inst ∈ source.instructions, handler.start ≤ inst.offset ∧ inst.offset < handler.stop)
            ↔ ∀ inst ∈ source.instructions, handler.start ≤ inst.offset ∧ inst.offset < handler.stop)
      ∧ source.edges.count (.raise j) ≤ 1 := by
  have hb := built_of_build hbuild
  have hfirst : source.first ∈ source.instructions := List.mem_cons_self
  refine ⟨?_, fun handler hmem => ⟨?_, fun hall => ⟨source.first, hfirst, hall source.first hfirst⟩⟩,
    hb.count_raise_le_one hsource j⟩
  · rw [hb.raise_mem_edges_iff_protects hsource]
    constructor
    · rintro ⟨handler, hmem, hprotects, hfound⟩
      refine ⟨handler, hmem, (hb.blockStartingAt?_eq_some_iff htarget).1 hfound, source.first, hfirst, ?_⟩
      exact (hb.protects_iff hsource hmem hfirst).2 hprotects
    · rintro ⟨handler, hmem, hstart, inst, hinst, hrange⟩
      exact ⟨handler, hmem, (hb.protects_iff hsource hmem hinst).1 hrange,
        (hb.blockStartingAt?_eq_some_iff htarget).2 hstart⟩
  · rintro ⟨one, hone, hrange⟩ inst hinst
    -- both are held against the range as the start of the block is
    rw [hb.protects_iff hsource hmem hinst]
    exact (hb.protects_iff hsource hmem hone).1 hrange

/-- Two ranges that share a handler give one edge, also to the handler itself, which the wider range covers. A
    range without offsets gives none. -/
theorem raise_mem_edges_iff_sharedHandler :
    ∃ graph source target,
      build tableJump [⟨0, 30, 21, none⟩, ⟨20, 21, 21, some "E"⟩, ⟨20, 20, 20, none⟩] = .ok graph
      ∧ graph.block? 1 = some source ∧ graph.block? 2 = some target
      ∧ source.edges.count (.raise 2) = 1 ∧ target.edges.count (.raise 2) = 1
      ∧ Edge.raise 1 ∉ source.edges := by
  let source : Block := ⟨1, ⟨20, 0xb1, .none, none⟩, [], [⟨.exit, .leave⟩, ⟨.block 2, .exception⟩]⟩
  let target : Block := ⟨2, ⟨21, 0xbf, .none, none⟩, [], [⟨.exit, .leave⟩, ⟨.block 2, .exception⟩]⟩
  let built : Graph := ⟨[
    ⟨0, ⟨0, 0x1a, .none, none⟩, [⟨1, 0xaa, .switch 20 [(0, 21)], none⟩],
      [⟨.block 1, .jump⟩, ⟨.block 2, .jump⟩, ⟨.block 2, .exception⟩]⟩,
    source, target]⟩
  have hbuild : build tableJump [⟨0, 30, 21, none⟩, ⟨20, 21, 21, some "E"⟩, ⟨20, 20, 20, none⟩] = .ok built := by
    rfl
  obtain ⟨hraise, -, honce⟩ := raise_mem_edges_iff hbuild (i := 1) (j := 2) rfl rfl
  obtain ⟨hself, -, honceSelf⟩ := raise_mem_edges_iff hbuild (i := 2) (j := 2) rfl rfl
  obtain ⟨hempty, -, -⟩ := raise_mem_edges_iff hbuild (i := 1) (j := 1) rfl rfl
  refine ⟨built, source, target, hbuild, rfl, rfl, ?_, ?_, fun hmem => ?_⟩
  · have hpos := List.count_pos_iff.2 (hraise.2 (by decide))
    omega
  · have hpos := List.count_pos_iff.2 (hself.2 (by decide))
    omega
  · revert hmem
    rw [hempty]
    decide

end Graph

end PatchPresence
