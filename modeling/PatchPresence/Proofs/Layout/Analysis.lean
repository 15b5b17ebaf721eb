/-
  PatchPresence.Proofs.Layout.Analysis — what the analyses of a flow graph find in relocated code.

  Dominance and loops look at edges only, so they are the same. The abstract interpreter files what it finds
  by offset: its frames are the same, and what it files under an offset stands under the moved offset.

  Main results:
    * `Dominators.compute_relocate`, `LoopNest.find_relocate` — dominance and loops do not change.
    * `OperandTyping.infer_relocate` — operand kinds do not change, up to the names of the calls.
-/
import PatchPresence.Flow.LoopNest
import PatchPresence.Proofs.Bisect
import PatchPresence.Proofs.Layout.Relocation
import PatchPresence.Proofs.Operand.Invariant

namespace PatchPresence

variable {move : Nat → Nat} {marks : List Nat} {graph : Graph} {handlers : List ExceptionHandler}

/-! ## §1. Edges. -/

namespace Graph

@[simp] theorem relocate_size (graph : Graph) : (graph.relocate move).size = graph.size := by
  show (graph.blocks.map (Block.relocate move)).length = graph.blocks.length
  rw [List.length_map]

theorem relocate_block? (graph : Graph) (index : Nat) :
    (graph.relocate move).block? index = (graph.block? index).map (Block.relocate move) := by
  show (graph.blocks.map (Block.relocate move))[index]? = _
  rw [List.getElem?_map]
  rfl

@[simp] theorem relocate_successors (graph : Graph) :
    (graph.relocate move).successors = graph.successors := by
  funext index
  unfold successors
  rw [relocate_block?, Option.map_map]
  rfl

@[simp] theorem relocate_predecessors (graph : Graph) :
    (graph.relocate move).predecessors = graph.predecessors := by
  funext index
  unfold predecessors
  show ((graph.blocks.map (Block.relocate move)).filter _).map Block.index = _
  rw [List.filter_map, List.map_map]
  rfl

@[simp] theorem relocate_reachable (graph : Graph) :
    (graph.relocate move).reachable = graph.reachable := by
  unfold reachable
  rw [relocate_successors, relocate_size]

end Graph

/-! ## §2. Dominance and loops. -/

namespace DominatorSets

theorem round_relocate (graph : Graph) (sets : DominatorSets) :
    sets.round (graph.relocate move) = sets.round graph := by
  have hupdate : update (graph.relocate move) = update graph := by
    funext sets block
    unfold update
    rw [Graph.relocate_predecessors]
  unfold round
  rw [Graph.relocate_reachable, hupdate]

theorem iterate_relocate (graph : Graph) (cap : Nat) (sets : DominatorSets) :
    iterate (graph.relocate move) cap sets = iterate graph cap sets := by
  induction cap generalizing sets with
  | zero => rfl
  | succ cap ih =>
    unfold iterate
    dsimp only
    rw [round_relocate, ih]

end DominatorSets

/-- Dominance does not depend on offsets. -/
theorem Dominators.compute_relocate (graph : Graph) (cap : Nat) :
    compute (graph.relocate move) cap = compute graph cap := by
  have hinitial : DominatorSets.initial (graph.relocate move) = DominatorSets.initial graph := by
    unfold DominatorSets.initial
    rw [Graph.relocate_reachable, Graph.relocate_size]
  unfold compute
  rw [Graph.relocate_size, hinitial, DominatorSets.iterate_relocate]

/-- Loops do not depend on offsets. -/
theorem LoopNest.find_relocate (graph : Graph) (dominators : Dominators) :
    find (graph.relocate move) dominators = find graph dominators := by
  unfold find separate members latches
  rw [Graph.relocate_predecessors, Graph.relocate_size]

/-! ## §3. Single steps. -/

namespace Frame

/-- An offset is named by errors only, and no rule reads a target. -/
theorem apply_relocate {frame next : Frame} {inst : Instruction} {rule : StackRule}
    (h : frame.apply inst rule = .ok next) : frame.apply (inst.relocate move) rule = .ok next := by
  obtain ⟨offset, opcode, operand, effect⟩ := inst
  cases rule with
  | invoke receiver =>
    cases operand with
    | invoke site =>
      obtain ⟨method, hmethod, h⟩ := bind_eq_ok_iff.1 h
      rw [Typing.parseMethod_eq_ok_iff] at hmethod
      exact bind_eq_ok_iff.2 ⟨method, Typing.parseMethod_eq_ok_iff.2 hmethod, h⟩
    | _ => cases h
  | _ => cases operand <;> exact h

theorem execute_relocate {strict : Bool} {frame next : Frame} {inst : Instruction}
    (h : frame.execute strict inst = .ok next) :
    frame.execute strict (inst.relocate move) = .ok next := by
  unfold execute at h ⊢
  rw [Instruction.relocate_opcode]
  split at h
  · exact apply_relocate h
  · split at h
    · cases h
    · next hstrict =>
      rw [if_neg hstrict]
      exact h

theorem arguments?_eq_none {inst : Instruction} (frame : Frame)
    (h : ∀ site, inst.operand ≠ .invoke site) : frame.arguments? inst = none := by
  unfold arguments?
  split
  · next site _ hsite => exact absurd hsite (h site)
  · rfl

theorem arguments?_relocate (frame : Frame) (inst : Instruction) :
    frame.arguments? (inst.relocate move) = frame.arguments? inst := by
  obtain ⟨offset, opcode, operand, effect⟩ := inst
  cases operand with
  | branch target =>
    exact (arguments?_eq_none frame fun _ => Operand.noConfusion).trans
      (arguments?_eq_none frame fun _ => Operand.noConfusion).symm
  | switch fallback cases =>
    exact (arguments?_eq_none frame fun _ => Operand.noConfusion).trans
      (arguments?_eq_none frame fun _ => Operand.noConfusion).symm
  | _ => rfl

end Frame

/-! ## §4. Handlers. -/

/-- The offsets of all instructions in blocks of the graph are among the marks. -/
def Graph.MarkedBy (graph : Graph) (marks : List Nat) : Prop :=
  ∀ block ∈ graph.blocks, ∀ inst ∈ block.instructions, inst.offset ∈ marks

theorem Graph.blockOfOffset?_relocate {offset : Nat} (hmove : IncreasingOn move marks)
    (hgraph : graph.MarkedBy marks) (hoffset : offset ∈ marks) :
    (graph.relocate move).blockOfOffset? (move offset) = graph.blockOfOffset? offset := by
  have hposition : partitionPoint (fun block => block.startOffset ≤ move offset) (graph.relocate move).blocks
      = partitionPoint (fun block => block.startOffset ≤ offset) graph.blocks := by
    apply partitionPoint_map
    intro block hblock
    have hstart : block.startOffset ∈ marks := hgraph block hblock block.first List.mem_cons_self
    exact decide_eq_decide.2 (hmove.le_iff hstart hoffset)
  unfold blockOfOffset?
  rw [hposition]
  cases partitionPoint (fun block => block.startOffset ≤ offset) graph.blocks with
  | zero => rfl
  | succ position =>
    dsimp only
    rw [relocate_block?]
    cases hblock : graph.block? position with
    | none => rfl
    | some block =>
      have hend : block.endOffset ∈ marks :=
        hgraph block (List.mem_of_getElem? hblock) block.last block.last_mem
      have hmoved : (block.relocate move).endOffset = move block.endOffset := by
        unfold Block.endOffset
        rw [Block.relocate_last, Instruction.relocate_offset]
      simp only [Option.map_some, Option.filter_some, hmoved, hmove.le_iff hoffset hend]
      split <;> rfl

namespace Typing

theorem caughtClass_relocate (hmove : IncreasingOn move marks) (hgraph : graph.MarkedBy marks)
    (hhandlers : ∀ handler ∈ handlers, handler.handler ∈ marks) (block : Nat) :
    caughtClass (graph.relocate move) (handlers.map (ExceptionHandler.relocate move)) block
      = caughtClass graph handlers block := by
  have hfind : (handlers.map (ExceptionHandler.relocate move)).reverse.find?
        (fun handler => (graph.relocate move).blockOfOffset? handler.handler == some block)
      = (handlers.reverse.find? fun handler => graph.blockOfOffset? handler.handler == some block).map
          (ExceptionHandler.relocate move) := by
    rw [← List.map_reverse, List.find?_map]
    congr 1
    apply List.find?_congr
    intro handler hhandler
    have hmark := hhandlers handler (List.mem_reverse.1 hhandler)
    show ((graph.relocate move).blockOfOffset? (move handler.handler) == some block) = _
    rw [Graph.blockOfOffset?_relocate hmove hgraph hmark]
  unfold caughtClass
  dsimp only
  rw [hfind, Option.bind_map]
  rfl

theorem leavingFrame_relocate (hmove : IncreasingOn move marks) (hgraph : graph.MarkedBy marks)
    (hhandlers : ∀ handler ∈ handlers, handler.handler ∈ marks) :
    leavingFrame (graph.relocate move) (handlers.map (ExceptionHandler.relocate move))
      = leavingFrame graph handlers := by
  funext edge before behind target
  unfold leavingFrame
  rw [caughtClass_relocate hmove hgraph hhandlers]

/-! ## §5. What is filed by offset. -/

/-- What one table holds at an offset, the other holds at the moved offset. -/
def Moved (move : Nat → Nat) (marks : List Nat) (before after : Table Nat (List ValueKind)) : Prop :=
  ∀ offset ∈ marks, after.get? (move offset) = before.get? offset

theorem moved_record {findings found : Findings} {frame : Frame} {inst : Instruction}
    (hmove : IncreasingOn move marks) (hinst : inst.offset ∈ marks)
    (h : Moved move marks findings.callArguments found.callArguments) :
    Moved move marks (findings.record frame inst).callArguments
      (found.record frame (inst.relocate move)).callArguments := by
  intro offset hoffset
  unfold Findings.record
  rw [Frame.arguments?_relocate, Instruction.relocate_offset]
  cases frame.arguments? inst with
  | none => exact h offset hoffset
  | some kinds =>
    dsimp only
    rw [Table.get?_insert, Table.get?_insert, h offset hoffset]
    exact ite_congr (propext (hmove.eq_iff hoffset hinst)) (fun _ => rfl) (fun _ => rfl)

theorem runRecording_relocate {strict : Bool} {frame behind : Frame} {findings found moved : Findings}
    {instructions : List Instruction} (hmove : IncreasingOn move marks)
    (hmarks : ∀ inst ∈ instructions, inst.offset ∈ marks)
    (hmoved : Moved move marks findings.callArguments moved.callArguments)
    (h : runRecording strict frame findings instructions = .ok (behind, found)) :
    ∃ movedFound, runRecording strict frame moved (instructions.map (Instruction.relocate move))
        = .ok (behind, movedFound)
      ∧ Moved move marks found.callArguments movedFound.callArguments := by
  induction instructions generalizing frame findings moved with
  | nil =>
    unfold runRecording at h
    obtain ⟨rfl, rfl⟩ := Prod.mk.inj (Except.ok.inj h)
    exact ⟨moved, rfl, hmoved⟩
  | cons inst rest ih =>
    obtain ⟨hinst, hrest⟩ := List.forall_mem_cons.1 hmarks
    unfold runRecording at h
    obtain ⟨next, hnext, h⟩ := bind_eq_ok_iff.1 h
    obtain ⟨movedFound, hrun, hfound⟩ := ih hrest (moved_record hmove hinst hmoved) h
    rw [List.map_cons, runRecording]
    exact ⟨movedFound, bind_eq_ok_iff.2 ⟨next, Frame.execute_relocate hnext, hrun⟩, hfound⟩

/-! ## §6. Visits. -/

theorem deliverAll_relocate (hmove : IncreasingOn move marks) (hgraph : graph.MarkedBy marks)
    (hhandlers : ∀ handler ∈ handlers, handler.handler ∈ marks) (before behind : Frame)
    (progress : Progress) (findings : Findings) (edges : List Edge) :
    deliverAll (graph.relocate move) (handlers.map (ExceptionHandler.relocate move)) before behind
        { progress with findings } edges
      = { deliverAll graph handlers before behind progress edges with findings } := by
  unfold deliverAll
  rw [leavingFrame_relocate hmove hgraph hhandlers]
  induction edges generalizing progress with
  | nil => rfl
  | cons edge edges ih =>
    rw [List.foldl_cons, List.foldl_cons]
    cases edge.block? with
    | none => exact ih progress
    | some target =>
      dsimp only
      rw [deliver_withFindings]
      exact ih _

/-- A visit in relocated code does what it does in the code, and files by moved offsets. -/
theorem visit_relocate {strict : Bool} {progress next : Progress} {moved : Findings} {index : Nat}
    (hmove : IncreasingOn move marks) (hgraph : graph.MarkedBy marks)
    (hhandlers : ∀ handler ∈ handlers, handler.handler ∈ marks)
    (h : visit graph handlers strict progress index = .ok next)
    (hmoved : Moved move marks progress.findings.callArguments moved.callArguments) :
    ∃ movedFound, visit (graph.relocate move) (handlers.map (ExceptionHandler.relocate move)) strict
        { progress with findings := moved } index = .ok { next with findings := movedFound }
      ∧ Moved move marks next.findings.callArguments movedFound.callArguments := by
  unfold visit at h ⊢
  rw [Graph.relocate_block?]
  dsimp only
  cases hblock : graph.block? index with
  | none =>
    rw [hblock] at h
    obtain rfl := Except.ok.inj h
    exact ⟨moved, rfl, hmoved⟩
  | some block =>
    cases hbefore : progress.entries.get? index with
    | none =>
      rw [hblock, hbefore] at h
      obtain rfl := Except.ok.inj h
      exact ⟨moved, rfl, hmoved⟩
    | some before =>
      rw [hblock, hbefore] at h
      obtain ⟨⟨behind, found⟩, hrun, h⟩ := bind_eq_ok_iff.1 h
      obtain rfl := Except.ok.inj h
      have hmarks := hgraph block (List.mem_of_getElem? hblock)
      obtain ⟨movedFound, hmovedRun, hfound⟩ := runRecording_relocate hmove hmarks hmoved hrun
      -- only running the block files anything; what is delivered from it does not look at the findings
      refine ⟨movedFound, bind_eq_ok_iff.2 ⟨(behind, movedFound), hmovedRun, congrArg Except.ok ?_⟩, ?_⟩
      · exact deliverAll_relocate hmove hgraph hhandlers before behind
          { progress with findings := found } movedFound block.edges
      · show Moved move marks (deliverAll graph handlers before behind
          { progress with findings := found } block.edges).findings.callArguments _
        rw [findings_deliverAll]
        exact hfound

/-- A whole run in relocated code does what it does in the code. -/
theorem settle_relocate {strict : Bool} {fuel : Nat} {progress final : Progress} {moved : Findings}
    (hmove : IncreasingOn move marks) (hgraph : graph.MarkedBy marks)
    (hhandlers : ∀ handler ∈ handlers, handler.handler ∈ marks)
    (hmoved : Moved move marks progress.findings.callArguments moved.callArguments)
    (h : settle graph handlers strict fuel progress = .ok (some final)) :
    ∃ movedFound, settle (graph.relocate move) (handlers.map (ExceptionHandler.relocate move)) strict fuel
        { progress with findings := moved } = .ok (some { final with findings := movedFound })
      ∧ Moved move marks final.findings.callArguments movedFound.callArguments := by
  -- the queue holds numbers of blocks, which do not move, so that both runs make the same visits
  fun_induction settle graph handlers strict fuel progress generalizing moved with
  | case1 fuel progress hqueue =>
    obtain rfl := Option.some.inj (Except.ok.inj h)
    refine ⟨moved, ?_, hmoved⟩
    unfold settle
    rw [hqueue]
  | case2 progress index queue hqueue => cases h
  | case3 progress index queue fuel hqueue ih =>
    obtain ⟨next, hvisit, h⟩ := bind_eq_ok_iff.1 h
    obtain ⟨movedNext, hmovedVisit, hnext⟩ := visit_relocate hmove hgraph hhandlers hvisit hmoved
    obtain ⟨movedFound, hsettle, hfound⟩ := ih next hnext h
    refine ⟨movedFound, ?_, hfound⟩
    unfold settle
    rw [hqueue]
    exact bind_eq_ok_iff.2 ⟨_, hmovedVisit, hsettle⟩

end Typing

/-- **Operand kinds do not depend on offsets.** The frames are the same, and the arguments of a call stand
    under its moved offset. -/
theorem OperandTyping.infer_relocate {signature : MethodSignature} {options : TypingOptions}
    {typing : OperandTyping} (hmove : IncreasingOn move marks) (hgraph : graph.MarkedBy marks)
    (hhandlers : ∀ handler ∈ handlers, handler.handler ∈ marks)
    (h : infer graph signature handlers options = .ok typing) :
    ∃ moved, infer (graph.relocate move) signature (handlers.map (ExceptionHandler.relocate move)) options
        = .ok moved
      ∧ moved.entries = typing.entries
      ∧ Typing.Moved move marks typing.findings.callArguments moved.findings.callArguments := by
  have hnone : Typing.Moved move marks Findings.none.callArguments Findings.none.callArguments :=
    fun _ _ => rfl
  unfold infer at h ⊢
  rw [Graph.relocate_size]
  split at h
  · next hempty =>
    obtain rfl := Except.ok.inj h
    rw [if_pos hempty]
    exact ⟨_, rfl, rfl, hnone⟩
  · next hblocks =>
    rw [if_neg hblocks]
    obtain ⟨method, hmethod, h⟩ := bind_eq_ok_iff.1 h
    obtain ⟨settled, hsettle, h⟩ := bind_eq_ok_iff.1 h
    cases settled with
    | none => cases h
    | some final =>
      obtain rfl := Except.ok.inj h
      obtain ⟨movedFound, hmovedSettle, hfound⟩ :=
        Typing.settle_relocate hmove hgraph hhandlers hnone hsettle
      exact ⟨_, bind_eq_ok_iff.2 ⟨method, hmethod, bind_eq_ok_iff.2 ⟨_, hmovedSettle, rfl⟩⟩, rfl, hfound⟩

end PatchPresence
