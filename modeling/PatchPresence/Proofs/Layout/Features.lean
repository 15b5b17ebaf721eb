/-
  PatchPresence.Proofs.Layout.Features — the features of a method body do not depend on its layout.

  An offset is used for two things while features are collected: to look up the arguments of a call whose
  descriptor cannot be read, and to leave out the branches that make up a loop. Both ask only whether two
  offsets of the code are equal.

  Main result:
    * `MethodBody.features_relocate` — a body with its offsets moved in order has the same features.
-/
import PatchPresence.Patch.Artifact
import PatchPresence.Proofs.Layout.Analysis

namespace PatchPresence

variable {move : Nat → Nat} {marks : List Nat}

namespace AnalyzedCode

/-! ## §1. Loops. -/

theorem classifyOperand_relocate (operand : Option Instruction) :
    classifyOperand (operand.map (Instruction.relocate move)) = classifyOperand operand := by
  rcases operand with _ | ⟨offset, opcode, operand, effect⟩
  · rfl
  · cases operand <;> rfl

theorem classifyExit_relocate (reversed : List Instruction) :
    classifyExit (reversed.map (Instruction.relocate move)) = classifyExit reversed := by
  rcases reversed with _ | ⟨branch, _ | ⟨previous, earlier⟩⟩
  · rfl
  · rfl
  · show (if branch.opcode.isNullBranch then ExitClass.constant
      else if branch.opcode.isUnaryBranch then
        if previous.opcode.isInvoke then .call
        else if previous.opcode.isValueCompare then
          classifyOperand (earlier.map (Instruction.relocate move)).head?
        else .constant
      else classifyOperand ((some previous).map (Instruction.relocate move))) = _
    rw [List.head?_map, classifyOperand_relocate, classifyOperand_relocate]
    rfl

/-- What is known of relocated code is what is known of the code, with its offsets moved. -/
structure Relocated (move : Nat → Nat) (marks : List Nat) (code moved : AnalyzedCode) : Prop where
  signature : moved.signature = code.signature
  graph : moved.graph = code.graph.relocate move
  dominators : moved.dominators = code.dominators
  loops : moved.loops = code.loops
  arguments : Typing.Moved move marks code.callArguments moved.callArguments
  marked : code.graph.MarkedBy marks

variable {code moved : AnalyzedCode}

namespace Relocated

theorem filterMap_block? (h : Relocated move marks code moved) (indices : List Nat) :
    indices.filterMap moved.graph.block?
      = (indices.filterMap code.graph.block?).map (Block.relocate move) := by
  rw [h.graph, List.map_filterMap]
  apply List.filterMap_congr
  intro index _
  exact Graph.relocate_block? code.graph index

theorem branchingMembers (h : Relocated move marks code moved) (loop : NaturalLoop) :
    moved.branchingMembers loop = (code.branchingMembers loop).map (Block.relocate move) := by
  unfold AnalyzedCode.branchingMembers
  rw [h.filterMap_block?, List.filter_map]
  congr 1
  apply List.filter_congr
  intro block _
  show (block.relocate move).last.opcode.isConditional = _
  rw [Block.relocate_last, Instruction.relocate_opcode]

theorem loopSignature (h : Relocated move marks code moved) (loop : NaturalLoop) :
    moved.loopSignature loop = code.loopSignature loop := by
  unfold AnalyzedCode.loopSignature
  dsimp only
  rw [h.branchingMembers, List.filter_map, List.map_map]
  congr 1
  apply List.map_congr_left
  intro block _
  show classifyExit (block.relocate move).instructions.reverse = _
  rw [Block.relocate_instructions, ← List.map_reverse, classifyExit_relocate]

theorem loopControl (h : Relocated move marks code moved) :
    moved.loopControl = code.loopControl.map move := by
  unfold AnalyzedCode.loopControl
  rw [h.loops, List.map_flatMap]
  apply List.flatMap_congr
  intro loop _
  rw [h.branchingMembers, List.filter_map, List.map_map, List.map_map]
  apply List.map_congr_left
  intro block _
  show (block.relocate move).last.offset = _
  rw [Block.relocate_last]
  rfl

theorem loopControl_marked (h : Relocated move marks code moved) :
    ∀ offset ∈ code.loopControl, offset ∈ marks := by
  intro offset hoffset
  obtain ⟨loop, -, hcontrol⟩ := List.mem_flatMap.1 hoffset
  obtain ⟨block, hblock, rfl⟩ := List.mem_map.1 hcontrol
  have hbranching := (List.mem_filter.1 hblock).1
  obtain ⟨index, -, hindex⟩ := List.mem_filterMap.1 (List.mem_filter.1 hbranching).1
  exact h.marked block (List.mem_of_getElem? hindex) block.last block.last_mem

/-! ## §2. Instructions. -/

theorem shapesOf (h : Relocated move marks code moved) (hmove : IncreasingOn move marks)
    {inst : Instruction} (hinst : inst.offset ∈ marks) :
    AnalyzedCode.shapesOf moved.loopControl (inst.relocate move)
      = AnalyzedCode.shapesOf code.loopControl inst := by
  unfold AnalyzedCode.shapesOf
  rw [h.loopControl, Instruction.relocate_offset, hmove.contains_map h.loopControl_marked hinst]
  rfl

theorem callsOf (h : Relocated move marks code moved) {inst : Instruction}
    (hinst : inst.offset ∈ marks) : moved.callsOf (inst.relocate move) = code.callsOf inst := by
  obtain ⟨offset, opcode, operand, effect⟩ := inst
  cases operand with
  | invoke site =>
    have harity : moved.arity? (move offset) site = code.arity? offset site := by
      unfold arity?
      rw [h.arguments offset hinst]
    simp only [AnalyzedCode.callsOf, Instruction.relocate, Operand.relocate, harity]
  | _ => rfl

end Relocated

theorem yieldsCondition_relocate (inst : Instruction) :
    yieldsCondition (inst.relocate move) = yieldsCondition inst := by
  obtain ⟨offset, opcode, operand, effect⟩ := inst
  cases operand <;> rfl

theorem constantsOf_relocate (previous : Option Instruction) (inst : Instruction) :
    constantsOf (previous.map (Instruction.relocate move)) (inst.relocate move)
      = constantsOf previous inst := by
  have hcondition : ((previous.map (Instruction.relocate move)).map yieldsCondition)
      = previous.map yieldsCondition := by
    rw [Option.map_map]
    exact Option.map_congr fun inst _ => yieldsCondition_relocate inst
  unfold constantsOf
  rw [hcondition]
  obtain ⟨offset, opcode, operand, effect⟩ := inst
  cases operand <;> rfl

theorem accessesOf_relocate (inst : Instruction) :
    accessesOf (inst.relocate move) = accessesOf inst := by
  obtain ⟨offset, opcode, operand, effect⟩ := inst
  cases operand <;> rfl

theorem creationsOf_relocate (inst : Instruction) :
    creationsOf (inst.relocate move) = creationsOf inst := by
  obtain ⟨offset, opcode, operand, effect⟩ := inst
  cases operand <;> rfl

namespace Relocated

theorem featuresFrom (h : Relocated move marks code moved) (hmove : IncreasingOn move marks)
    (families : Families) (previous : Option Instruction) {instructions : List Instruction}
    (hmarks : ∀ inst ∈ instructions, inst.offset ∈ marks) :
    moved.featuresFrom families moved.loopControl (previous.map (Instruction.relocate move))
        (instructions.map (Instruction.relocate move))
      = code.featuresFrom families code.loopControl previous instructions := by
  induction instructions generalizing previous with
  | nil => rfl
  | cons inst rest ih =>
    obtain ⟨hinst, hrest⟩ := List.forall_mem_cons.1 hmarks
    have hlater := ih (some inst) hrest
    rw [Option.map_some] at hlater
    simp only [List.map_cons, AnalyzedCode.featuresFrom, featuresOf, h.shapesOf hmove hinst,
      constantsOf_relocate, h.callsOf hinst, accessesOf_relocate, creationsOf_relocate, hlater]

/-! ## §3. The method. -/

theorem loopFindings (h : Relocated move marks code moved) (families : Families) :
    moved.loopFindings families = code.loopFindings families := by
  unfold AnalyzedCode.loopFindings
  rw [h.loops]
  apply List.flatMap_congr
  intro loop _
  rw [h.loopSignature]

theorem blockFindings (h : Relocated move marks code moved) (hmove : IncreasingOn move marks)
    (families : Families) : moved.blockFindings families = code.blockFindings families := by
  unfold AnalyzedCode.blockFindings
  dsimp only
  rw [h.dominators, h.filterMap_block?, List.flatMap_map]
  apply List.flatMap_congr
  intro block hblock
  obtain ⟨index, -, hindex⟩ := List.mem_filterMap.1 hblock
  have hmarks := h.marked block (List.mem_of_getElem? hindex)
  rw [Block.relocate_instructions, Block.relocate_index]
  exact congrArg _ (h.featuresFrom hmove families none hmarks)

theorem features (h : Relocated move marks code moved) (hmove : IncreasingOn move marks)
    (families : Families) : moved.features families = code.features families := by
  unfold AnalyzedCode.features
  rw [h.loopFindings, h.blockFindings hmove, h.signature, h.dominators]

end Relocated

end AnalyzedCode

theorem Graph.markedBy_landmarks {instructions : List Instruction} {handlers : List ExceptionHandler}
    {graph : Graph} (hb : graph.Built instructions handlers) :
    graph.MarkedBy (landmarks instructions handlers) := by
  intro block hblock inst hinst
  obtain ⟨i, hi⟩ := List.mem_iff_getElem?.1 hblock
  obtain ⟨part, edges, hpart, -, rfl⟩ := hb.part_of_block hi
  exact offset_mem_landmarks (mem_iff_mem_cut.2 ⟨part, List.mem_of_getElem? hpart, hinst⟩)

/-- **Features do not depend on the layout of the code.** When every instruction offset, branch and switch
    target and handler landmark of a body is moved by a map that keeps their order, the body has the same
    features as before. -/
theorem MethodBody.features_relocate {body : MethodBody} {config : Config} {set : FeatureSet}
    (hmove : IncreasingOn move body.landmarks) (h : body.features config = .ok set) :
    (body.relocate move).features config = .ok set := by
  unfold features at h ⊢
  obtain ⟨graph, hgraph, h⟩ := bind_eq_ok_iff.1 h
  obtain ⟨dominators, hdominators, h⟩ := bind_eq_ok_iff.1 h
  obtain ⟨typing, htyping, h⟩ := bind_eq_ok_iff.1 h
  obtain rfl := Except.ok.inj h
  have hmarked := Graph.markedBy_landmarks (Graph.built_of_build hgraph)
  have hhandlers : ∀ handler ∈ body.handlers, handler.handler ∈ body.landmarks :=
    fun handler hmem => handler_mem_landmarks hmem (by simp)
  obtain ⟨moved, hmoved, -, harguments⟩ :=
    OperandTyping.infer_relocate hmove hmarked hhandlers htyping
  refine bind_eq_ok_iff.2 ⟨graph.relocate move, Graph.build_relocate hmove hgraph, ?_⟩
  rw [Graph.relocate_size]
  refine bind_eq_ok_iff.2 ⟨dominators, (Dominators.compute_relocate graph _).trans hdominators, ?_⟩
  refine bind_eq_ok_iff.2 ⟨moved, hmoved, congrArg Except.ok ?_⟩
  rw [LoopNest.find_relocate]
  have hrelocated : AnalyzedCode.Relocated move body.landmarks
      ⟨body.signature, graph, dominators, LoopNest.find graph dominators, typing.findings.callArguments⟩
      ⟨body.signature, graph.relocate move, dominators, LoopNest.find graph dominators,
        moved.findings.callArguments⟩ :=
    ⟨rfl, rfl, rfl, rfl, harguments, hmarked⟩
  exact hrelocated.features hmove config.families

/-- A loop around a call, with a handler whose range ends behind the code. -/
def guardedLoop : MethodBody where
  signature := ⟨"a/B", "run", "(I)V", true⟩
  instructions :=
    [⟨0, 0x1a, .none, none⟩, ⟨1, 0x99, .branch 12, none⟩,
      ⟨4, 0xb8, .invoke ⟨"b/C", "step", "()V", .static⟩, none⟩, ⟨7, 0xa7, .branch 0, none⟩,
      ⟨10, 0x57, .none, none⟩, ⟨11, 0xa7, .branch 12, none⟩, ⟨12, 0xb1, .none, none⟩]
  handlers := [⟨4, 40, 10, some "java/lang/Error"⟩]

/-- Moving the offsets of `guardedLoop` farther and farther apart keeps its features. -/
theorem MethodBody.features_relocate_guardedLoop :
    IncreasingOn (fun offset => offset * offset + 3) guardedLoop.landmarks
      ∧ ∃ set, guardedLoop.features { capFactor := 2 } = .ok set
          ∧ (guardedLoop.relocate fun offset => offset * offset + 3).features { capFactor := 2 }
            = .ok set := by
  let built : Graph := ⟨[
    ⟨0, ⟨0, 0x1a, .none, none⟩, [⟨1, 0x99, .branch 12, none⟩],
      [⟨.block 3, .conditionalTrue⟩, ⟨.block 1, .conditionalFalse⟩]⟩,
    ⟨1, ⟨4, 0xb8, .invoke ⟨"b/C", "step", "()V", .static⟩, none⟩, [⟨7, 0xa7, .branch 0, none⟩],
      [⟨.block 0, .jump⟩, ⟨.block 2, .exception⟩]⟩,
    ⟨2, ⟨10, 0x57, .none, none⟩, [⟨11, 0xa7, .branch 12, none⟩],
      [⟨.block 3, .jump⟩, ⟨.block 2, .exception⟩]⟩,
    ⟨3, ⟨12, 0xb1, .none, none⟩, [], [⟨.exit, .leave⟩, ⟨.block 2, .exception⟩]⟩]⟩
  let sets : DominatorSets := [some [0], some [0, 1], some [0, 2], some [0, 3]]
  let typing : OperandTyping := ⟨⟨[
    (0, ⟨[], [.int]⟩), (1, ⟨[], [.int]⟩), (2, ⟨[.reference "java/lang/Error"], [.int]⟩),
    (3, ⟨[], [.int]⟩)]⟩, ⟨⟨[(4, [])]⟩, []⟩⟩
  have hbuild : Graph.build guardedLoop.instructions guardedLoop.handlers = .ok built := by rfl
  have hreachable : built.reachable = [0, 1, 2, 3] := by cbv
  have hsets : DominatorSets.iterate built 8 (.initial built) = some sets := by
    simp only [DominatorSets.iterate, DominatorSets.round, DominatorSets.initial, hreachable]
    decide +kernel
  have hcompute : Dominators.compute built 8 = .ok (.ofSets sets) := by
    rw [Dominators.compute, if_neg (by decide), hsets]
  have hinfer : OperandTyping.infer built guardedLoop.signature guardedLoop.handlers ⟨false, 8⟩
      = .ok typing := eq_ok_of_toOption (by decide +kernel)
  have hmove : IncreasingOn (fun offset => offset * offset + 3) guardedLoop.landmarks := by
    unfold IncreasingOn
    decide
  have hfeatures : ∃ set, guardedLoop.features { capFactor := 2 } = .ok set :=
    ⟨_, bind_eq_ok_iff.2 ⟨built, hbuild, bind_eq_ok_iff.2 ⟨.ofSets sets, hcompute,
      bind_eq_ok_iff.2 ⟨typing, hinfer, rfl⟩⟩⟩⟩
  obtain ⟨set, hset⟩ := hfeatures
  exact ⟨hmove, set, hset, features_relocate hmove hset⟩

end PatchPresence
