/-
  PatchPresence.Proofs.Feature.Conservation — features of a method are those of its live instructions.

  Blocks are walked in the preorder of the dominator tree, call sites are grouped by block, and branches that
  steer loops are left out. None of this changes a count: the preorder has every block that can be reached
  once, every finding belongs to one block of the preorder, and only conditional branches steer loops. The
  number of arguments of a call comes from its descriptor alone, because the abstract interpreter knows
  nothing of calls whose descriptor cannot be read.

  Main result:
    * `MethodBody.features_conserved` — each key of an access, a creation or a call and each shape that no
      branch has is counted once for each live instruction that has it.
-/
import PatchPresence.Patch.Artifact
import PatchPresence.Proofs.Feature.Families
import PatchPresence.Proofs.Flow.DominatorTree
import PatchPresence.Proofs.Flow.Live
import PatchPresence.Proofs.Flow.LoopNest
import PatchPresence.Proofs.Layout.Relocation
import PatchPresence.Proofs.Operand.Findings
import PatchPresence.Proofs.Tally

namespace PatchPresence

/-! ## §1. What an instruction yields. -/

namespace Instruction

/-- Key of the field or array length that an instruction uses. -/
def accessKey? (inst : Instruction) : Option String :=
  match inst.operand with
  | .field ref => Feature.fieldKey? ref.owner ref.name
  | _ => if inst.opcode.isArrayLength then some Feature.arrayLengthKey else none

/-- Key of what an instruction creates. -/
def creationKey? (inst : Instruction) : Option String :=
  match inst.operand with
  | .classRef name =>
    if inst.opcode.isNew then
      Feature.creationKey? name
    else if inst.opcode.isReferenceArray then
      some (if name.toList.head? = some '[' then "[" ++ name else "[L" ++ name ++ ";")
    else
      none
  | .newArray element => some element.arrayDescriptor
  | .multiArray descriptor _ => some descriptor
  | _ => none

/-- Key of the method that an instruction calls, unless the call is dynamic. -/
def callKey? (inst : Instruction) : Option String :=
  match inst.operand with
  | .invoke site =>
    if site.kind = .dynamic then
      none
    else
      (MethodDescriptor.parse? site.descriptor).bind fun descriptor =>
        Feature.callKey? site.owner site.name descriptor.parameters.length
  | _ => none

end Instruction

/-- The opcodes of a shape. Loops have none, and branches may steer loops. -/
def Shape.opcodes? : Shape → Option (Opcode → Bool)
  | .returnExit => some Opcode.isReturn
  | .throwExit => some Opcode.isThrow
  | .monitor => some Opcode.isMonitorEnter
  | .switch => some Opcode.isSwitch
  | .instanceOf => some Opcode.isInstanceOf
  | .shiftLeft => some fun opcode => opcode == 0x78 || opcode == 0x79
  | .shiftRight => some fun opcode => opcode == 0x7a || opcode == 0x7b
  | .unsignedShiftRight => some fun opcode => opcode == 0x7c || opcode == 0x7d
  | .loop | .branchLt | .branchLe | .branchGt | .branchGe => none

theorem of_ite_eq_some {α : Type} {c : Prop} [Decidable c] {a b : α} {rest : Option α}
    (h : (if c then some a else rest) = some b) : (c ∧ a = b) ∨ rest = some b := by
  by_cases hc : c
  · rw [if_pos hc] at h
    exact .inl ⟨hc, Option.some.inj h⟩
  · rw [if_neg hc] at h
    exact .inr h

namespace AnalyzedCode

variable {shape : Shape} {opcodes : Opcode → Bool} {opcode : Opcode}

theorem opcodes_of_shape? (h : shape.opcodes? = some opcodes) (hshape : shape? opcode = some shape) :
    opcodes opcode = true := by
  unfold shape? at hshape
  -- one test after the other; a branch has no class, so that `h` is absurd there
  repeat
    rcases of_ite_eq_some hshape with ⟨hclass, rfl⟩ | hshape
    · cases h <;> exact hclass
  cases hshape

theorem shape?_of_opcodes (h : shape.opcodes? = some opcodes) (hopcode : opcodes opcode = true) :
    shape? opcode = some shape ∧ opcode.isConditional = false := by
  cases shape <;> cases h
  case throwExit | monitor | instanceOf =>
    obtain rfl := eq_of_beq hopcode
    exact ⟨rfl, rfl⟩
  case switch | shiftLeft | shiftRight | unsignedShiftRight =>
    rcases Bool.or_eq_true_iff.1 hopcode with hcode | hcode
    all_goals
      obtain rfl := eq_of_beq hcode
      exact ⟨rfl, rfl⟩
  case returnExit =>
    obtain ⟨hlow, hhigh⟩ := Bool.and_eq_true_iff.1 hopcode
    have hlow : 0xac ≤ opcode.toNat := UInt8.le_iff_toNat_le.1 (of_decide_eq_true hlow)
    have hhigh : opcode.toNat ≤ 0xb1 := UInt8.le_iff_toNat_le.1 (of_decide_eq_true hhigh)
    have hall : ∀ k < 6, shape? (UInt8.ofNat (0xac + k)) = some .returnExit
        ∧ Opcode.isConditional (UInt8.ofNat (0xac + k)) = false := by decide
    have hkind := hall (opcode.toNat - 0xac) (by omega)
    rwa [Nat.add_sub_cancel' hlow, UInt8.ofNat_toNat] at hkind

end AnalyzedCode

/-! ## §2. Features of single instructions. -/

/-- What the analyses guarantee of code: it is cut into blocks, the dominator tree spans the blocks that can be
    reached, loops begin there, and arguments are known only of calls whose descriptor can be read. -/
structure AnalyzedCode.Analyzes (code : AnalyzedCode) (instructions : List Instruction)
    (handlers : List ExceptionHandler) : Prop where
  built : code.graph.Built instructions handlers
  tree : code.dominators.IsTreeOf code.graph
  header : ∀ loop ∈ code.loops, code.graph.Reaches loop.header
  files : Typing.FilesCalls code.graph code.callArguments

namespace AnalyzedCode

variable {code : AnalyzedCode} {instructions : List Instruction} {handlers : List ExceptionHandler}
  {inst : Instruction}

/-- The shape of an instruction, unless it steers a loop. -/
def ownShape? (code : AnalyzedCode) (inst : Instruction) : Option Shape :=
  if code.loopControl.contains inst.offset then none else shape? inst.opcode

theorem shapesOf_eq (code : AnalyzedCode) (inst : Instruction) :
    shapesOf code.loopControl inst = (code.ownShape? inst).toList.map Feature.shape := by
  unfold shapesOf ownShape?
  split
  · rfl
  · exact Option.toList_map

theorem accessesOf_eq (inst : Instruction) :
    accessesOf inst = inst.accessKey?.toList.map Feature.access := by
  unfold accessesOf Instruction.accessKey?
  cases inst.operand with
  | field ref => exact Option.toList_map
  | _ => cases inst.opcode.isArrayLength <;> rfl

theorem creationsOf_eq (inst : Instruction) :
    creationsOf inst = inst.creationKey?.toList.map Feature.creation := by
  unfold creationsOf Instruction.creationKey?
  cases inst.operand with
  | classRef name =>
    cases inst.opcode.isNew with
    | true => exact Option.toList_map
    | false => cases inst.opcode.isReferenceArray <;> rfl
  | _ => rfl

theorem featuresOf_all (code : AnalyzedCode) (control : List Nat) (previous : Option Instruction)
    (inst : Instruction) : code.featuresOf {} control previous inst
      = shapesOf control inst ++ constantsOf previous inst ++ code.callsOf inst ++ accessesOf inst
        ++ creationsOf inst := rfl

namespace Analyzes

/-- What has arguments filed under the offset of a call is the call itself, and that has a descriptor. -/
theorem get?_callArguments (h : code.Analyzes instructions handlers) (hinst : inst ∈ instructions)
    {site : CallSite} (hoperand : inst.operand = .invoke site)
    (hparse : MethodDescriptor.parse? site.descriptor = none) :
    code.callArguments.get? inst.offset = none := by
  cases hkinds : code.callArguments.get? inst.offset with
  | none => rfl
  | some kinds =>
    obtain ⟨block, hblock, other, hother, hoffset, callee, method, hcallee, hmethod⟩ :=
      h.files inst.offset kinds hkinds
    obtain rfl := h.built.eq_of_offset_eq (h.built.mem_of_mem_block hblock hother) hinst hoffset
    rw [hoperand] at hcallee
    cases hcallee
    rw [hparse] at hmethod
    cases hmethod

/-- The number of arguments of a call comes from its descriptor alone. -/
theorem arity?_eq (h : code.Analyzes instructions handlers) (hinst : inst ∈ instructions) {site : CallSite}
    (hoperand : inst.operand = .invoke site) :
    code.arity? inst.offset site
      = (MethodDescriptor.parse? site.descriptor).map (·.parameters.length) := by
  unfold arity?
  cases hparse : MethodDescriptor.parse? site.descriptor with
  | some descriptor => rfl
  | none =>
    rw [h.get?_callArguments hinst hoperand hparse]
    rfl

theorem callsOf_eq (h : code.Analyzes instructions handlers) (hinst : inst ∈ instructions) :
    code.callsOf inst = inst.callKey?.toList.map Feature.call := by
  unfold AnalyzedCode.callsOf Instruction.callKey?
  cases hoperand : inst.operand with
  | invoke site =>
    by_cases hdynamic : site.kind = .dynamic
    · simp only [hdynamic, if_true]
      rfl
    · simp only [hdynamic, if_false, h.arity?_eq hinst hoperand]
      cases MethodDescriptor.parse? site.descriptor with
      | none => rfl
      | some descriptor => exact Option.toList_map
  | _ => rfl

/-- An instruction has at most one feature of each family but constants. -/
theorem families_featuresOf (h : code.Analyzes instructions handlers) (hinst : inst ∈ instructions)
    {previous : Option Instruction} {features : List Feature}
    (hfeatures : code.featuresOf {} code.loopControl previous inst = features) :
    FeatureSet.shapesOf features = (code.ownShape? inst).toList
      ∧ FeatureSet.callsOf features = inst.callKey?.toList
      ∧ FeatureSet.accessesOf features = inst.accessKey?.toList
      ∧ FeatureSet.creationsOf features = inst.creationKey?.toList := by
  obtain ⟨values, hvalues⟩ := exists_constantsOf_eq previous inst
  rw [featuresOf_all, shapesOf_eq, hvalues, h.callsOf_eq hinst, accessesOf_eq, creationsOf_eq] at hfeatures
  subst hfeatures
  unfold FeatureSet.shapesOf FeatureSet.callsOf FeatureSet.accessesOf FeatureSet.creationsOf
  simp [List.filterMap_map]

end Analyzes

/-! ## §3. Features of the blocks. -/

variable {κ : Type} {pick : Feature → Option κ} {key? : Instruction → Option κ} {families : Families}

/-- Instructions in the order in which they are looked at. -/
def walked (code : AnalyzedCode) : List Instruction :=
  (code.dominators.preorder.filterMap code.graph.block?).flatMap Block.instructions

/-- Where a family has at most one feature an instruction, consecutive instructions are looked at one by
    one. -/
theorem filterMap_featuresFrom {control : List Nat} {consecutive : List Instruction}
    (h : ∀ inst ∈ consecutive, ∀ previous,
      (code.featuresOf families control previous inst).filterMap pick = (key? inst).toList)
    (previous : Option Instruction) :
    (code.featuresFrom families control previous consecutive).filterMap pick = consecutive.filterMap key? := by
  induction consecutive generalizing previous with
  | nil => rfl
  | cons inst rest ih =>
    obtain ⟨hinst, hrest⟩ := List.forall_mem_cons.1 h
    rw [featuresFrom, List.filterMap_append, hinst previous, ih hrest, List.filterMap_cons]
    cases key? inst <;> rfl

theorem filterMap_blockFindings
    (h : ∀ inst ∈ code.walked, ∀ previous,
      (code.featuresOf families code.loopControl previous inst).filterMap pick = (key? inst).toList) :
    ((code.blockFindings families).map Finding.feature).filterMap pick = code.walked.filterMap key? := by
  unfold blockFindings walked
  rw [List.map_flatMap, List.filterMap_flatMap, List.filterMap_flatMap]
  apply List.flatMap_congr
  intro block hblock
  have hfeature : ∀ features : List Feature,
      (features.map (Finding.mk block.index)).map Finding.feature = features := by
    intro features
    rw [List.map_map]
    exact List.map_id features
  rw [hfeature]
  apply filterMap_featuresFrom
  intro inst hinst
  exact h inst (List.mem_flatMap.2 ⟨block, hblock, hinst⟩)

namespace Analyzes

theorem perm_live (h : code.Analyzes instructions handlers) : code.walked.Perm code.graph.live :=
  h.built.perm_live h.tree.preorder_nodup h.tree.mem_preorder_iff

theorem mem_of_mem_walked (h : code.Analyzes instructions handlers) (hinst : inst ∈ code.walked) :
    inst ∈ instructions :=
  h.built.live_sublist.subset (h.perm_live.mem_iff.1 hinst)

/-- Of a family to which loops add no `key`, the findings have each key once for each live instruction. -/
theorem count_findings [DecidableEq κ] (h : code.Analyzes instructions handlers) {key : κ}
    (hpick : ∀ inst ∈ instructions, ∀ previous,
      (code.featuresOf {} code.loopControl previous inst).filterMap pick = (key? inst).toList)
    (hshape : pick (.shape .loop) ≠ some key) (hloop : ∀ signature, pick (.loop signature) ≠ some key) :
    (((code.loopFindings {} ++ code.blockFindings {}).map Finding.feature).filterMap pick).count key
      = code.graph.live.countP (key? · == some key) := by
  have hloops : (((code.loopFindings {}).map Finding.feature).filterMap pick).count key = 0 := by
    rw [List.count_eq_zero, List.mem_filterMap]
    rintro ⟨feature, hfeature, hkey⟩
    obtain ⟨finding, hfinding, rfl⟩ := List.mem_map.1 hfeature
    obtain ⟨loop, -, hfinding⟩ := List.mem_flatMap.1 hfinding
    obtain ⟨feature, hgiven, rfl⟩ := List.mem_map.1 hfinding
    replace hgiven : feature ∈ [.shape .loop, .loop (code.loopSignature loop)] := hgiven
    simp only [List.mem_cons, List.not_mem_nil, or_false] at hgiven
    rcases hgiven with rfl | rfl
    · exact hshape hkey
    · exact hloop _ hkey
  rw [List.map_append, List.filterMap_append, List.count_append, hloops, Nat.zero_add,
    filterMap_blockFindings fun inst hinst => hpick inst (h.mem_of_mem_walked hinst),
    List.count_filterMap, h.perm_live.countP_eq]

/-- Every finding belongs to a block of the preorder. -/
theorem block_mem_preorder (h : code.Analyzes instructions handlers) :
    ∀ finding ∈ code.loopFindings {} ++ code.blockFindings {}, finding.block ∈ code.dominators.preorder := by
  intro finding hfinding
  rcases List.mem_append.1 hfinding with hfinding | hfinding
  · obtain ⟨loop, hloop, hfinding⟩ := List.mem_flatMap.1 hfinding
    obtain ⟨feature, -, rfl⟩ := List.mem_map.1 hfinding
    rw [h.tree.mem_preorder_iff]
    exact h.header loop hloop
  · obtain ⟨block, hblock, hfinding⟩ := List.mem_flatMap.1 hfinding
    obtain ⟨feature, -, rfl⟩ := List.mem_map.1 hfinding
    obtain ⟨i, hi, hat⟩ := List.mem_filterMap.1 hblock
    show block.index ∈ code.dominators.preorder
    rw [h.built.index_eq hat]
    exact hi

/-- What steers a loop is a conditional branch. -/
theorem isConditional_of_loopControl (h : code.Analyzes instructions handlers) (hinst : inst ∈ instructions)
    (hcontrol : inst.offset ∈ code.loopControl) : inst.opcode.isConditional = true := by
  obtain ⟨loop, -, hcontrol⟩ := List.mem_flatMap.1 hcontrol
  obtain ⟨block, hblock, hoffset⟩ := List.mem_map.1 hcontrol
  obtain ⟨hmember, hconditional⟩ := List.mem_filter.1 (List.mem_filter.1 hblock).1
  obtain ⟨i, -, hat⟩ := List.mem_filterMap.1 hmember
  have hlast : block.last ∈ instructions :=
    h.built.mem_of_mem_block (List.mem_of_getElem? hat) block.last_mem
  rw [← h.built.eq_of_offset_eq hlast hinst hoffset]
  exact hconditional

/-- Leaving out what steers loops takes no instruction from a shape that branches do not have. -/
theorem ownShape?_eq_some_iff (h : code.Analyzes instructions handlers) (hinst : inst ∈ instructions)
    {shape : Shape} {opcodes : Opcode → Bool} (hshape : shape.opcodes? = some opcodes) :
    code.ownShape? inst = some shape ↔ opcodes inst.opcode = true := by
  unfold ownShape?
  by_cases hcontrol : inst.offset ∈ code.loopControl
  · rw [if_pos (List.contains_iff_mem.2 hcontrol)]
    refine ⟨fun hnone => (nomatch hnone), fun hopcode => ?_⟩
    have hconditional := h.isConditional_of_loopControl hinst hcontrol
    rw [(shape?_of_opcodes hshape hopcode).2] at hconditional
    cases hconditional
  · rw [if_neg (mt List.contains_iff_mem.1 hcontrol)]
    exact ⟨opcodes_of_shape? hshape, fun hopcode => (shape?_of_opcodes hshape hopcode).1⟩

end Analyzes

end AnalyzedCode

/-! ## §4. Call sites. -/

namespace FeatureSet

variable {findings : List Finding} {blocks : List Nat}

/-- Grouped by block, every finding is in one group. -/
theorem perm_byBlock (hnodup : blocks.Nodup) (hblocks : ∀ finding ∈ findings, finding.block ∈ blocks) :
    (blocks.flatMap fun block => findings.filter (·.block = block)).Perm findings := by
  induction blocks generalizing findings with
  | nil =>
    rw [List.eq_nil_iff_forall_not_mem.2 fun finding hfinding => nomatch hblocks finding hfinding]
    exact .refl []
  | cons first blocks ih =>
    obtain ⟨hfresh, hnodup⟩ := List.nodup_cons.1 hnodup
    -- the later groups are those of the findings outside the first block
    have hlater : (blocks.flatMap fun block => findings.filter (·.block = block))
        = blocks.flatMap fun block =>
            (findings.filter fun finding => !decide (finding.block = first)).filter (·.block = block) := by
      apply List.flatMap_congr
      intro block hblock
      have hne : block ≠ first := fun heq => hfresh (heq ▸ hblock)
      rw [List.filter_filter]
      apply List.filter_congr
      intro finding _
      by_cases heq : finding.block = block
      · simp [heq, hne]
      · simp [heq]
    have hrest : ∀ finding ∈ findings.filter fun finding => !decide (finding.block = first),
        finding.block ∈ blocks := by
      intro finding hfinding
      obtain ⟨hmem, hne⟩ := List.mem_filter.1 hfinding
      rcases List.mem_cons.1 (hblocks finding hmem) with heq | hlater
      · simp [heq] at hne
      · exact hlater
    rw [List.flatMap_cons, hlater]
    exact ((ih hnodup hrest).append_left _).trans (List.filter_append_perm _ findings)

/-- The call sites together have the calls of their blocks. -/
theorem count_callSites (findings : List Finding) (blocks : List Nat) (key : String) :
    ((blocks.filterMap (callSite? findings)).foldl Tally.merge .empty).count key
      = (blocks.flatMap fun block =>
          callsOf ((findings.filter (·.block = block)).map Finding.feature)).count key := by
  have hall : ∀ tally : Tally String, tally.Sorted →
      ((blocks.filterMap (callSite? findings)).foldl Tally.merge tally).count key
        = tally.count key + (blocks.flatMap fun block =>
            callsOf ((findings.filter (·.block = block)).map Finding.feature)).count key := by
    induction blocks with
    | nil =>
      intro tally _
      rfl
    | cons block blocks ih =>
      intro tally htally
      rw [List.filterMap_cons, List.flatMap_cons, List.count_append, callSite?]
      generalize callsOf ((findings.filter (·.block = block)).map Finding.feature) = calls
      cases calls with
      | nil =>
        rw [List.count_nil, Nat.zero_add]
        exact ih tally htally
      | cons call calls =>
        show ((blocks.filterMap (callSite? findings)).foldl Tally.merge
          (tally.merge (.ofKeys (call :: calls)))).count key = _
        rw [ih _ (Tally.sorted_merge htally _), Tally.count_merge htally (Tally.sorted_ofKeys _),
          Tally.count_ofKeys, Nat.add_assoc]
  have hempty := hall .empty Tally.sorted_empty
  rwa [show Tally.count Table.empty key = 0 from rfl, Nat.zero_add] at hempty

theorem count_callSites_of_blocks (hnodup : blocks.Nodup)
    (hblocks : ∀ finding ∈ findings, finding.block ∈ blocks) (key : String) :
    ((blocks.filterMap (callSite? findings)).foldl Tally.merge .empty).count key
      = (callsOf (findings.map Finding.feature)).count key := by
  rw [count_callSites]
  unfold callsOf
  have hperm := (perm_byBlock hnodup hblocks).map Finding.feature
  rw [List.map_flatMap] at hperm
  rw [← (hperm.filterMap _).count_eq, List.filterMap_flatMap]

/-! ## §5. Methods. -/

/-- Accesses, creations, calls and the shapes that no branch has are counted once for each instruction of a
    list that has them. -/
structure CountsIn (set : FeatureSet) (live : List Instruction) : Prop where
  accesses : ∀ key, set.accesses.count key = live.countP (·.accessKey? == some key)
  creations : ∀ key, set.creations.count key = live.countP (·.creationKey? == some key)
  calls : ∀ key, set.calls.count key = live.countP (·.callKey? == some key)
  shapes : ∀ shape opcodes, shape.opcodes? = some opcodes →
    set.shapes.count shape = live.countP (opcodes ·.opcode)

end FeatureSet

theorem AnalyzedCode.Analyzes.countsIn {code : AnalyzedCode} {instructions : List Instruction}
    {handlers : List ExceptionHandler} (h : code.Analyzes instructions handlers) :
    (code.features {}).CountsIn code.graph.live := by
  unfold features FeatureSet.ofFindings
  refine ⟨fun key => ?_, fun key => ?_, fun key => ?_, fun shape opcodes hopcodes => ?_⟩
  · rw [Tally.count_ofKeys]
    exact h.count_findings (fun inst hinst _ => (h.families_featuresOf hinst rfl).2.2.1) nofun nofun
  · rw [Tally.count_ofKeys]
    exact h.count_findings (fun inst hinst _ => (h.families_featuresOf hinst rfl).2.2.2) nofun nofun
  · unfold FeatureSet.calls
    rw [FeatureSet.count_callSites_of_blocks h.tree.preorder_nodup h.block_mem_preorder]
    exact h.count_findings (fun inst hinst _ => (h.families_featuresOf hinst rfl).2.1) nofun nofun
  · have hloop : Shape.loop ≠ shape := by
      rintro rfl
      cases hopcodes
    have hcount := h.count_findings (fun inst hinst _ => (h.families_featuresOf hinst rfl).1)
      (fun heq => hloop (Option.some.inj heq)) nofun
    rw [Tally.count_ofKeys]
    refine hcount.trans (List.countP_congr fun inst hinst => ?_)
    rw [beq_iff_eq]
    exact h.ownShape?_eq_some_iff (h.built.live_sublist.subset hinst) hopcodes

/-- **Features are conserved from live code.** Where all families are collected, each key of an access, a
    creation or a call and each shape that no branch has is counted as often as there are instructions with it
    in the blocks that can be reached. The live instructions are some of those of the body, in their order and
    each once. -/
theorem MethodBody.features_conserved {body : MethodBody} {config : Config} {set : FeatureSet}
    (hfamilies : config.families = {}) (h : body.features config = .ok set) :
    ∃ graph, Graph.build body.instructions body.handlers = .ok graph
      ∧ graph.live.Sublist body.instructions
      ∧ (graph.live.map Instruction.offset).Nodup
      ∧ (∀ inst, inst ∈ graph.live
          ↔ ∃ i block, graph.block? i = some block ∧ graph.Reaches i ∧ inst ∈ block.instructions)
      ∧ set.CountsIn graph.live := by
  unfold features at h
  obtain ⟨graph, hgraph, h⟩ := bind_eq_ok_iff.1 h
  obtain ⟨dominators, hdominators, h⟩ := bind_eq_ok_iff.1 h
  obtain ⟨typing, htyping, h⟩ := bind_eq_ok_iff.1 h
  obtain rfl := Except.ok.inj h
  have hb := Graph.built_of_build hgraph
  have htree : dominators.IsTreeOf graph := by
    obtain ⟨sets, hfinal, rfl⟩ := Dominators.exists_final_of_compute hb hdominators
    exact Dominators.isTreeOf_ofSets hb hfinal
  have hheader : ∀ loop ∈ LoopNest.find graph dominators, graph.Reaches loop.header := by
    intro loop hloop
    have hd := Dominators.describes_of_compute hb hdominators
    obtain ⟨latch, hlatch⟩ := (LoopNest.isNatural_of_mem_find hb hd hloop).nonempty
    exact hlatch.reaches_header
  have hcode : AnalyzedCode.Analyzes ⟨body.signature, graph, dominators, LoopNest.find graph dominators,
      typing.findings.callArguments⟩ body.instructions body.handlers :=
    ⟨hb, htree, hheader, OperandTyping.filesCalls_of_infer htyping⟩
  have hnodup : (graph.live.map Instruction.offset).Nodup :=
    (hb.live_sublist.map Instruction.offset).nodup hb.nodup_offsets
  rw [hfamilies]
  exact ⟨graph, hgraph, hb.live_sublist, hnodup, fun _ => hb.mem_live_iff, hcode.countsIn⟩

/-- A loop around a call, left when a field is zero for the creation of an object; nothing leads to what stands
    behind its return. -/
def deadTail : MethodBody where
  signature := ⟨"a/B", "run", "(I)V", true⟩
  instructions :=
    [⟨0, 0xb2, .field ⟨"a/B", "x", "I"⟩, none⟩, ⟨3, 0x99, .branch 12, none⟩,
      ⟨6, 0xb8, .invoke ⟨"b/C", "step", "()V", .static⟩, none⟩, ⟨9, 0xa7, .branch 0, none⟩,
      ⟨12, 0xbb, .classRef "b/D", none⟩, ⟨15, 0x57, .none, none⟩, ⟨16, 0xb1, .none, none⟩,
      ⟨17, 0xb2, .field ⟨"a/B", "x", "I"⟩, none⟩, ⟨20, 0xb1, .none, none⟩]
  handlers := []

/-- In `deadTail` the field is read once, one object is created and there is one return, and the call in the loop
    is one call. -/
theorem MethodBody.features_conserved_deadTail :
    ∃ set, deadTail.features { capFactor := 2 } = .ok set
      ∧ set.accesses.count "a/B/x" = 1 ∧ set.creations.count "b/D" = 1
      ∧ set.calls.count "b/C/step/0" = 1 ∧ set.shapes.count .returnExit = 1 := by
  let built : Graph := ⟨[
    ⟨0, ⟨0, 0xb2, .field ⟨"a/B", "x", "I"⟩, none⟩, [⟨3, 0x99, .branch 12, none⟩],
      [⟨.block 2, .conditionalTrue⟩, ⟨.block 1, .conditionalFalse⟩]⟩,
    ⟨1, ⟨6, 0xb8, .invoke ⟨"b/C", "step", "()V", .static⟩, none⟩, [⟨9, 0xa7, .branch 0, none⟩],
      [⟨.block 0, .jump⟩]⟩,
    ⟨2, ⟨12, 0xbb, .classRef "b/D", none⟩, [⟨15, 0x57, .none, none⟩, ⟨16, 0xb1, .none, none⟩],
      [⟨.exit, .leave⟩]⟩,
    ⟨3, ⟨17, 0xb2, .field ⟨"a/B", "x", "I"⟩, none⟩, [⟨20, 0xb1, .none, none⟩], [⟨.exit, .leave⟩]⟩]⟩
  let sets : DominatorSets := [some [0], some [0, 1], some [0, 2], none]
  let typing : OperandTyping := ⟨⟨[(0, ⟨[], [.int]⟩), (1, ⟨[], [.int]⟩), (2, ⟨[], [.int]⟩)]⟩,
    ⟨⟨[(6, [])]⟩, []⟩⟩
  have hbuild : Graph.build deadTail.instructions deadTail.handlers = .ok built := by rfl
  have hreachable : built.reachable = [0, 1, 2] := by cbv
  have hsets : DominatorSets.iterate built 8 (.initial built) = some sets := by
    simp only [DominatorSets.iterate, DominatorSets.round, DominatorSets.initial, hreachable]
    decide +kernel
  have hcompute : Dominators.compute built 8 = .ok (.ofSets sets) := by
    rw [Dominators.compute, if_neg (by decide), hsets]
  have hinfer : OperandTyping.infer built deadTail.signature deadTail.handlers ⟨false, 8⟩
      = .ok typing := eq_ok_of_toOption (by decide +kernel)
  have hfeatures : ∃ set, deadTail.features { capFactor := 2 } = .ok set :=
    ⟨_, bind_eq_ok_iff.2 ⟨built, hbuild, bind_eq_ok_iff.2 ⟨.ofSets sets, hcompute,
      bind_eq_ok_iff.2 ⟨typing, hinfer, rfl⟩⟩⟩⟩
  obtain ⟨set, hset⟩ := hfeatures
  obtain ⟨graph, hgraph, -, -, -, hcounts⟩ := features_conserved rfl hset
  obtain rfl : built = graph := Except.ok.inj (hbuild.symm.trans hgraph)
  have hlive : built.live = deadTail.instructions.take 7 := by
    unfold Graph.live
    rw [hreachable]
    rfl
  refine ⟨set, hset, ?_, ?_, ?_, ?_⟩
  · rw [hcounts.accesses, hlive]
    decide +kernel
  · rw [hcounts.creations, hlive]
    decide +kernel
  · rw [hcounts.calls, hlive]
    decide +kernel
  · rw [hcounts.shapes .returnExit Opcode.isReturn rfl, hlive]
    decide

end PatchPresence
