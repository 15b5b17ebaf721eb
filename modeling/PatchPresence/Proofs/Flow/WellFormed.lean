/-
  PatchPresence.Proofs.Flow.WellFormed — the code that has a flow graph.

  A build looks at offsets, targets and landmarks before it cuts blocks, and afterwards only at the last
  instruction of each block. This is enough to refuse every branch without a target, whatever opcodes and
  operands come together: a branch ends its block by its opcode alone. What can not go wrong any more is a
  lookup of a block, because a landmark that passed the checks is a leader.

  Main result:
    * `Graph.exists_build_iff` — exactly well-formed code has a graph, and no lookup of a block fails.
-/
import PatchPresence.Proofs.Flow.Simulation

namespace PatchPresence

/-! ## §1. Well-formed code. -/

/-- The operand names a target when the opcode is that of a branch. -/
def Instruction.CarriesTarget (inst : Instruction) : Prop :=
  inst.opcode.isConditional = true ∨ inst.opcode.isUnconditional = true →
    ∃ target, inst.operand = .branch target

namespace Code

/-- Handler and protected range are marked by offsets of instructions; the range may also end behind the
    last one. -/
structure Fits (instructions : List Instruction) (handler : ExceptionHandler) : Prop where
  entry : Graph.Starts instructions handler.handler
  start : Graph.Starts instructions handler.start
  stop : Graph.Starts instructions handler.stop
    ∨ ∀ last, instructions.getLast? = some last → last.offset < handler.stop

/-- What code has to be like to have a flow graph, said without leaders and blocks. -/
structure WellFormed (instructions : List Instruction) (handlers : List ExceptionHandler) : Prop where
  nonempty : instructions ≠ []
  increasing : instructions.Pairwise fun a b => a.offset < b.offset
  targets : ∀ inst ∈ instructions, ∀ target ∈ inst.targets, Graph.Starts instructions target
  branches : ∀ inst ∈ instructions, inst.CarriesTarget
  landmarks : ∀ handler ∈ handlers, Fits instructions handler

end Code

namespace Graph

variable {instructions : List Instruction} {handlers : List ExceptionHandler} {graph : Graph}
  {inst : Instruction}

/-! ## §2. Checks that pass. -/

theorem checkIncreasing_of_pairwise (h : instructions.Pairwise fun a b => a.offset < b.offset) :
    checkIncreasing instructions = .ok () := by
  fun_induction checkIncreasing instructions with
  | case1 a b rest hle =>
    have hlt : a.offset < b.offset := (List.pairwise_cons.1 h).1 b List.mem_cons_self
    omega
  | case2 a b rest hlt ih => exact ih (List.pairwise_cons.1 h).2
  | case3 => rfl

theorem checkAligned_of_starts {offset : Nat} (h : Starts instructions offset) (landmark : Landmark)
    (reportedAt : Nat) :
    checkAligned (instructions.map Instruction.offset) landmark offset reportedAt = .ok () :=
  checkAligned_eq_ok_iff.2 (starts_iff_mem_map.1 h)

theorem checkTargets_of_starts (h : ∀ target ∈ inst.targets, Starts instructions target) :
    checkTargets (instructions.map Instruction.offset) inst = .ok () := by
  unfold checkTargets
  rw [forM_eq_ok_iff]
  intro target htarget
  exact checkAligned_of_starts (h target htarget) .branchTarget inst.offset

theorem checkHandler_of_fits {handler : ExceptionHandler} {last : Instruction}
    (hlast : instructions.getLast? = some last) (h : Code.Fits instructions handler) :
    checkHandler (instructions.map Instruction.offset) last.offset handler = .ok () := by
  unfold checkHandler
  refine bind_eq_ok_iff.2 ⟨(), checkAligned_of_starts h.entry .handler _, ?_⟩
  refine bind_eq_ok_iff.2 ⟨(), checkAligned_of_starts h.start .rangeStart _, ?_⟩
  split
  · next hwithin =>
    rcases h.stop with hstop | hbehind
    · exact checkAligned_of_starts hstop .rangeEnd _
    · have hlt := hbehind last hlast
      omega
  · rfl

/-! ## §3. Lookups of blocks. -/

/-- A leader starts a block. -/
theorem exists_blockStartingAt?_of_leads {leader : Instruction} (hleader : leader ∈ instructions)
    (hleads : leadsBlock instructions handlers leader = true) :
    ∃ i, blockStartingAt? (cutBlocks instructions handlers) leader.offset = some i := by
  obtain ⟨i, part, hpart, hmem⟩ := exists_part handlers hleader
  rcases List.mem_cons.1 hmem with hfirst | hrest
  · exact exists_blockStartingAt? hpart (by rw [hfirst])
  · have hnot := leads_eq_false_of_mem_rest (List.mem_of_getElem? hpart) hrest
    rw [hleads] at hnot
    cases hnot

/-- Jumps to offsets of instructions find their blocks. -/
theorem exists_jumpTarget (hinst : inst ∈ instructions)
    (hstarts : ∀ target ∈ inst.targets, Starts instructions target) {target : Nat}
    (htarget : target ∈ inst.targets) :
    ∃ i, jumpTarget (cutBlocks instructions handlers) target = .ok i := by
  obtain ⟨leader, hleader, rfl⟩ := hstarts target htarget
  have hleads : leadsBlock instructions handlers leader = true := leadsBlock_of_mem_targets hinst htarget
  obtain ⟨i, hi⟩ := exists_blockStartingAt?_of_leads hleader hleads
  exact ⟨i, jumpTarget_eq_ok_iff.2 hi⟩

theorem exists_handlerBlock {handler : ExceptionHandler} (hmem : handler ∈ handlers)
    (hstarts : Starts instructions handler.handler) :
    ∃ i, blockStartingAt? (cutBlocks instructions handlers) handler.handler = some i := by
  obtain ⟨leader, hleader, hoffset⟩ := hstarts
  rw [← hoffset]
  exact exists_blockStartingAt?_of_leads hleader (leadsBlock_of_landmark hmem (by simp [hoffset]))

/-! ## §4. Edges. -/

/-- Where jumps find their blocks, edges are refused for one reason only: a branch without a target. -/
theorem flowEdges_cases {blocks : List Block} {block : Block} (index : Nat)
    (hjumps : ∀ target ∈ block.last.targets, ∃ i, jumpTarget blocks target = .ok i) :
    (block.last.CarriesTarget ∧ ∃ edges, flowEdges blocks index block = .ok edges)
      ∨ (¬ block.last.CarriesTarget
          ∧ ∃ fault, flowEdges blocks index block = .error (.malformedCode block.last.offset fault)
            ∧ fault ≠ .targetInsideBlock) := by
  obtain ⟨hexit, hswitch, -⟩ := Opcode.classes_disjoint block.last.opcode
  unfold flowEdges
  dsimp only
  split
  · next hclass =>
    refine .inl ⟨fun hbranch => ?_, _, rfl⟩
    simp [hexit hclass] at hbranch
  · split
    · next hclass =>
      refine .inl ⟨fun hbranch => ?_, ?_⟩
      · simp [hswitch hclass] at hbranch
      · obtain ⟨targets, htargets⟩ := exists_mapM_eq_ok hjumps
        exact ⟨_, bind_eq_ok_iff.2 ⟨targets, htargets, rfl⟩⟩
    · split
      · next hclass =>
        split
        · next target hoperand =>
          obtain ⟨i, hi⟩ := hjumps target (by simp [Instruction.targets, hoperand])
          exact .inl ⟨fun _ => ⟨target, hoperand⟩, _, bind_eq_ok_iff.2 ⟨i, hi, rfl⟩⟩
        · next hother =>
          refine .inr ⟨fun hcarries => ?_, _, rfl, by simp⟩
          obtain ⟨target, htarget⟩ := hcarries (.inl hclass)
          exact hother target htarget
      · next hnotConditional =>
        split
        · next hclass =>
          split
          · next target hoperand =>
            obtain ⟨i, hi⟩ := hjumps target (by simp [Instruction.targets, hoperand])
            exact .inl ⟨fun _ => ⟨target, hoperand⟩, _, bind_eq_ok_iff.2 ⟨i, hi, rfl⟩⟩
          · next hother =>
            refine .inr ⟨fun hcarries => ?_, _, rfl, by simp⟩
            obtain ⟨target, htarget⟩ := hcarries (.inr hclass)
            exact hother target htarget
        · next hnotUnconditional =>
          refine .inl ⟨fun hbranch => ?_, _, rfl⟩
          simp [hnotConditional, hnotUnconditional] at hbranch

/-! ## §5. The graph. -/

/-- Not the error of a jump to an instruction inside a block. -/
def OutsideBlocks (error : AnalysisError) : Prop :=
  ∀ offset, error ≠ .malformedCode offset .targetInsideBlock

theorem checkAligned_failsWith (offsets : List Nat) (landmark : Landmark) (offset reportedAt : Nat) :
    FailsWith OutsideBlocks (checkAligned offsets landmark offset reportedAt) := by
  unfold checkAligned
  split
  · exact .ok ()
  · exact .error (by simp [OutsideBlocks])

theorem checkIncreasing_failsWith (instructions : List Instruction) :
    FailsWith OutsideBlocks (checkIncreasing instructions) := by
  fun_induction checkIncreasing instructions with
  | case1 => exact .error (by simp [OutsideBlocks])
  | case2 _ _ _ _ ih => exact ih
  | case3 => exact .ok ()

theorem checkHandler_failsWith (offsets : List Nat) (lastOffset : Nat) (handler : ExceptionHandler) :
    FailsWith OutsideBlocks (checkHandler offsets lastOffset handler) := by
  unfold checkHandler
  refine .bind (checkAligned_failsWith _ _ _ _) fun _ _ => ?_
  refine .bind (checkAligned_failsWith _ _ _ _) fun _ _ => ?_
  split
  · exact checkAligned_failsWith _ _ _ _
  · exact .ok ()

/-- The targets of all instructions that passed the check are offsets of instructions. -/
theorem starts_of_checkTargets
    (h : instructions.forM (checkTargets (instructions.map Instruction.offset)) = .ok ())
    (hinst : inst ∈ instructions) : ∀ target ∈ inst.targets, Starts instructions target := by
  intro target htarget
  have hcheck := (forM_eq_ok_iff _).1 h inst hinst
  unfold checkTargets at hcheck
  exact starts_iff_mem_map.2 (checkAligned_eq_ok_iff.1 ((forM_eq_ok_iff _).1 hcheck target htarget))

/-- The last instruction of a block jumps to blocks. -/
theorem exists_jumpTarget_of_mem_cutBlocks {block : Block}
    (hstarts : ∀ inst ∈ instructions, ∀ target ∈ inst.targets, Starts instructions target)
    (hblock : block ∈ cutBlocks instructions handlers) :
    ∀ target ∈ block.last.targets, ∃ i, jumpTarget (cutBlocks instructions handlers) target = .ok i := by
  intro target htarget
  have hlast : block.last ∈ instructions := mem_of_mem_cutBlocks hblock block.last_mem
  exact exists_jumpTarget hlast (hstarts block.last hlast) htarget

/-- No jump of code that passed the checks leads into the middle of a block. -/
theorem build_failsWith (instructions : List Instruction) (handlers : List ExceptionHandler) :
    FailsWith OutsideBlocks (build instructions handlers) := by
  unfold build
  cases instructions.getLast? with
  | none => exact .error (by simp [OutsideBlocks])
  | some last =>
    refine .bind (checkIncreasing_failsWith instructions) fun _ _ => ?_
    refine .bind (.forM fun inst _ => .forM fun _ _ => checkAligned_failsWith _ _ _ _) fun _ htargets => ?_
    refine .bind (.forM fun handler _ => checkHandler_failsWith _ _ handler) fun _ _ => ?_
    refine .bind (.mapM fun block hblock => .bind ?_ fun _ _ => .ok _) fun _ _ => .ok _
    have hjumps := exists_jumpTarget_of_mem_cutBlocks (fun _ => starts_of_checkTargets htargets) hblock
    rcases flowEdges_cases block.index hjumps with ⟨-, edges, hedges⟩ | ⟨-, fault, hfault, hother⟩
    · rw [hedges]
      exact .ok edges
    · rw [hfault]
      exact .error (by simp [OutsideBlocks, hother])

/-- A branch is the last of its block, where it is asked for its target. -/
theorem Built.carriesTarget (hb : Built instructions handlers graph) (hinst : inst ∈ instructions) :
    inst.CarriesTarget := by
  intro hbranch
  obtain ⟨i, part, hpart, hmem⟩ := exists_part handlers hinst
  have hends : inst.endsBlock = true := by
    refine endsBlock_of_jumps ?_
    rcases hbranch with hclass | hclass <;> simp [Instruction.jumps, hclass]
  have hlast : (bareBlock i part).last = inst :=
    (eq_partLast_of_endsBlock (List.mem_of_getElem? hpart) hmem hends).symm
  obtain ⟨block, hblock, -, -⟩ := hb.block_of_part hpart
  obtain ⟨other, edges, hother, hflow, -⟩ := hb.part_of_block hblock
  obtain rfl := Option.some.inj (hpart.symm.trans hother)
  have hjumps : ∀ target ∈ (bareBlock i part).last.targets,
      ∃ j, jumpTarget (cutBlocks instructions handlers) target = .ok j := by
    rw [hlast]
    exact fun target => exists_jumpTarget hinst (hb.targets inst hinst)
  rcases flowEdges_cases i hjumps with ⟨hcarries, -⟩ | ⟨-, fault, hfault, -⟩
  · rw [hlast] at hcarries
    exact hcarries hbranch
  · rw [hflow] at hfault
    cases hfault

theorem Built.wellFormed (hb : Built instructions handlers graph) :
    Code.WellFormed instructions handlers where
  nonempty := hb.nonempty
  increasing := hb.increasing
  targets := hb.targets
  branches _ hinst := hb.carriesTarget hinst
  landmarks handler hmem := by
    refine ⟨hb.handler handler hmem, hb.start handler hmem, ?_⟩
    rcases hb.stop handler hmem with hstop | hbehind
    · exact .inl hstop
    · exact .inr fun last hlast => hbehind last (List.mem_of_getLast? hlast)

theorem exists_build_of_wellFormed (h : Code.WellFormed instructions handlers) :
    ∃ graph, build instructions handlers = .ok graph := by
  obtain ⟨last, hlast⟩ := Option.isSome_iff_exists.1 (List.getLast?_isSome.2 h.nonempty)
  have hconnect : ∀ block ∈ cutBlocks instructions handlers,
      ∃ connected, connect (cutBlocks instructions handlers) handlers block = .ok connected := by
    intro block hblock
    have hmem : block.last ∈ instructions := mem_of_mem_cutBlocks hblock block.last_mem
    have hjumps := exists_jumpTarget_of_mem_cutBlocks h.targets hblock
    rcases flowEdges_cases block.index hjumps with ⟨-, edges, hedges⟩ | ⟨hnot, -⟩
    · exact ⟨_, bind_eq_ok_iff.2 ⟨edges, hedges, rfl⟩⟩
    · exact absurd (h.branches block.last hmem) hnot
  obtain ⟨blocks, hblocks⟩ := exists_mapM_eq_ok hconnect
  refine ⟨⟨blocks⟩, build_eq_ok_iff.2 ⟨last, hlast, checkIncreasing_of_pairwise h.increasing, ?_, ?_, hblocks⟩⟩
  · exact (forM_eq_ok_iff _).2 fun inst hinst => checkTargets_of_starts (h.targets inst hinst)
  · exact (forM_eq_ok_iff _).2 fun handler hmem => checkHandler_of_fits hlast (h.landmarks handler hmem)

/-- **Exactly well-formed code has a flow graph.** Whatever the code is, no jump is refused for leading into
    the middle of a block; and where there is a graph, every handler has found its block. -/
theorem exists_build_iff (instructions : List Instruction) (handlers : List ExceptionHandler) :
    ((∃ graph, build instructions handlers = .ok graph) ↔ Code.WellFormed instructions handlers)
      ∧ (∀ offset, build instructions handlers ≠ .error (.malformedCode offset .targetInsideBlock))
      ∧ ∀ graph, build instructions handlers = .ok graph → ∀ handler ∈ handlers,
          ∃ i, blockStartingAt? (cutBlocks instructions handlers) handler.handler = some i := by
  refine ⟨⟨?_, exists_build_of_wellFormed⟩, ?_, ?_⟩
  · rintro ⟨graph, hgraph⟩
    exact (built_of_build hgraph).wellFormed
  · intro offset herror
    exact build_failsWith instructions handlers _ herror offset rfl
  · intro graph hgraph handler hmem
    exact exists_handlerBlock hmem ((built_of_build hgraph).handler handler hmem)

/-- A jump with a handler is well-formed, and the handler has its block. A branch with a table of targets is
    not, though each of them is an offset. -/
theorem exists_build_iff_guardedJump :
    Code.WellFormed guardedJump [⟨0, 1, 6, none⟩]
      ∧ (∃ i, blockStartingAt? (cutBlocks guardedJump [⟨0, 1, 6, none⟩]) 6 = some i)
      ∧ ¬ Code.WellFormed [⟨0, 0x99, .switch 0 [], none⟩] [] := by
  obtain ⟨hiff, -, hfound⟩ := exists_build_iff guardedJump [⟨0, 1, 6, none⟩]
  have hbuild : ∃ graph, build guardedJump [⟨0, 1, 6, none⟩] = .ok graph := ⟨_, rfl⟩
  refine ⟨hiff.1 hbuild, ?_, fun hwell => ?_⟩
  · obtain ⟨graph, hgraph⟩ := hbuild
    exact hfound graph hgraph ⟨0, 1, 6, none⟩ List.mem_cons_self
  · obtain ⟨graph, hgraph⟩ := (exists_build_iff _ _).1.2 hwell
    have hrefused : build [⟨0, 0x99, .switch 0 [], none⟩] []
        = .error (.malformedCode 0 .conditionalWithoutTarget) := rfl
    rw [hrefused] at hgraph
    cases hgraph

end Graph

end PatchPresence
