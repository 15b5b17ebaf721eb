/-
  PatchPresence.Proofs.Feature.LoopExits — what is counted as an exit of a loop.

  The signature of a loop counts, by what they compare with, the conditional branches that leave the loop. A
  member that ends in a conditional branch is held to leave the loop when any of its edges does, and among its
  edges are those to the handlers of the ranges around it. So a branch with both ways inside the loop is
  counted all the same when an exception raised there is handled outside.

  Main results:
    * `Graph.Built.kind_of_conditional` — a conditional branch has edges of its two ways and of exceptions.
    * `MethodBody.loopExits_of_features` — the exits counted are the branches that leave the loop and, in
      addition, those that stay but have a handler outside.
    * `MethodBody.loopExits_guardedBranch` — a loop of which both are counted.
-/
import PatchPresence.Proofs.Feature.Conservation

namespace PatchPresence

/-! ## §1. Exits of signatures. -/

/-- Number of exits of all classes. -/
def LoopSignature.exits (signature : LoopSignature) : Nat :=
  signature.constantExits + signature.variableExits + signature.callExits

/-- Every exit has one class. -/
theorem LoopSignature.exits_ofExits (depth : Nat) (classes : List ExitClass) :
    (ofExits depth classes).exits = classes.length := by
  show classes.count .constant + classes.count .variable + classes.count .call = classes.length
  induction classes with
  | nil => rfl
  | cons first rest ih =>
    rw [List.length_cons, ← ih]
    cases first <;> simp <;> omega

/-! ## §2. Ways out of a loop. -/

/-- Whether an edge is one of the two ways of a conditional branch. -/
def Edge.isBranch (edge : Edge) : Bool := edge.kind = .conditionalTrue || edge.kind = .conditionalFalse

/-- Whether an edge leads to no member of a loop. -/
def Edge.leadsOutOf (loop : NaturalLoop) (edge : Edge) : Bool :=
  match edge.target with
  | .block target => target ∉ loop.members
  | .exit => true

namespace Graph

/-- Whether a block ends in a conditional branch and has an edge of a sort out of a loop. -/
def hasWayOut (graph : Graph) (loop : NaturalLoop) (sort : Edge → Bool) (index : Nat) : Bool :=
  (graph.block? index).any fun block =>
    block.last.opcode.isConditional && block.edges.any fun edge => sort edge && edge.leadsOutOf loop

/-- Whether a block ends in a conditional branch of which one way leaves a loop. -/
def branchesOut (graph : Graph) (loop : NaturalLoop) (index : Nat) : Bool :=
  graph.hasWayOut loop Edge.isBranch index

/-- Whether a block ends in a conditional branch that stays in a loop, and a handler of the block is
    outside. -/
def onlyRaisesOut (graph : Graph) (loop : NaturalLoop) (index : Nat) : Bool :=
  !graph.branchesOut loop index && graph.hasWayOut loop (·.kind = .exception) index

/-! ## §3. Edges of conditional branches. -/

variable {instructions : List Instruction} {handlers : List ExceptionHandler} {graph : Graph}
  {index : Nat} {block : Block}

/-- Control leaves a conditional branch for its target or for the next block. -/
theorem flowEdges_of_conditional {blocks : List Block} {edges : List Edge}
    (hlast : block.last.opcode.isConditional = true) (h : flowEdges blocks index block = .ok edges) :
    ∃ (target : Nat) (next : List EdgeTarget),
      edges = ⟨.block target, .conditionalTrue⟩ :: next.map (⟨·, .conditionalFalse⟩) := by
  obtain ⟨hexit, hswitch, -⟩ := Opcode.classes_disjoint block.last.opcode
  have hnotExit : ¬ block.last.opcode.isExit = true := fun hclass => by
    rw [(hexit hclass).1] at hlast
    cases hlast
  have hnotSwitch : ¬ block.last.opcode.isSwitch = true := fun hclass => by
    rw [(hswitch hclass).1] at hlast
    cases hlast
  unfold flowEdges at h
  simp only [if_neg hnotExit, if_neg hnotSwitch, if_pos hlast] at h
  split at h
  · obtain ⟨target, -, h⟩ := bind_eq_ok_iff.1 h
    exact ⟨target, _, (Except.ok.inj h).symm⟩
  · cases h

/-- A conditional branch has edges of its two ways and of exceptions. -/
theorem Built.kind_of_conditional (hb : Built instructions handlers graph)
    (hblock : graph.block? index = some block) (hlast : block.last.opcode.isConditional = true) :
    ∀ edge ∈ block.edges, edge.isBranch = true ∨ edge.kind = .exception := by
  obtain ⟨part, edges, -, hflow, rfl⟩ := hb.part_of_block hblock
  intro edge hedge
  rcases List.mem_append.1 hedge with hedge | hedge
  · left
    rcases flowEdges_of_conditional hlast hflow with ⟨target, next, rfl⟩
    rcases List.mem_cons.1 hedge with rfl | hedge
    · rfl
    · obtain ⟨_, -, rfl⟩ := List.mem_map.1 hedge
      rfl
  · right
    obtain ⟨_, -, rfl⟩ := List.mem_map.1 hedge
    rfl

theorem hasWayOut_iff {loop : NaturalLoop} {sort : Edge → Bool} :
    graph.hasWayOut loop sort index = true
      ↔ ∃ block, graph.block? index = some block ∧ block.last.opcode.isConditional = true
          ∧ ∃ edge ∈ block.edges, sort edge = true ∧ edge.leadsOutOf loop = true := by
  unfold hasWayOut
  simp [Option.any_eq_true]

/-- A conditional branch leaves a loop by one of its two ways, or else by an exception. -/
theorem Built.hasWayOut_iff_branchesOut (hb : Built instructions handlers graph) {loop : NaturalLoop} :
    graph.hasWayOut loop (fun _ => true) index = true
      ↔ graph.branchesOut loop index = true ∨ graph.onlyRaisesOut loop index = true := by
  have hwiden : ∀ sort, graph.hasWayOut loop sort index = true →
      graph.hasWayOut loop (fun _ => true) index = true := by
    intro sort h
    obtain ⟨block, hblock, hlast, edge, hedge, -, hout⟩ := hasWayOut_iff.1 h
    exact hasWayOut_iff.2 ⟨block, hblock, hlast, edge, hedge, rfl, hout⟩
  constructor
  · intro h
    by_cases hbranch : graph.branchesOut loop index = true
    · exact .inl hbranch
    · -- the edge out is none of the two ways, so it is one of an exception
      obtain ⟨block, hblock, hlast, edge, hedge, -, hout⟩ := hasWayOut_iff.1 h
      rcases hb.kind_of_conditional hblock hlast edge hedge with hkind | hkind
      · exact absurd (hasWayOut_iff.2 ⟨block, hblock, hlast, edge, hedge, hkind, hout⟩) hbranch
      · refine .inr (Bool.and_eq_true_iff.2 ⟨by simpa using hbranch, ?_⟩)
        exact hasWayOut_iff.2 ⟨block, hblock, hlast, edge, hedge, by simpa using hkind, hout⟩
  · rintro (h | h)
    · exact hwiden _ h
    · exact hwiden _ (Bool.and_eq_true_iff.1 h).2

/-- Members with a way out are those that branch out and those that only raise out. -/
theorem Built.countP_hasWayOut (hb : Built instructions handlers graph) (loop : NaturalLoop) :
    loop.members.countP (graph.hasWayOut loop fun _ => true)
      = loop.members.countP (graph.branchesOut loop) + loop.members.countP (graph.onlyRaisesOut loop) := by
  rw [List.countP_eq_countP_filter_add _ _ (graph.branchesOut loop), List.countP_filter, List.countP_filter]
  congr 1
  · apply List.countP_congr
    intro index _
    rw [Bool.and_eq_true, hb.hasWayOut_iff_branchesOut]
    exact ⟨And.right, fun h => ⟨.inl h, h⟩⟩
  · apply List.countP_congr
    intro index _
    rw [Bool.and_eq_true, hb.hasWayOut_iff_branchesOut]
    constructor
    · rintro ⟨hbranch | honly, hnot⟩
      · simp [hbranch] at hnot
      · exact honly
    · intro honly
      exact ⟨.inr honly, (Bool.and_eq_true_iff.1 honly).1⟩

end Graph

/-! ## §4. Exits of the loops of a method. -/

namespace AnalyzedCode

theorem leaves_eq (loop : NaturalLoop) (block : Block) :
    leaves loop block = block.edges.any fun edge => edge.leadsOutOf loop := by
  unfold leaves
  congr 1
  funext edge
  unfold Edge.leadsOutOf Edge.block?
  cases edge.target <;> simp [NaturalLoop.contains]

/-- All edges out of a loop are counted, whatever their kind. -/
theorem exits_loopSignature (code : AnalyzedCode) (loop : NaturalLoop) :
    (code.loopSignature loop).exits
      = loop.members.countP (code.graph.hasWayOut loop fun _ => true) := by
  unfold loopSignature branchingMembers
  rw [LoopSignature.exits_ofExits, List.length_map, List.filter_filter, ← List.countP_eq_length_filter,
    List.countP_filterMap]
  congr 1
  funext index
  unfold Graph.hasWayOut
  cases code.graph.block? index with
  | none => rfl
  | some block => simp [leaves_eq, Bool.and_comm]

section Built

variable {code : AnalyzedCode} {instructions : List Instruction} {handlers : List ExceptionHandler}

/-- The exits counted are branches that leave the loop, and branches that stay but have a handler outside. -/
theorem exits_eq_add (hb : code.graph.Built instructions handlers) (loop : NaturalLoop) :
    (code.loopSignature loop).exits
      = loop.members.countP (code.graph.branchesOut loop)
        + loop.members.countP (code.graph.onlyRaisesOut loop) :=
  (code.exits_loopSignature loop).trans (hb.countP_hasWayOut loop)

theorem exits_eq_iff (hb : code.graph.Built instructions handlers) (loop : NaturalLoop) :
    (code.loopSignature loop).exits = loop.members.countP (code.graph.branchesOut loop)
      ↔ ∀ member ∈ loop.members, code.graph.hasWayOut loop (·.kind = .exception) member = true →
          code.graph.branchesOut loop member = true := by
  rw [exits_eq_add hb, Nat.add_eq_left, List.countP_eq_zero]
  refine forall_congr' fun member => imp_congr_right fun _ => ?_
  unfold Graph.onlyRaisesOut
  cases code.graph.branchesOut loop member <;> simp

end Built

/-- Instructions are no loops. -/
theorem loopsOf_featuresOf (code : AnalyzedCode) (previous : Option Instruction) (inst : Instruction) :
    FeatureSet.loopsOf (code.featuresOf {} code.loopControl previous inst) = [] := by
  obtain ⟨values, hvalues⟩ := exists_constantsOf_eq previous inst
  obtain ⟨targets, htargets⟩ := code.exists_callsOf_eq inst
  unfold FeatureSet.loopsOf
  rw [featuresOf_all, shapesOf_eq, hvalues, htargets, accessesOf_eq, creationsOf_eq]
  simp [List.filterMap_append, List.filterMap_map]

theorem loopsOf_loopFindings (code : AnalyzedCode) :
    FeatureSet.loopsOf ((code.loopFindings {}).map Finding.feature) = code.loops.map code.loopSignature := by
  unfold loopFindings FeatureSet.loopsOf
  rw [List.map_flatMap, List.filterMap_flatMap, List.map_eq_flatMap]
  rfl

/-- Where loops are collected, the loops of the feature set are the signatures of all loops. -/
theorem perm_loops (code : AnalyzedCode) {families : Families} (hloops : families.loops = true) :
    (code.features families).loops.Perm (code.loops.map code.loopSignature) := by
  have hall : (code.features families).loops = (code.features {}).loops := by
    rw [FeatureSet.code_restrict]
    exact if_pos hloops
  have hblocks : FeatureSet.loopsOf ((code.blockFindings {}).map Finding.feature) = [] := by
    refine (@filterMap_blockFindings code LoopSignature _ (fun _ => none) {} fun inst _ previous => ?_).trans
      (List.filterMap_none _)
    exact code.loopsOf_featuresOf previous inst
  rw [hall]
  unfold features FeatureSet.ofFindings
  refine (List.mergeSort_perm _ _).trans (List.Perm.of_eq ?_)
  rw [List.map_append, ← code.loopsOf_loopFindings]
  unfold FeatureSet.loopsOf at hblocks ⊢
  rw [List.filterMap_append, hblocks, List.append_nil]

end AnalyzedCode

/-- **What the exits of a loop are counted from.** For every method body that is analysed, the loops of its
    feature set are the signatures of the loops found. The exits of a signature are the members that end in a
    conditional branch of which one way leaves the loop, and those that end in one that stays but have a
    handler outside. So only branches that leave are counted exactly when each member that ends in a
    conditional branch and has a handler outside has a way out too. -/
theorem MethodBody.loopExits_of_features {body : MethodBody} {config : Config} {set : FeatureSet}
    (h : body.features config = .ok set) :
    ∃ code : AnalyzedCode,
      Graph.build body.instructions body.handlers = .ok code.graph
      ∧ Dominators.compute code.graph (config.iterationCap code.graph.size) = .ok code.dominators
      ∧ code.loops = LoopNest.find code.graph code.dominators
      ∧ (config.families.loops = true → set.loops.Perm (code.loops.map code.loopSignature))
      ∧ ∀ loop ∈ code.loops,
          loop.members.Nodup
          ∧ (code.loopSignature loop).exits
              = loop.members.countP (code.graph.branchesOut loop)
                + loop.members.countP (code.graph.onlyRaisesOut loop)
          ∧ ((code.loopSignature loop).exits = loop.members.countP (code.graph.branchesOut loop)
              ↔ ∀ member ∈ loop.members, code.graph.hasWayOut loop (·.kind = .exception) member = true →
                  code.graph.branchesOut loop member = true) := by
  unfold features at h
  obtain ⟨graph, hgraph, h⟩ := bind_eq_ok_iff.1 h
  obtain ⟨dominators, hdominators, h⟩ := bind_eq_ok_iff.1 h
  obtain ⟨typing, -, h⟩ := bind_eq_ok_iff.1 h
  obtain rfl := Except.ok.inj h
  have hb := Graph.built_of_build hgraph
  refine ⟨_, hgraph, hdominators, rfl, AnalyzedCode.perm_loops _, fun loop hloop => ?_⟩
  refine ⟨?_, AnalyzedCode.exits_eq_add hb loop, AnalyzedCode.exits_eq_iff hb loop⟩
  rw [(LoopNest.of_mem_find hloop).2.2.1]
  exact List.nodup_range.filter _

/-! ## §5. A branch that stays in its loop. -/

/-- `while (x != 0) { if (x != 0) continue; }` in a range whose handler is behind the loop. Both ways of the
    inner branch lead back to the loop. -/
def guardedBranch : MethodBody where
  signature := ⟨"a/B", "run", "(I)V", true⟩
  instructions :=
    [⟨0, 0x1a, .none, none⟩, ⟨1, 0x99, .branch 11, none⟩, ⟨4, 0x1a, .none, none⟩,
      ⟨5, 0x9a, .branch 0, none⟩, ⟨8, 0xa7, .branch 0, none⟩, ⟨11, 0xb1, .none, none⟩,
      ⟨12, 0xbf, .none, none⟩]
  handlers := [⟨0, 11, 12, none⟩]

namespace GuardedBranch

/-- The flow graph of `guardedBranch`. -/
def graph : Graph := ⟨[
  ⟨0, ⟨0, 0x1a, .none, none⟩, [⟨1, 0x99, .branch 11, none⟩],
    [⟨.block 3, .conditionalTrue⟩, ⟨.block 1, .conditionalFalse⟩, ⟨.block 4, .exception⟩]⟩,
  ⟨1, ⟨4, 0x1a, .none, none⟩, [⟨5, 0x9a, .branch 0, none⟩],
    [⟨.block 0, .conditionalTrue⟩, ⟨.block 2, .conditionalFalse⟩, ⟨.block 4, .exception⟩]⟩,
  ⟨2, ⟨8, 0xa7, .branch 0, none⟩, [], [⟨.block 0, .jump⟩, ⟨.block 4, .exception⟩]⟩,
  ⟨3, ⟨11, 0xb1, .none, none⟩, [], [⟨.exit, .leave⟩]⟩,
  ⟨4, ⟨12, 0xbf, .none, none⟩, [], [⟨.exit, .leave⟩]⟩]⟩

/-- Dominators of its blocks. -/
def dominators : Dominators :=
  .ofSets [some [0], some [0, 1], some [0, 1, 2], some [0, 3], some [0, 4]]

/-- Its loop. -/
def loop : NaturalLoop := ⟨0, [0, 1, 2], [1, 2], 1, none⟩

theorem build_eq : Graph.build guardedBranch.instructions guardedBranch.handlers = .ok graph := by rfl

theorem compute_eq : Dominators.compute graph 10 = .ok dominators := by
  have hreachable : graph.reachable = [0, 1, 2, 3, 4] := by cbv
  have hsets : DominatorSets.iterate graph 10 (.initial graph)
      = some [some [0], some [0, 1], some [0, 1, 2], some [0, 3], some [0, 4]] := by
    simp only [DominatorSets.iterate, DominatorSets.round, DominatorSets.initial, hreachable]
    decide +kernel
  rw [Dominators.compute, if_neg (by decide), hsets]
  rfl

theorem find_eq : LoopNest.find graph dominators = [loop] := by
  have hreachable : ∀ block ∈ graph.blocks.map Block.index, dominators.isReachable block = true := by
    decide
  have hbackwards : (fun block => (graph.predecessors block).filter dominators.isReachable)
      = graph.predecessors := by
    funext block
    rw [List.filter_eq_self]
    intro before hbefore
    exact hreachable before ((List.filter_sublist.map Block.index).subset hbefore)
  have hexplored : explore graph.predecessors 5 [1, 2] [0] = [0, 1, 2] := by cbv
  have hmembers : LoopNest.members graph dominators 0 = [0, 1, 2] := by
    rw [LoopNest.members, hbackwards]
    exact congrArg (fun visited => (List.range 5).filter visited.contains) hexplored
  have hseparate : LoopNest.separate graph dominators
      = [⟨0, LoopNest.members graph dominators 0, [1, 2], 1, none⟩] := rfl
  rw [LoopNest.find, hseparate, hmembers]
  decide

/-- What is known of it when it was analysed. -/
def code : AnalyzedCode := ⟨guardedBranch.signature, graph, dominators, [loop], .empty⟩

theorem features_eq : guardedBranch.features { capFactor := 2 } = .ok (code.features {}) := by
  let typing : OperandTyping := ⟨⟨[
    (0, ⟨[], [.int]⟩), (1, ⟨[], [.int]⟩), (2, ⟨[], [.int]⟩), (3, ⟨[], [.int]⟩),
    (4, ⟨[.reference "java/lang/Throwable"], [.int]⟩)]⟩, ⟨.empty, []⟩⟩
  have hinfer : OperandTyping.infer graph guardedBranch.signature guardedBranch.handlers ⟨false, 10⟩
      = .ok typing := eq_ok_of_toOption (by decide +kernel)
  refine bind_eq_ok_iff.2 ⟨graph, build_eq, bind_eq_ok_iff.2 ⟨dominators, compute_eq,
    bind_eq_ok_iff.2 ⟨typing, hinfer, ?_⟩⟩⟩
  rw [find_eq]
  rfl

end GuardedBranch

/-- In `guardedBranch` one branch leaves the loop, and one is counted for its handler. -/
theorem MethodBody.loopExits_of_features_guardedBranch :
    guardedBranch.features { capFactor := 2 } = .ok (GuardedBranch.code.features {})
      ∧ ∃ code : AnalyzedCode, ∃ loop ∈ code.loops,
          Graph.build guardedBranch.instructions guardedBranch.handlers = .ok code.graph
          ∧ (code.loopSignature loop).exits = 1 + 1
          ∧ code.graph.branchesOut loop 0 = true ∧ code.graph.onlyRaisesOut loop 1 = true := by
  obtain ⟨code, hbuild, hcompute, hloops, -, hexits⟩ := loopExits_of_features GuardedBranch.features_eq
  obtain ⟨signature, graph, dominators, loops, arguments⟩ := code
  obtain rfl : GuardedBranch.graph = graph := Except.ok.inj (GuardedBranch.build_eq.symm.trans hbuild)
  obtain rfl : GuardedBranch.dominators = dominators :=
    Except.ok.inj (GuardedBranch.compute_eq.symm.trans hcompute)
  obtain rfl : loops = [GuardedBranch.loop] := hloops.trans GuardedBranch.find_eq
  exact ⟨GuardedBranch.features_eq, _, GuardedBranch.loop, List.mem_singleton_self _, hbuild,
    (hexits _ (List.mem_singleton_self _)).2.1, rfl, rfl⟩

/-- The signature of the loop has two exits, where one member leaves the loop by its branch. -/
theorem MethodBody.loopExits_guardedBranch :
    guardedBranch.features { capFactor := 2 } = .ok (GuardedBranch.code.features {})
      ∧ (GuardedBranch.code.features {}).loops = [⟨1, 2, 0, 0⟩]
      ∧ Graph.build guardedBranch.instructions guardedBranch.handlers = .ok GuardedBranch.graph
      ∧ Dominators.compute GuardedBranch.graph 10 = .ok GuardedBranch.dominators
      ∧ LoopNest.find GuardedBranch.graph GuardedBranch.dominators = [GuardedBranch.loop]
      ∧ GuardedBranch.loop.members.countP (GuardedBranch.graph.branchesOut GuardedBranch.loop) = 1 :=
  ⟨GuardedBranch.features_eq, List.perm_singleton.1 (AnalyzedCode.perm_loops _ rfl), GuardedBranch.build_eq,
    GuardedBranch.compute_eq, GuardedBranch.find_eq, by decide⟩

end PatchPresence
