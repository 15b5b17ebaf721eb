/-
  PatchPresence.Proofs.Flow.Simulation — control flow between instructions and between blocks.

  `Code.Step` is the flow relation of the instructions themselves: control goes on to the next
  instruction, jumps to a target of the operand, or raises into a handler whose range holds the offset.
  The graph shows the same flow between blocks. The two meet because only the last instruction of a block
  jumps, and because no protected range starts or ends inside a block.

  Main result:
    * `Graph.entered_iff_mem_reachable` — control reaches an instruction exactly when the block that holds
      it is a reachable block of the graph.
-/
import PatchPresence.Proofs.Flow.Path

namespace PatchPresence

/-! ## §1. The flow relation of instructions. -/

namespace Code

/-- Control may go from one instruction directly to another. -/
inductive Step (instructions : List Instruction) (handlers : List ExceptionHandler) :
    Instruction → Instruction → Prop
  | next {a b : Instruction} (hfollows : Follows instructions a b) (hfalls : a.fallsThrough = true) :
      Step instructions handlers a b
  | jump {a b : Instruction} (hb : b ∈ instructions) (hjumps : a.jumps = true)
      (htarget : b.offset ∈ a.targets) : Step instructions handlers a b
  | raise {a b : Instruction} {handler : ExceptionHandler} (hb : b ∈ instructions)
      (hhandler : handler ∈ handlers) (hprotects : handler.protects a.offset = true)
      (htarget : b.offset = handler.handler) : Step instructions handlers a b

/-- Control may reach an instruction from the first one. -/
inductive Entered (instructions : List Instruction) (handlers : List ExceptionHandler) :
    Instruction → Prop
  | first {a : Instruction} (hfirst : instructions.head? = some a) : Entered instructions handlers a
  | step {a b : Instruction} (ha : Entered instructions handlers a)
      (hstep : Step instructions handlers a b) : Entered instructions handlers b

theorem Step.mem_target {instructions : List Instruction} {handlers : List ExceptionHandler}
    {a b : Instruction} (h : Step instructions handlers a b) : b ∈ instructions := by
  cases h with
  | next hfollows _ => exact hfollows.mem_right
  | jump hb _ _ => exact hb
  | raise hb _ _ _ => exact hb

theorem Entered.mem {instructions : List Instruction} {handlers : List ExceptionHandler}
    {a : Instruction} (h : Entered instructions handlers a) : a ∈ instructions := by
  cases h with
  | first hfirst => exact List.mem_of_mem_head? hfirst
  | step _ hstep => exact hstep.mem_target

end Code

namespace Graph

/-! ## §2. Leaders. -/

variable {instructions : List Instruction} {handlers : List ExceptionHandler} {graph : Graph}
variable {a b : Instruction} {i j : Nat} {part next : Instruction × List Instruction}

theorem mem_followers (h : Follows instructions a b) (hends : a.endsBlock = true) :
    b.offset ∈ followers instructions := by
  induction h with
  | here =>
    unfold followers
    rw [if_pos hends]
    exact List.mem_cons_self
  | @there a b c rest h ih =>
    cases rest with
    | nil => cases h
    | cons d rest =>
      unfold followers
      split
      · exact List.mem_cons_of_mem _ (ih hends)
      · exact ih hends

theorem leadsBlock_of_mem_targets (ha : a ∈ instructions) (h : b.offset ∈ a.targets) :
    leadsBlock instructions handlers b = true := by
  have : b.offset ∈ instructions.flatMap Instruction.targets := List.mem_flatMap.2 ⟨a, ha, h⟩
  simp only [leadsBlock, leaders, List.contains_iff_mem, List.mem_append]
  exact .inl (.inl (.inr this))

theorem leadsBlock_of_follows (h : Follows instructions a b) (hends : a.endsBlock = true) :
    leadsBlock instructions handlers b = true := by
  simp only [leadsBlock, leaders, List.contains_iff_mem, List.mem_append]
  exact .inl (.inr (mem_followers h hends))

theorem leadsBlock_of_landmark {handler : ExceptionHandler} (hmem : handler ∈ handlers)
    (h : b.offset ∈ [handler.handler, handler.start, handler.stop]) :
    leadsBlock instructions handlers b = true := by
  simp only [leadsBlock, leaders, List.contains_iff_mem, List.mem_append]
  exact .inr (List.mem_flatMap.2 ⟨handler, hmem, h⟩)

/-- Control that does not end a block goes on to the next instruction. -/
theorem fallsThrough_of_endsBlock (h : a.endsBlock = false) : a.fallsThrough = true := by
  simp only [Instruction.endsBlock, Opcode.endsBlock, Bool.or_eq_false_iff] at h
  simp [Instruction.fallsThrough, h]

theorem endsBlock_of_jumps (h : a.jumps = true) : a.endsBlock = true := by
  simp only [Instruction.jumps, Bool.or_eq_true] at h
  simp only [Instruction.endsBlock, Opcode.endsBlock, Bool.or_eq_true]
  exact .inr (.inl h)

/-- An instruction that ends a block stands last in its part. -/
theorem eq_partLast_of_endsBlock (hpart : part ∈ parts instructions handlers)
    (ha : a ∈ partElements part) (hends : a.endsBlock = true) : a = partLast part := by
  rcases eq_partLast_or_follows ha with hlast | ⟨b, hb⟩
  · exact hlast
  · obtain ⟨hfollows, hleads⟩ := follows_of_part hpart hb
    rw [leadsBlock_of_follows hfollows hends] at hleads
    cases hleads

/-- Inside a part, control goes from each instruction to the one behind it. -/
theorem step_of_part (hpart : part ∈ parts instructions handlers)
    (h : Follows (partElements part) a b) : Code.Step instructions handlers a b := by
  obtain ⟨hfollows, hleads⟩ := follows_of_part hpart h
  refine .next hfollows (fallsThrough_of_endsBlock ?_)
  cases hends : a.endsBlock with
  | false => rfl
  | true =>
    rw [leadsBlock_of_follows hfollows hends] at hleads
    cases hleads

theorem entered_of_part (hpart : part ∈ parts instructions handlers)
    (hfirst : Code.Entered instructions handlers part.1) (ha : a ∈ partElements part) :
    Code.Entered instructions handlers a :=
  Follows.forall_mem hfirst (fun _ _ hfollows hc => .step hc (step_of_part hpart hfollows)) a ha

theorem exists_part (handlers : List ExceptionHandler) (ha : a ∈ instructions) :
    ∃ (i : Nat) (part : Instruction × List Instruction),
      (parts instructions handlers)[i]? = some part ∧ a ∈ partElements part := by
  obtain ⟨part, hpart, hmem⟩ := mem_iff_mem_cut.1 ha
  obtain ⟨i, hi⟩ := List.mem_iff_getElem?.1 hpart
  exact ⟨i, part, hi, hmem⟩

theorem mem_of_mem_part (hi : (parts instructions handlers)[i]? = some part)
    (ha : a ∈ partElements part) : a ∈ instructions :=
  mem_iff_mem_cut.2 ⟨part, List.mem_of_getElem? hi, ha⟩

/-- A relation between all pairs of a list tells positions apart. -/
theorem index_eq_of_pairwise {α : Type} {R : α → α → Prop} {xs : List α} {x y : α}
    (h : xs.Pairwise R) (hi : xs[i]? = some x) (hj : xs[j]? = some y) (hxy : ¬ R x y)
    (hyx : ¬ R y x) : i = j := by
  obtain ⟨hilt, rfl⟩ := List.getElem?_eq_some_iff.1 hi
  obtain ⟨hjlt, rfl⟩ := List.getElem?_eq_some_iff.1 hj
  rw [List.pairwise_iff_getElem] at h
  rcases Nat.lt_trichotomy i j with hlt | heq | hgt
  · exact absurd (h i j hilt hjlt hlt) hxy
  · exact heq
  · exact absurd (h j i hjlt hilt hgt) hyx

namespace Built

/-! ## §3. Offsets and parts. -/

/-- Offsets tell instructions apart. -/
theorem eq_of_offset_eq (hbuilt : Built instructions handlers graph) (ha : a ∈ instructions)
    (hb : b ∈ instructions) (h : a.offset = b.offset) : a = b := by
  obtain ⟨i, hi⟩ := List.mem_iff_getElem?.1 ha
  obtain ⟨j, hj⟩ := List.mem_iff_getElem?.1 hb
  have hij : i = j := index_eq_of_pairwise hbuilt.increasing hi hj (by omega) (by omega)
  rw [hij, hj] at hi
  exact (Option.some.inj hi).symm

/-- An instruction lies in one part only. -/
theorem part_unique (hbuilt : Built instructions handlers graph)
    (hi : (parts instructions handlers)[i]? = some part) (ha : a ∈ partElements part)
    (hj : (parts instructions handlers)[j]? = some next) (ha' : a ∈ partElements next) :
    i = j := by
  have hincreasing := hbuilt.increasing
  rw [← flatten_cut (leadsBlock instructions handlers) instructions, List.pairwise_flatMap]
    at hincreasing
  refine index_eq_of_pairwise hincreasing.2 hi hj (fun h => ?_) (fun h => ?_)
  · exact Nat.lt_irrefl _ (h a ha a ha')
  · exact Nat.lt_irrefl _ (h a ha' a ha)

/-- The block at the offset of a leader is the one that holds the leader. -/
theorem blockStartingAt?_of_leads (hbuilt : Built instructions handlers graph)
    (hj : (parts instructions handlers)[j]? = some next) (hb : b ∈ partElements next)
    (hleads : leadsBlock instructions handlers b = true) :
    blockStartingAt? (cutBlocks instructions handlers) b.offset = some j := by
  have hfirst : b = next.1 := by
    rcases List.mem_cons.1 hb with hfirst | hrest
    · exact hfirst
    · rw [leads_eq_false_of_mem_rest (List.mem_of_getElem? hj) hrest] at hleads
      cases hleads
  obtain ⟨k, hk⟩ := exists_blockStartingAt? hj (congrArg Instruction.offset hfirst).symm
  obtain ⟨other, hother, hoffset⟩ := blockStartingAt?_eq_some hk
  have hmem : other.1 ∈ partElements other := List.mem_cons_self
  have hsame : other.1 = b :=
    hbuilt.eq_of_offset_eq (mem_of_mem_part hother hmem) (mem_of_mem_part hj hb) hoffset
  rw [hk, hbuilt.part_unique hother hmem hj (hsame ▸ hb)]

/-- A leader at or before an instruction of a part is at or before the first of the part. -/
theorem le_first_iff_of_leads (hbuilt : Built instructions handlers graph)
    (hpart : part ∈ parts instructions handlers) (ha : a ∈ partElements part)
    (hb : b ∈ instructions) (hleads : leadsBlock instructions handlers b = true) :
    b.offset ≤ a.offset ↔ b.offset ≤ part.1.offset := by
  obtain ⟨front, back, hcode⟩ := exists_eq_append_of_mem_cut hpart
  have hincreasing := hbuilt.increasing
  rw [hcode, List.append_assoc, List.pairwise_append, List.pairwise_append] at hincreasing
  obtain ⟨-, ⟨hinside, -, hbehind⟩, hbefore⟩ := hincreasing
  have hfirst : part.1.offset ≤ a.offset := by
    rcases List.mem_cons.1 ha with rfl | hrest
    · exact Nat.le_refl _
    · exact Nat.le_of_lt ((List.pairwise_cons.1 hinside).1 a hrest)
  refine ⟨fun hle => ?_, fun hle => Nat.le_trans hle hfirst⟩
  rw [hcode, List.append_assoc, List.mem_append, List.mem_append] at hb
  rcases hb with hfront | hmid | hback
  · exact Nat.le_of_lt (hbefore b hfront part.1 (List.mem_append_left _ List.mem_cons_self))
  · rcases List.mem_cons.1 hmid with rfl | hrest
    · exact Nat.le_refl _
    · rw [leads_eq_false_of_mem_rest hpart hrest] at hleads
      cases hleads
  · have := hbehind a ha b hback
    omega

/-- A protected range holds a part as a whole or not at all. -/
theorem protects_eq (hbuilt : Built instructions handlers graph)
    (hpart : part ∈ parts instructions handlers) (ha : a ∈ partElements part)
    {handler : ExceptionHandler} (hmem : handler ∈ handlers) :
    handler.protects a.offset = handler.protects part.1.offset := by
  have hwithin : ∀ {c}, c ∈ partElements part → c ∈ instructions :=
    fun hc => mem_iff_mem_cut.2 ⟨part, hpart, hc⟩
  have hstart : handler.start ≤ a.offset ↔ handler.start ≤ part.1.offset := by
    obtain ⟨b, hb, hoffset⟩ := hbuilt.start handler hmem
    rw [← hoffset]
    exact hbuilt.le_first_iff_of_leads hpart ha hb (leadsBlock_of_landmark hmem (by simp [hoffset]))
  have hstop : handler.stop ≤ a.offset ↔ handler.stop ≤ part.1.offset := by
    rcases hbuilt.stop handler hmem with ⟨b, hb, hoffset⟩ | hbeyond
    · rw [← hoffset]
      exact hbuilt.le_first_iff_of_leads hpart ha hb
        (leadsBlock_of_landmark hmem (by simp [hoffset]))
    · have hend := hbeyond a (hwithin ha)
      have hbegin := hbeyond part.1 (hwithin List.mem_cons_self)
      omega
  unfold ExceptionHandler.protects
  rw [decide_eq_decide.2 hstart, decide_eq_decide.2 (show a.offset < handler.stop ↔ _ by
    rw [← Nat.not_le, hstop, Nat.not_le])]

/-! ## §4. One step. -/

/-- A step between instructions stays in its block or goes along an edge. -/
theorem eq_or_mem_successors_of_step (hbuilt : Built instructions handlers graph)
    (hstep : Code.Step instructions handlers a b)
    (hi : (parts instructions handlers)[i]? = some part) (ha : a ∈ partElements part)
    (hj : (parts instructions handlers)[j]? = some next) (hb : b ∈ partElements next) :
    i = j ∨ j ∈ graph.successors i := by
  have hpart := List.mem_of_getElem? hi
  rw [hbuilt.mem_successors_iff]
  cases hstep with
  | next hfollows hfalls =>
    rcases part_or_border_of_follows (leadsBlock instructions handlers) hfollows with
      ⟨same, hsame, hin⟩ | ⟨k, other, behind, hk, hbehind, hlast, hfirst⟩
    · obtain ⟨k, hk⟩ := List.mem_iff_getElem?.1 hsame
      have hik := hbuilt.part_unique hi ha hk hin.mem_left
      have hjk := hbuilt.part_unique hj hb hk hin.mem_right
      exact .inl (hik.trans hjk.symm)
    · obtain rfl := hbuilt.part_unique hi ha hk (hlast ▸ partLast_mem other)
      obtain rfl := hbuilt.part_unique hj hb hbehind (hfirst ▸ List.mem_cons_self)
      obtain rfl := Option.some.inj (hi.symm.trans hk)
      refine .inr ⟨part, hi, .next (hlast ▸ hfalls) ?_⟩
      rw [length_cutBlocks]
      exact (List.getElem?_eq_some_iff.1 hj).1
  | jump _ hjumps htarget =>
    have hlast := eq_partLast_of_endsBlock hpart ha (endsBlock_of_jumps hjumps)
    have hleads : leadsBlock instructions handlers b = true :=
      leadsBlock_of_mem_targets (mem_of_mem_part hi ha) htarget
    rw [hlast] at hjumps htarget
    exact .inr ⟨part, hi, .jump hjumps htarget (hbuilt.blockStartingAt?_of_leads hj hb hleads)⟩
  | raise _ hhandler hprotects htarget =>
    rw [hbuilt.protects_eq hpart ha hhandler] at hprotects
    have hleads : leadsBlock instructions handlers b = true :=
      leadsBlock_of_landmark hhandler (by simp [htarget])
    have hstart := hbuilt.blockStartingAt?_of_leads hj hb hleads
    exact .inr ⟨part, hi, .raise hhandler hprotects (htarget ▸ hstart)⟩

/-- Along an edge control may step from an instruction of the block to the first of the next. -/
theorem exists_step_of_mem_successors (hbuilt : Built instructions handlers graph)
    (hi : (parts instructions handlers)[i]? = some part) (hmem : j ∈ graph.successors i) :
    ∃ next a, (parts instructions handlers)[j]? = some next ∧ a ∈ partElements part
      ∧ Code.Step instructions handlers a next.1 := by
  obtain ⟨other, hother, hleads⟩ := (hbuilt.mem_successors_iff j).1 hmem
  obtain rfl := Option.some.inj (hi.symm.trans hother)
  cases hleads with
  | next hfalls hlt =>
    rw [length_cutBlocks] at hlt
    have hnext := List.getElem?_eq_getElem hlt
    obtain ⟨hfollows, -⟩ := follows_of_border hi hnext
    exact ⟨_, partLast part, hnext, partLast_mem part, .next hfollows hfalls⟩
  | jump hjumps hoffset hstart =>
    obtain ⟨next, hnext, rfl⟩ := blockStartingAt?_eq_some hstart
    exact ⟨next, partLast part, hnext, partLast_mem part,
      .jump (mem_of_mem_part hnext List.mem_cons_self) hjumps hoffset⟩
  | raise hhandler hprotects hstart =>
    obtain ⟨next, hnext, hoffset⟩ := blockStartingAt?_eq_some hstart
    exact ⟨next, part.1, hnext, List.mem_cons_self,
      .raise (mem_of_mem_part hnext List.mem_cons_self) hhandler hprotects hoffset⟩

/-! ## §5. Whole runs. -/

/-- The first instruction stands first in the first part. -/
theorem first_part (hbuilt : Built instructions handlers graph) :
    ∃ part, (parts instructions handlers)[0]? = some part
      ∧ instructions.head? = some part.1 := by
  have hlt : 0 < (parts instructions handlers).length := hbuilt.size_eq ▸ hbuilt.size_pos
  obtain ⟨part, rest, hparts⟩ := List.exists_cons_of_length_pos hlt
  obtain ⟨tail, htail⟩ := head?_of_cut hparts
  exact ⟨part, by rw [hparts]; rfl, by rw [htail]; rfl⟩

/-- A path to the block of every instruction that control reaches. -/
theorem path_of_entered (hbuilt : Built instructions handlers graph)
    (h : Code.Entered instructions handlers a)
    (hi : (parts instructions handlers)[i]? = some part) (ha : a ∈ partElements part) :
    ∃ route, graph.Path 0 i route := by
  induction h generalizing i part with
  | first hfirst =>
    obtain ⟨first, hzero, hhead⟩ := hbuilt.first_part
    obtain rfl := Option.some.inj (hfirst.symm.trans hhead)
    obtain rfl := hbuilt.part_unique hi ha hzero List.mem_cons_self
    exact ⟨[0], .start⟩
  | step hbefore hstep ih =>
    obtain ⟨k, before, hk, hmem⟩ := exists_part handlers hbefore.mem
    obtain ⟨route, hroute⟩ := ih hk hmem
    rcases hbuilt.eq_or_mem_successors_of_step hstep hk hmem hi ha with rfl | hedge
    · exact ⟨route, hroute⟩
    · exact ⟨i :: route, .extend hroute (hbuilt.hasEdge_iff.2 hedge)⟩

/-- Control reaches every instruction of a block that a path leads to. -/
theorem entered_of_path (hbuilt : Built instructions handlers graph) {route : List Nat}
    (h : graph.Path 0 i route) :
    ∃ part, (parts instructions handlers)[i]? = some part
      ∧ ∀ a ∈ partElements part, Code.Entered instructions handlers a := by
  induction h with
  | start =>
    obtain ⟨first, hzero, hhead⟩ := hbuilt.first_part
    exact ⟨first, hzero, fun a => entered_of_part (List.mem_of_getElem? hzero) (.first hhead)⟩
  | extend _ hedge ih =>
    obtain ⟨part, hpart, hentered⟩ := ih
    obtain ⟨next, a, hnext, ha, hstep⟩ :=
      hbuilt.exists_step_of_mem_successors hpart (hbuilt.hasEdge_iff.1 hedge)
    exact ⟨next, hnext, fun b =>
      entered_of_part (List.mem_of_getElem? hnext) (.step (hentered a ha) hstep)⟩

end Built

/-- The block at an index holds an instruction. -/
def Holds (graph : Graph) (i : Nat) (inst : Instruction) : Prop :=
  ∃ block, graph.block? i = some block ∧ inst ∈ block.instructions

theorem Built.holds_iff (hbuilt : Built instructions handlers graph) :
    graph.Holds i a
      ↔ ∃ part, (parts instructions handlers)[i]? = some part ∧ a ∈ partElements part := by
  constructor
  · rintro ⟨block, hblock, ha⟩
    obtain ⟨part, edges, hpart, -, rfl⟩ := hbuilt.part_of_block hblock
    exact ⟨part, hpart, ha⟩
  · rintro ⟨part, hpart, ha⟩
    obtain ⟨block, hblock, hfirst, hrest⟩ := hbuilt.block_of_part hpart
    exact ⟨block, hblock, by unfold Block.instructions; rw [hfirst, hrest]; exact ha⟩

/-- **Blocks are reached as their instructions are.** Every instruction of the code lies in one block of
    the graph, and control reaches the instruction from the first one exactly when that block is one of
    the reachable blocks. -/
theorem entered_iff_mem_reachable (hbuild : build instructions handlers = .ok graph)
    (ha : a ∈ instructions) :
    ∃ i, graph.Holds i a ∧ (∀ j, graph.Holds j a → j = i)
      ∧ (Code.Entered instructions handlers a ↔ i ∈ graph.reachable) := by
  have hbuilt := built_of_build hbuild
  obtain ⟨i, part, hi, hmem⟩ := exists_part handlers ha
  refine ⟨i, hbuilt.holds_iff.2 ⟨part, hi, hmem⟩, fun j hj => ?_, ?_⟩
  · obtain ⟨other, hother, hin⟩ := hbuilt.holds_iff.1 hj
    exact hbuilt.part_unique hother hin hi hmem
  · rw [hbuilt.mem_reachable_iff]
    constructor
    · intro hentered
      exact hbuilt.path_of_entered hentered hi hmem
    · rintro ⟨route, hroute⟩
      obtain ⟨other, hother, hentered⟩ := hbuilt.entered_of_path hroute
      obtain rfl := Option.some.inj (hi.symm.trans hother)
      exact hentered a hmem

/-- A jump over one instruction, and a handler that only an exception at the start leads to. -/
def guardedJump : List Instruction :=
  [⟨0, 0x1a, .none, none⟩, ⟨1, 0xa7, .branch 5, none⟩, ⟨4, 0x00, .none, none⟩,
    ⟨5, 0xb1, .none, none⟩, ⟨6, 0xbf, .none, none⟩]

/-- The handler is entered through its range, and nothing enters the instruction jumped over. -/
theorem entered_iff_mem_reachable_guardedJump :
    ∃ graph, build guardedJump [⟨0, 1, 6, none⟩] = .ok graph
      ∧ Code.Entered guardedJump [⟨0, 1, 6, none⟩] ⟨6, 0xbf, .none, none⟩
      ∧ ¬ Code.Entered guardedJump [⟨0, 1, 6, none⟩] ⟨4, 0x00, .none, none⟩ := by
  let built : Graph := ⟨[
    ⟨0, ⟨0, 0x1a, .none, none⟩, [], [⟨.block 1, .fallThrough⟩, ⟨.block 4, .exception⟩]⟩,
    ⟨1, ⟨1, 0xa7, .branch 5, none⟩, [], [⟨.block 3, .jump⟩]⟩,
    ⟨2, ⟨4, 0x00, .none, none⟩, [], [⟨.block 3, .fallThrough⟩]⟩,
    ⟨3, ⟨5, 0xb1, .none, none⟩, [], [⟨.exit, .leave⟩]⟩,
    ⟨4, ⟨6, 0xbf, .none, none⟩, [], [⟨.exit, .leave⟩]⟩]⟩
  have hbuild : build guardedJump [⟨0, 1, 6, none⟩] = .ok built := by rfl
  have hreachable : built.reachable = [0, 1, 3, 4] := by cbv
  refine ⟨built, hbuild, ?_, ?_⟩
  · obtain ⟨i, -, hunique, hiff⟩ :=
      entered_iff_mem_reachable (a := ⟨6, 0xbf, .none, none⟩) hbuild (by decide)
    rw [hiff, ← hunique 4 ⟨_, rfl, List.mem_cons_self⟩, hreachable]
    decide
  · obtain ⟨i, -, hunique, hiff⟩ :=
      entered_iff_mem_reachable (a := ⟨4, 0x00, .none, none⟩) hbuild (by decide)
    rw [hiff, ← hunique 2 ⟨_, rfl, List.mem_cons_self⟩, hreachable]
    decide

end Graph

end PatchPresence
