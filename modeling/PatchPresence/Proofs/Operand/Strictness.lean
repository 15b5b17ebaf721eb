/-
  PatchPresence.Proofs.Operand.Strictness — strict and lenient analyses of the same method.

  The two go in step: frames, findings and queue are the same until an instruction without a rule is executed.
  There the strict analysis stops, while the lenient one files the offset and goes on with a degraded frame.
  What is filed stays filed, so that a lenient analysis that ends without degraded offsets was never parted
  from the strict one, and one that ends with some was parted at one of them. Errors of other kinds and the cap
  cannot come in between: up to that instruction the lenient analysis would have met them too.

  Main results:
    * `Typing.Lockstep.bind` — computations in step can be chained.
    * `Typing.lockstep_settle` — visits in step, for any number of them.
    * `OperandTyping.infer_strict_agrees` — what each of the two analyses says about the other.
-/
import PatchPresence.Proofs.Operand.Replay

namespace PatchPresence

namespace Typing

/-! ## §1. Computations in step. -/

/-- How a strict computation goes beside a lenient one. Either they are the same and no offset has been
    degraded, or the strict one stops at an instruction without a rule, which the lenient one files. Degraded
    offsets are read off the result, if it has any to read. -/
inductive Lockstep {α : Type} (degraded : α → Option (List Nat)) (earlier : List Nat)
    (strict lenient : Outcome α) : Prop
  | same (heq : strict = lenient)
      (hkept : ∀ result later, lenient = .ok result → degraded result = some later → later = earlier)
  | stopped (inst : Instruction) (hrule : inst.opcode.stackRule? = none)
      (hstop : strict = .error (.unsupportedOpcode inst.opcode inst.offset))
      (hfiled : ∀ result later, lenient = .ok result → degraded result = some later → inst.offset ∈ later)

namespace Lockstep

variable {α β : Type} {degraded : β → Option (List Nat)} {now : α → List Nat} {earlier : List Nat}

/-- A chain goes in step when its first part does and the rest does on what the lenient one hands on, as long as
    the rest forgets no degraded offset. -/
theorem bind {x y : Outcome α} {f g : α → Outcome β} (hx : Lockstep (fun a => some (now a)) earlier x y)
    (hf : ∀ a, y = .ok a → Lockstep degraded (now a) (f a) (g a))
    (hgrows : ∀ a b later, g a = .ok b → degraded b = some later → ∀ offset ∈ now a, offset ∈ later) :
    Lockstep degraded earlier (x >>= f) (y >>= g) := by
  cases hx with
  | same heq hkept =>
    subst heq
    cases x with
    | error e => exact .same rfl fun _ _ h => by cases h
    | ok a =>
      have hnow : now a = earlier := hkept a (now a) rfl rfl
      exact hnow ▸ hf a rfl
  | stopped inst hrule hstop hfiled =>
    subst hstop
    -- the lenient chain goes on alone; nothing is asked of the rest but to remember the offset
    refine .stopped inst hrule rfl fun b later hb hlater => ?_
    obtain ⟨a, hy, hg⟩ := bind_eq_ok_iff.1 hb
    exact hgrows a b later hg hlater inst.offset (hfiled a (now a) hy rfl)

/-- What follows on both sides and keeps the degraded offsets leaves them in step. -/
theorem andThen {seen : α → Option (List Nat)} {x y : Outcome α} {g : α → Outcome β}
    (hx : Lockstep seen earlier x y) (hg : ∀ a b, g a = .ok b → degraded b = seen a) :
    Lockstep degraded earlier (x >>= g) (y >>= g) := by
  have hread : ∀ b later, (y >>= g) = .ok b → degraded b = some later →
      ∃ a, y = .ok a ∧ seen a = some later := by
    intro b later hb hlater
    obtain ⟨a, ha, hgb⟩ := bind_eq_ok_iff.1 hb
    exact ⟨a, ha, (hg a b hgb).symm.trans hlater⟩
  cases hx with
  | same heq hkept =>
    refine .same (by rw [heq]) fun b later hb hlater => ?_
    obtain ⟨a, ha, hseen⟩ := hread b later hb hlater
    exact hkept a later ha hseen
  | stopped inst hrule hstop hfiled =>
    refine .stopped inst hrule (by rw [hstop]; rfl) fun b later hb hlater => ?_
    obtain ⟨a, ha, hseen⟩ := hread b later hb hlater
    exact hfiled a later ha hseen

theorem ok {b : β} (h : ∀ later, degraded b = some later → later = earlier) :
    Lockstep degraded earlier (.ok b) (.ok b) := by
  refine .same rfl fun result later hresult hlater => ?_
  obtain rfl := Except.ok.inj hresult
  exact h later hlater

end Lockstep

/-! ## §2. Instructions. -/

variable {graph : Graph} {handlers : List ExceptionHandler}

/-- An offset is filed as degraded. -/
def Degrades (offset : Nat) (findings : Findings) : Prop := offset ∈ findings.degraded

theorem Degrades.record {offset : Nat} {findings : Findings} (h : Degrades offset findings) (frame : Frame)
    (inst : Instruction) : Degrades offset (findings.record frame inst) :=
  Findings.mem_degraded_record.2 (.inr h)

theorem Degrades.runRecording {offset : Nat} {strict : Bool} {frame behind : Frame} {findings found : Findings}
    {instructions : List Instruction} (h : Degrades offset findings)
    (hrun : runRecording strict frame findings instructions = .ok (behind, found)) : Degrades offset found :=
  keeps_of_runRecording (fun inst _ _ frame hdegrades => hdegrades.record frame inst) h hrun

theorem Degrades.settle {offset : Nat} {strict : Bool} {fuel : Nat} {progress final : Progress}
    (h : Degrades offset progress.findings)
    (hsettle : settle graph handlers strict fuel progress = .ok (some final)) :
    Degrades offset final.findings :=
  keeps_of_settle (fun _ _ inst _ _ frame hdegrades => hdegrades.record frame inst) h hsettle

/-- Opcodes with a rule are executed alike, and only the others are filed as degraded. -/
theorem lockstep_execute (frame : Frame) (findings : Findings) (inst : Instruction) :
    Lockstep (fun _ => some (findings.record frame inst).degraded) findings.degraded
      (frame.execute true inst) (frame.execute false inst) := by
  cases hrule : inst.opcode.stackRule? with
  | some rule =>
    have hrecord : (findings.record frame inst).degraded = findings.degraded := by
      simp [Findings.record, hrule]
    refine .same ?_ fun _ later _ hlater => ?_
    · simp only [Frame.execute, hrule]
    · exact (Option.some.inj hlater).symm.trans hrecord
  | none =>
    refine .stopped inst hrule ?_ fun _ later _ hlater => ?_
    · simp [Frame.execute, hrule]
    · obtain rfl := Option.some.inj hlater
      exact Findings.mem_degraded_record.2 (.inl ⟨rfl, hrule⟩)

theorem lockstep_runRecording (frame : Frame) (findings : Findings) (instructions : List Instruction) :
    Lockstep (fun result => some result.2.degraded) findings.degraded
      (runRecording true frame findings instructions) (runRecording false frame findings instructions) := by
  induction instructions generalizing frame findings with
  | nil => exact .ok fun _ h => (Option.some.inj h).symm
  | cons inst rest ih =>
    unfold runRecording
    refine (lockstep_execute frame findings inst).bind (fun next _ => ih next _) ?_
    intro next result later hrun hlater
    obtain rfl := Option.some.inj hlater
    exact fun offset hoffset => Degrades.runRecording hoffset hrun

/-! ## §3. Visits. -/

theorem visit_eq {strict : Bool} {progress : Progress} {index : Nat} {block : Block} {before : Frame}
    (hblock : graph.block? index = some block) (hbefore : progress.entries.get? index = some before) :
    visit graph handlers strict progress index
      = runRecording strict before progress.findings block.instructions >>= fun result =>
          .ok (deliverAll graph handlers before result.1 { progress with findings := result.2 }
            block.edges) := by
  simp only [visit, hblock, hbefore]
  rfl

theorem lockstep_visit (progress : Progress) (index : Nat) :
    Lockstep (fun next => some next.findings.degraded) progress.findings.degraded
      (visit graph handlers true progress index) (visit graph handlers false progress index) := by
  have hkept : ∀ later, some progress.findings.degraded = some later → later = progress.findings.degraded :=
    fun _ h => (Option.some.inj h).symm
  cases hblock : graph.block? index with
  | none =>
    simp only [visit, hblock]
    exact .ok hkept
  | some block =>
    cases hbefore : progress.entries.get? index with
    | none =>
      simp only [visit, hblock, hbefore]
      exact .ok hkept
    | some before =>
      rw [visit_eq hblock hbefore, visit_eq hblock hbefore]
      refine (lockstep_runRecording before progress.findings block.instructions).andThen ?_
      rintro result _ ⟨⟩
      rw [findings_deliverAll]

theorem settle_succ {strict : Bool} {fuel : Nat} {progress : Progress} {index : Nat} {queue : List Nat}
    (hqueue : progress.queue = index :: queue) :
    settle graph handlers strict (fuel + 1) progress
      = visit graph handlers strict { progress with queue } index >>= settle graph handlers strict fuel := by
  conv => lhs; unfold settle
  simp only [hqueue]

/-- All visits go in step, until no block waits or the cap is reached. -/
theorem lockstep_settle (fuel : Nat) (progress : Progress) :
    Lockstep (fun final => final.map fun progress => progress.findings.degraded) progress.findings.degraded
      (settle graph handlers true fuel progress) (settle graph handlers false fuel progress) := by
  fun_induction settle graph handlers false fuel progress with
  | case1 fuel progress hqueue =>
    unfold settle
    simp only [hqueue]
    exact .ok fun _ h => (Option.some.inj h).symm
  | case2 progress index queue hqueue =>
    unfold settle
    simp only [hqueue]
    exact .ok fun _ h => by cases h
  | case3 progress index queue fuel hqueue ih =>
    rw [settle_succ hqueue]
    refine (lockstep_visit { progress with queue } index).bind (fun next _ => ih next) ?_
    intro next final? later hsettle hlater offset hoffset
    obtain ⟨final, rfl, rfl⟩ := Option.map_eq_some_iff.1 hlater
    exact Degrades.settle hoffset hsettle

end Typing

namespace OperandTyping

theorem lockstep_infer (graph : Graph) (signature : MethodSignature) (handlers : List ExceptionHandler)
    (cap : Nat) :
    Typing.Lockstep (fun typing => some typing.findings.degraded) []
      (infer graph signature handlers ⟨true, cap⟩) (infer graph signature handlers ⟨false, cap⟩) := by
  unfold infer
  split
  · exact .ok fun _ h => (Option.some.inj h).symm
  · cases parseMethod signature.descriptor 0 with
    | error e => exact .same rfl fun _ _ h => by cases h
    | ok method =>
      refine (Typing.lockstep_settle cap (Typing.startOf signature method)).andThen fun final? typing h => ?_
      cases final? with
      | none => cases h
      | some final =>
        obtain rfl := Except.ok.inj h
        rfl

/-- **Strict and lenient analyses agree.** Where the lenient analysis gives a typing, the strict one gives the
    same if nothing was degraded, and otherwise refuses an opcode without a rule at one of the degraded offsets.
    Where the strict analysis gives a typing, the lenient one gives the same, and nothing is degraded. -/
theorem infer_strict_agrees (graph : Graph) (signature : MethodSignature)
    (handlers : List ExceptionHandler) (cap : Nat) (typing : OperandTyping) :
    (infer graph signature handlers ⟨false, cap⟩ = .ok typing →
      (typing.findings.degraded = [] → infer graph signature handlers ⟨true, cap⟩ = .ok typing)
        ∧ (typing.findings.degraded ≠ [] → ∃ (opcode : Opcode) (offset : Nat), opcode.stackRule? = none
            ∧ infer graph signature handlers ⟨true, cap⟩ = .error (.unsupportedOpcode opcode offset)
            ∧ offset ∈ typing.findings.degraded))
      ∧ (infer graph signature handlers ⟨true, cap⟩ = .ok typing →
          infer graph signature handlers ⟨false, cap⟩ = .ok typing ∧ typing.findings.degraded = []) := by
  cases lockstep_infer graph signature handlers cap with
  | same heq hkept =>
    rw [heq]
    refine ⟨fun h => ⟨fun _ => h, fun hne => ?_⟩, fun h => ⟨h, ?_⟩⟩
    · exact absurd (hkept typing _ h rfl) hne
    · exact hkept typing _ h rfl
  | stopped inst hrule hstop hfiled =>
    rw [hstop]
    refine ⟨fun h => ⟨fun hnone => ?_, fun _ => ?_⟩, fun h => by cases h⟩
    · have hmem := hfiled typing _ h rfl
      rw [hnone] at hmem
      cases hmem
    · exact ⟨inst.opcode, inst.offset, hrule, rfl, hfiled typing _ h rfl⟩

/-- A loop over two opcodes without a rule. Of the first one the stack effect is reported, the second one leaves
    only the depth of the stack. -/
def oddLoop : Graph := ⟨[
  ⟨0, ⟨0, 0x03, .none, none⟩, [], [⟨.block 1, .fallThrough⟩]⟩,
  ⟨1, ⟨1, 0xcb, .none, some ⟨1, 2⟩⟩, [⟨2, 0xca, .none, none⟩, ⟨3, 0x57, .none, none⟩, ⟨4, 0xa7, .branch 1, none⟩],
    [⟨.block 1, .jump⟩]⟩]⟩

/-- The lenient analysis visits the loop twice, with an int and then with an unknown value; the strict one is
    refused at one of the two opcodes. Without such opcodes both give the same. -/
theorem infer_strict_agrees_oddLoop :
    (∃ typing, infer oddLoop ⟨"A", "f", "()V", true⟩ [] ⟨false, 9⟩ = .ok typing
      ∧ typing.entries.get? 1 = some ⟨[.unknown], []⟩
      ∧ typing.findings.degraded = [1, 2]
      ∧ ∃ (opcode : Opcode) (offset : Nat), opcode.stackRule? = none
          ∧ infer oddLoop ⟨"A", "f", "()V", true⟩ [] ⟨true, 9⟩ = .error (.unsupportedOpcode opcode offset)
          ∧ offset ∈ typing.findings.degraded)
      ∧ ∃ typing, infer storeLoop ⟨"A", "f", "()V", true⟩ [] ⟨false, 9⟩ = .ok typing
          ∧ infer storeLoop ⟨"A", "f", "()V", true⟩ [] ⟨true, 9⟩ = .ok typing := by
  let odd : OperandTyping := ⟨⟨[(0, ⟨[], []⟩), (1, ⟨[.unknown], []⟩)]⟩, ⟨.empty, [1, 2]⟩⟩
  have hodd : infer oddLoop ⟨"A", "f", "()V", true⟩ [] ⟨false, 9⟩ = .ok odd :=
    eq_ok_of_toOption (by decide +kernel)
  let plain : OperandTyping := ⟨⟨[
    (0, ⟨[], []⟩),
    (1, ⟨[], [.reference "java/lang/String"]⟩),
    (2, ⟨[], [.reference "java/lang/String"]⟩),
    (3, ⟨[], [.reference "java/lang/String"]⟩),
    (4, ⟨[.reference "java/lang/Throwable"], [.reference "java/lang/String"]⟩)]⟩, ⟨.empty, []⟩⟩
  have hplain : infer storeLoop ⟨"A", "f", "()V", true⟩ [] ⟨false, 9⟩ = .ok plain :=
    eq_ok_of_toOption (by decide +kernel)
  refine ⟨⟨odd, hodd, rfl, rfl, ?_⟩, plain, hplain, ?_⟩
  · exact ((infer_strict_agrees _ _ _ _ odd).1 hodd).2 (by decide)
  · exact ((infer_strict_agrees _ _ _ _ plain).1 hplain).1 rfl

end OperandTyping

end PatchPresence
