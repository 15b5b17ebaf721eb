/-
  PatchPresence.Proofs.Operand.Findings — what the abstract interpreter files under the offsets of calls.

  The interpreter adds to its findings one executed instruction at a time and takes nothing back. So what holds
  when nothing has been found, and is kept whenever an instruction of the graph is recorded, holds of the
  findings of a finished analysis.

  Main results:
    * `OperandTyping.keeps_of_infer` — the induction over all that is recorded.
    * `OperandTyping.filesCalls_of_infer` — arguments are filed only under the offset of a call whose
      descriptor can be read.
-/
import PatchPresence.Proofs.Operand.Invariant

namespace PatchPresence

variable {graph : Graph} {handlers : List ExceptionHandler} {strict : Bool} {keeps : Findings → Prop}

/-! ## §1. Recording. -/

namespace Typing

theorem keeps_of_runRecording {frame behind : Frame} {findings found : Findings}
    {instructions : List Instruction}
    (hrecord : ∀ inst ∈ instructions, ∀ findings frame, keeps findings → keeps (findings.record frame inst))
    (hkeeps : keeps findings) (h : runRecording strict frame findings instructions = .ok (behind, found)) :
    keeps found := by
  induction instructions generalizing frame findings with
  | nil =>
    unfold runRecording at h
    obtain ⟨-, rfl⟩ := Prod.mk.inj (Except.ok.inj h)
    exact hkeeps
  | cons inst rest ih =>
    obtain ⟨hinst, hrest⟩ := List.forall_mem_cons.1 hrecord
    unfold runRecording at h
    obtain ⟨next, -, h⟩ := bind_eq_ok_iff.1 h
    exact ih hrest (hinst findings frame hkeeps) h

variable (hrecord : ∀ block ∈ graph.blocks, ∀ inst ∈ block.instructions, ∀ findings frame,
  keeps findings → keeps (findings.record frame inst))
include hrecord

theorem keeps_of_visit {progress next : Progress} {index : Nat}
    (h : visit graph handlers strict progress index = .ok next) (hkeeps : keeps progress.findings) :
    keeps next.findings := by
  rcases visit_cases h with ⟨rfl, -⟩ | ⟨block, before, behind, findings, hblock, -, hrun, rfl⟩
  · exact hkeeps
  · rw [findings_deliverAll]
    exact keeps_of_runRecording (hrecord block (List.mem_of_getElem? hblock)) hkeeps hrun

theorem keeps_of_settle {fuel : Nat} {progress final : Progress} (hkeeps : keeps progress.findings)
    (h : settle graph handlers strict fuel progress = .ok (some final)) : keeps final.findings :=
  (settle_induction (motive := fun progress => keeps progress.findings)
    (fun _ _ _ _ _ hkept hvisit => keeps_of_visit hrecord hvisit hkept) hkeeps h).1

end Typing

/-- What holds of no findings and is kept by every record holds of what an analysis finds. -/
theorem OperandTyping.keeps_of_infer {signature : MethodSignature} {options : TypingOptions}
    {typing : OperandTyping}
    (hrecord : ∀ block ∈ graph.blocks, ∀ inst ∈ block.instructions, ∀ findings frame,
      keeps findings → keeps (findings.record frame inst))
    (hnone : keeps .none) (h : infer graph signature handlers options = .ok typing) :
    keeps typing.findings := by
  rcases Typing.infer_cases h with ⟨-, rfl⟩ | ⟨method, final, -, hsettle, rfl⟩
  · exact hnone
  · exact Typing.keeps_of_settle hrecord hnone hsettle

/-! ## §2. Arguments of calls. -/

/-- Only calls whose descriptor can be read take arguments that are known. -/
theorem Frame.parse?_of_arguments? {frame : Frame} {inst : Instruction} {kinds : List ValueKind}
    (h : frame.arguments? inst = some kinds) :
    ∃ site method, inst.operand = .invoke site ∧ MethodDescriptor.parse? site.descriptor = some method := by
  unfold arguments? at h
  split at h
  · next receiver site _ hoperand =>
    obtain ⟨method, hmethod, -⟩ := Option.map_eq_some_iff.1 h
    exact ⟨site, method, hoperand, hmethod⟩
  · cases h

/-- Whatever has arguments filed under its offset is a call in the graph with a descriptor that can be
    read. -/
def Typing.FilesCalls (graph : Graph) (arguments : Table Nat (List ValueKind)) : Prop :=
  ∀ offset kinds, arguments.get? offset = some kinds →
    ∃ block ∈ graph.blocks, ∃ inst ∈ block.instructions, inst.offset = offset
      ∧ ∃ site method, inst.operand = .invoke site
        ∧ MethodDescriptor.parse? site.descriptor = some method

theorem Typing.FilesCalls.record {findings : Findings} (h : FilesCalls graph findings.callArguments)
    {block : Block} (hblock : block ∈ graph.blocks) {inst : Instruction}
    (hinst : inst ∈ block.instructions) (frame : Frame) :
    FilesCalls graph (findings.record frame inst).callArguments := by
  intro offset kinds hkinds
  unfold Findings.record at hkinds
  cases harguments : frame.arguments? inst with
  | none =>
    rw [harguments] at hkinds
    exact h offset kinds hkinds
  | some taken =>
    rw [harguments] at hkinds
    dsimp only at hkinds
    rw [Table.get?_insert] at hkinds
    split at hkinds
    · next hoffset => exact ⟨block, hblock, inst, hinst, hoffset.symm, Frame.parse?_of_arguments? harguments⟩
    · exact h offset kinds hkinds

theorem OperandTyping.filesCalls_of_infer {signature : MethodSignature} {options : TypingOptions}
    {typing : OperandTyping} (h : infer graph signature handlers options = .ok typing) :
    Typing.FilesCalls graph typing.findings.callArguments := by
  have hnone : Typing.FilesCalls graph Findings.none.callArguments := by
    intro offset kinds hkinds
    cases hkinds
  have hrecord : ∀ block ∈ graph.blocks, ∀ inst ∈ block.instructions, ∀ (findings : Findings) frame,
      Typing.FilesCalls graph findings.callArguments →
        Typing.FilesCalls graph (findings.record frame inst).callArguments :=
    fun _ hblock _ hinst _ frame hfiles => hfiles.record hblock hinst frame
  exact keeps_of_infer hrecord hnone h

end PatchPresence
