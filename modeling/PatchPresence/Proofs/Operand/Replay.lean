/-
  PatchPresence.Proofs.Operand.Replay — the findings of the abstract interpreter against its final frames.

  A block is visited again whenever its entry frame has grown, and every visit files anew what the calls of the
  block take. So a block that does not wait was last visited with the frame that it has now: were the frame
  newer than the visit, the block would wait. Visits to other blocks file under other offsets, since an offset
  belongs to one instruction and an instruction to one block. When no block waits any more, the findings are
  those of one execution of every block from its final frame.

  Main results:
    * `Typing.shows_of_runRecording`, `Typing.filedApart_of_runRecording` — a visit files what it shows, and
      leaves what other blocks have shown.
    * `Typing.traced_visit`, `Typing.traced_settle` — the invariant, for one visit and for all.
    * `OperandTyping.replays_of_infer` — entries, calls and degraded instructions are those of the blocks that
      can be reached, and every call takes what it takes in a replay.
-/
import PatchPresence.Proofs.Flow.Live
import PatchPresence.Proofs.Operand.Findings

namespace PatchPresence

/-! ## §1. Calls. -/

/-- Calls a method of an object, which lies below the arguments. -/
def Opcode.hasReceiver (opcode : Opcode) : Bool := opcode == 0xb6 || opcode == 0xb7 || opcode == 0xb9

/-- The opcodes with the rule of a call are those that call, and the rule knows about the receiver. -/
theorem Opcode.stackRule?_eq_invoke_iff (opcode : Opcode) (receiver : Bool) :
    opcode.stackRule? = some (.invoke receiver)
      ↔ opcode.isInvoke = true ∧ receiver = opcode.hasReceiver := by
  have hall : ∀ code < 256, ∀ receiver, stackRule? (UInt8.ofNat code) = some (.invoke receiver)
      ↔ isInvoke (UInt8.ofNat code) = true ∧ receiver = hasReceiver (UInt8.ofNat code) := by
    decide +kernel
  have hcode := hall opcode.toNat opcode.toNat_lt receiver
  rwa [UInt8.ofNat_toNat] at hcode

namespace Frame

/-- What is taken off the stack is as much as was asked for. -/
theorem length_pop (frame : Frame) (count : Nat) : (frame.pop count).2.length = count := by
  simp only [pop, List.length_append, List.length_replicate, List.length_drop]
  omega

theorem isInvoke_of_arguments? {frame : Frame} {inst : Instruction} {kinds : List ValueKind}
    (h : frame.arguments? inst = some kinds) : inst.opcode.isInvoke = true := by
  unfold arguments? at h
  split at h
  · next receiver site hrule _ => exact ((Opcode.stackRule?_eq_invoke_iff _ _).1 hrule).1
  · cases h

/-- `frame.Takes strict inst kinds`: the call can be executed in the frame and takes `kinds` off its stack,
    one for the receiver, if there is one, and one for each parameter. -/
def Takes (strict : Bool) (frame : Frame) (inst : Instruction) (kinds : List ValueKind) : Prop :=
  ∃ site method, inst.operand = .invoke site
    ∧ MethodDescriptor.parse? site.descriptor = some method
    ∧ frame.execute strict inst = .ok (frame.invoke method inst.opcode.hasReceiver)
    ∧ kinds.length = method.parameters.length + inst.opcode.hasReceiver.toNat
    ∧ kinds = (frame.pop kinds.length).2

/-- The arguments of a call are what it takes, if it can be executed at all. -/
theorem takes_of_execute {strict : Bool} {frame next : Frame} {inst : Instruction}
    (hinvoke : inst.opcode.isInvoke = true) (h : frame.execute strict inst = .ok next) :
    ∃ kinds, frame.arguments? inst = some kinds ∧ frame.Takes strict inst kinds := by
  have hrule : inst.opcode.stackRule? = some (.invoke inst.opcode.hasReceiver) :=
    (Opcode.stackRule?_eq_invoke_iff _ _).2 ⟨hinvoke, rfl⟩
  have hexecute : frame.execute strict inst = frame.apply inst (.invoke inst.opcode.hasReceiver) := by
    rw [execute, hrule]
  rw [hexecute] at h
  cases hoperand : inst.operand with
  | invoke site =>
    simp only [apply, hoperand] at h
    obtain ⟨method, hmethod, -⟩ := bind_eq_ok_iff.1 h
    have hparse := Typing.parseMethod_eq_ok_iff.1 hmethod
    refine ⟨(frame.pop (method.parameters.length + inst.opcode.hasReceiver.toNat)).2, ?_,
      site, method, hoperand, hparse, ?_, length_pop frame _, ?_⟩
    · simp only [arguments?, hrule, hoperand, hparse, Option.map_some]
    · simp only [hexecute, apply, hoperand, hmethod]
      rfl
    · rw [length_pop]
  | _ => simp [apply, hoperand] at h

end Frame

/-! ## §2. What one instruction files. -/

namespace Findings

variable {findings : Findings} {frame : Frame} {inst : Instruction}

theorem get?_record_of_ne {offset : Nat} (hne : offset ≠ inst.offset) :
    (findings.record frame inst).callArguments.get? offset = findings.callArguments.get? offset := by
  unfold record
  cases frame.arguments? inst with
  | none => rfl
  | some kinds =>
    show (findings.callArguments.insert inst.offset kinds).get? offset = _
    rw [Table.get?_insert, if_neg hne]

theorem get?_record_self {kinds : List ValueKind} (h : frame.arguments? inst = some kinds) :
    (findings.record frame inst).callArguments.get? inst.offset = some kinds := by
  unfold record
  rw [h]
  show (findings.callArguments.insert inst.offset kinds).get? inst.offset = _
  rw [Table.get?_insert, if_pos rfl]

theorem mem_degraded_record {offset : Nat} :
    offset ∈ (findings.record frame inst).degraded
      ↔ (offset = inst.offset ∧ inst.opcode.stackRule? = Option.none) ∨ offset ∈ findings.degraded := by
  unfold record
  dsimp only
  split
  · next hrule => simp [Ascending.mem_insert, Option.isNone_iff_eq_none.1 hrule]
  · next hrule =>
    have hsome : inst.opcode.stackRule? ≠ Option.none := by simpa using hrule
    simp [hsome]

end Findings

namespace Typing

variable {strict : Bool} {findings found : Findings} {frame behind : Frame} {instructions : List Instruction}

/-! ## §3. What a run files. -/

/-- The findings hold what executing the instructions from a frame shows. -/
inductive Shows (strict : Bool) (findings : Findings) : Frame → List Instruction → Prop
  | nil {frame : Frame} : Shows strict findings frame []
  | cons {frame next : Frame} {inst : Instruction} {rest : List Instruction}
      (hexecute : frame.execute strict inst = .ok next)
      (hcall : ∀ kinds, frame.arguments? inst = some kinds →
        findings.callArguments.get? inst.offset = some kinds)
      (hdegraded : inst.opcode.stackRule? = none → inst.offset ∈ findings.degraded)
      (hrest : Shows strict findings next rest) : Shows strict findings frame (inst :: rest)

/-- Findings that add nothing at the offsets of some instructions and forget nothing degraded. -/
structure FiledApart (findings found : Findings) (instructions : List Instruction) : Prop where
  calls : ∀ inst ∈ instructions,
    found.callArguments.get? inst.offset = findings.callArguments.get? inst.offset
  degraded : ∀ offset ∈ findings.degraded, offset ∈ found.degraded

/-- A run files under the offsets of its own instructions only. -/
theorem filedApart_of_runRecording {others : List Instruction}
    (h : runRecording strict frame findings instructions = .ok (behind, found))
    (hapart : ∀ other ∈ others, ∀ inst ∈ instructions, other.offset ≠ inst.offset) :
    FiledApart findings found others := by
  induction instructions generalizing frame findings with
  | nil =>
    unfold runRecording at h
    obtain ⟨-, rfl⟩ := Prod.mk.inj (Except.ok.inj h)
    exact ⟨fun _ _ => rfl, fun _ hoffset => hoffset⟩
  | cons inst rest ih =>
    unfold runRecording at h
    obtain ⟨next, -, h⟩ := bind_eq_ok_iff.1 h
    have hlater := ih h fun other hother later hmem =>
      hapart other hother later (List.mem_cons_of_mem _ hmem)
    refine ⟨fun other hother => ?_, fun offset hoffset => ?_⟩
    · rw [hlater.calls other hother,
        Findings.get?_record_of_ne (hapart other hother inst List.mem_cons_self)]
    · exact hlater.degraded offset (Findings.mem_degraded_record.2 (.inr hoffset))

theorem Shows.of_filedApart (h : Shows strict findings frame instructions)
    (hfiled : FiledApart findings found instructions) : Shows strict found frame instructions := by
  induction h with
  | nil => exact .nil
  | cons hexecute hcall hdegraded _ ih =>
    refine .cons hexecute (fun kinds hkinds => ?_) (fun hrule => ?_) (ih ?_)
    · rw [hfiled.calls _ List.mem_cons_self]
      exact hcall kinds hkinds
    · exact hfiled.degraded _ (hdegraded hrule)
    · exact ⟨fun inst hinst => hfiled.calls inst (List.mem_cons_of_mem _ hinst), hfiled.degraded⟩

/-- A run leaves findings that hold all that it has shown: no later instruction files under the offset of an
    earlier one. -/
theorem shows_of_runRecording (hoffsets : instructions.Pairwise fun a b => a.offset < b.offset)
    (h : runRecording strict frame findings instructions = .ok (behind, found)) :
    Shows strict found frame instructions := by
  induction instructions generalizing frame findings with
  | nil => exact .nil
  | cons inst rest ih =>
    unfold runRecording at h
    obtain ⟨next, hnext, h⟩ := bind_eq_ok_iff.1 h
    obtain ⟨hbefore, hrest⟩ := List.pairwise_cons.1 hoffsets
    -- what the first instruction files stays as it is while the rest is executed
    have hapart : FiledApart (findings.record frame inst) found [inst] := by
      refine filedApart_of_runRecording h fun other hother later hlater => ?_
      rw [List.mem_singleton.1 hother]
      exact Nat.ne_of_lt (hbefore later hlater)
    refine .cons hnext (fun kinds hkinds => ?_) (fun hrule => ?_) (ih hrest h)
    · rw [hapart.calls inst List.mem_cons_self]
      exact Findings.get?_record_self hkinds
    · exact hapart.degraded _ (Findings.mem_degraded_record.2 (.inl ⟨rfl, hrule⟩))

/-- Findings that hold what a run shows hold it at every instruction, in the frame that the run has there. -/
theorem Shows.at {front back : List Instruction} {inst : Instruction}
    (h : Shows strict findings frame (front ++ inst :: back)) :
    ∃ before next, run strict frame front = .ok before ∧ before.execute strict inst = .ok next
      ∧ (∀ kinds, before.arguments? inst = some kinds →
          findings.callArguments.get? inst.offset = some kinds)
      ∧ (inst.opcode.stackRule? = none → inst.offset ∈ findings.degraded) := by
  induction front generalizing frame with
  | nil =>
    cases h with
    | @cons _ next _ _ hexecute hcall hdegraded _ =>
      exact ⟨frame, next, rfl, hexecute, hcall, hdegraded⟩
  | cons first front ih =>
    cases h with
    | @cons _ next _ _ hexecute _ _ hrest =>
      obtain ⟨before, last, hrun, hlast⟩ := ih hrest
      refine ⟨before, last, ?_, hlast⟩
      unfold run
      rw [List.foldlM_cons]
      exact bind_eq_ok_iff.2 ⟨next, hexecute, hrun⟩

/-! ## §4. Findings of live instructions. -/

/-- Findings by offset, about calls and degraded instructions that control can come to. -/
structure FiledLive (graph : Graph) (findings : Findings) : Prop where
  sorted : findings.callArguments.Sorted
  strict : Ascending.Strict findings.degraded
  calls : ∀ offset ∈ findings.callArguments.keys,
    offset ∈ graph.liveOffsets fun inst => inst.opcode.isInvoke
  degraded : ∀ offset ∈ findings.degraded,
    offset ∈ graph.liveOffsets fun inst => inst.opcode.stackRule?.isNone

variable {graph : Graph} {handlers : List ExceptionHandler}

theorem filedLive_none : FiledLive graph .none where
  sorted := List.Pairwise.nil
  strict := List.Pairwise.nil
  calls offset hoffset := by cases hoffset
  degraded offset hoffset := by cases hoffset

theorem FiledLive.record (h : FiledLive graph findings) {inst : Instruction} (hlive : inst ∈ graph.live)
    (frame : Frame) : FiledLive graph (findings.record frame inst) := by
  have hcalls : (findings.record frame inst).callArguments.Sorted
      ∧ ∀ offset ∈ (findings.record frame inst).callArguments.keys,
          offset ∈ graph.liveOffsets fun inst => inst.opcode.isInvoke := by
    unfold Findings.record
    cases harguments : frame.arguments? inst with
    | none => exact ⟨h.sorted, h.calls⟩
    | some kinds =>
      refine ⟨h.sorted.upsert inst.offset _, fun offset hoffset => ?_⟩
      rcases (Table.mem_keys_insert findings.callArguments _ _ kinds).1 hoffset with rfl | hoffset
      · exact Graph.mem_liveOffsets.2 ⟨inst, hlive, Frame.isInvoke_of_arguments? harguments, rfl⟩
      · exact h.calls offset hoffset
  refine ⟨hcalls.1, ?_, hcalls.2, fun offset hoffset => ?_⟩
  · unfold Findings.record
    dsimp only
    split
    · exact Ascending.strict_insert inst.offset h.strict
    · exact h.strict
  · rcases Findings.mem_degraded_record.1 hoffset with ⟨rfl, hrule⟩ | hoffset
    · exact Graph.mem_liveOffsets.2 ⟨inst, hlive, Option.isNone_iff_eq_none.2 hrule, rfl⟩
    · exact h.degraded offset hoffset

/-! ## §5. Entries of blocks that can be reached. -/

/-- Frames by block, for blocks that control can come to. -/
structure Entered (graph : Graph) (entries : Table Nat Frame) : Prop where
  sorted : entries.Sorted
  reaches : ∀ index ∈ entries.keys, graph.Reaches index

theorem Entered.insert {entries : Table Nat Frame} (h : Entered graph entries) {target : Nat}
    (htarget : graph.Reaches target) (merged : Frame) : Entered graph (entries.insert target merged) := by
  refine ⟨h.sorted.upsert target _, fun index hindex => ?_⟩
  rcases (Table.mem_keys_insert entries target index merged).1 hindex with rfl | hindex
  · exact htarget
  · exact h.reaches index hindex

theorem Entered.deliver {progress : Progress} (h : Entered graph progress.entries) {target : Nat}
    (htarget : graph.Reaches target) (incoming : Frame) :
    Entered graph (progress.deliver target incoming).entries := by
  unfold Progress.deliver
  dsimp only
  split
  · split
    · exact h
    · exact h.insert htarget _
  · split
    · exact h
    · exact h.insert htarget _

theorem Entered.deliverAll {before behind : Frame} {progress : Progress} {edges : List Edge}
    (h : Entered graph progress.entries)
    (hedges : ∀ edge ∈ edges, ∀ target, edge.block? = some target → graph.Reaches target) :
    Entered graph (deliverAll graph handlers before behind progress edges).entries := by
  unfold Typing.deliverAll
  induction edges generalizing progress with
  | nil => exact h
  | cons edge edges ih =>
    obtain ⟨hedge, hrest⟩ := List.forall_mem_cons.1 hedges
    rw [List.foldl_cons]
    cases htarget : edge.block? with
    | none => exact ih h hrest
    | some target => exact ih (h.deliver (hedge target htarget) _) hrest

/-- Control that can come to a block can follow its edges. -/
theorem reaches_of_edge {code : List Instruction} {protectors : List ExceptionHandler}
    (hb : graph.Built code protectors) {index target : Nat} {block : Block} {edge : Edge}
    (hblock : graph.block? index = some block) (hreaches : graph.Reaches index)
    (hedge : edge ∈ block.edges) (htarget : edge.block? = some target) : graph.Reaches target := by
  obtain ⟨route, hroute⟩ := hreaches
  refine ⟨target :: route, hroute.extend (hb.hasEdge_iff.2 ?_)⟩
  unfold Graph.successors
  rw [hblock]
  exact List.mem_filterMap.2 ⟨edge, hedge, htarget⟩

/-- At the end of an analysis every block that can be reached has a frame. -/
theorem exists_entry_of_infer {code : List Instruction} {protectors : List ExceptionHandler}
    (hb : graph.Built code protectors) {signature : MethodSignature} {options : TypingOptions}
    {typing : OperandTyping} (h : OperandTyping.infer graph signature handlers options = .ok typing)
    {index : Nat} (hreaches : graph.Reaches index) : ∃ entry, typing.entries.get? index = some entry := by
  obtain ⟨route, hroute⟩ := hreaches
  induction hroute with
  | start =>
    obtain ⟨method, -, entry, hentry, -⟩ := admits_start_of_infer h hb.size_pos
    exact ⟨entry, hentry⟩
  | @extend b c route _ hedge ih =>
    obtain ⟨before, hbefore⟩ := ih
    have hsuccessor := hb.hasEdge_iff.1 hedge
    unfold Graph.successors at hsuccessor
    cases hblock : graph.block? b with
    | none => simp [hblock] at hsuccessor
    | some block =>
      rw [hblock] at hsuccessor
      obtain ⟨edge, hmem, htarget⟩ := List.mem_filterMap.1 hsuccessor
      obtain ⟨behind, hleft⟩ := closed_of_infer h b block before hblock hbefore
      -- whatever goes along the edge is below the frame of the block that it leads to
      by_cases hkind : edge.kind = .exception
      · obtain ⟨entry, hentry, -⟩ := hleft.raise edge hmem hkind c htarget
        exact ⟨entry, hentry⟩
      · obtain ⟨entry, hentry, -⟩ := hleft.flow edge hmem hkind c htarget
        exact ⟨entry, hentry⟩

/-! ## §6. The last visit. -/

/-- What is known while blocks wait: frames of blocks that can be reached, findings about live instructions,
    and for each block that does not wait the findings of an execution from the frame that it has now. -/
structure Traced (graph : Graph) (strict : Bool) (progress : Progress) : Prop where
  entered : Entered graph progress.entries
  filed : FiledLive graph progress.findings
  shown : ∀ index block entry, graph.block? index = some block →
    progress.entries.get? index = some entry → index ∉ progress.queue →
    Shows strict progress.findings entry block.instructions

theorem traced_startOf (signature : MethodSignature) (method : MethodDescriptor) :
    Traced graph strict (startOf signature method) := by
  have hnone : Entered graph .empty := ⟨List.Pairwise.nil, fun index hindex => by cases hindex⟩
  refine ⟨hnone.insert ⟨[0], .start⟩ _, filedLive_none, fun index block entry _ hentry hqueue => ?_⟩
  replace hentry : (Table.empty.insert 0 (initialFrame signature method)).get? index = some entry := hentry
  rw [Table.get?_insert] at hentry
  split at hentry
  · next hzero => exact absurd (hzero ▸ List.mem_cons_self) hqueue
  · cases hentry

section Built

variable {code : List Instruction} {protectors : List ExceptionHandler} (hb : graph.Built code protectors)
include hb

/-- A visit files anew what its block shows, and leaves what other blocks have shown. -/
theorem traced_visit {progress next : Progress} {index : Nat} {queue : List Nat}
    (hqueue : progress.queue = index :: queue) (htraced : Traced graph strict progress)
    (h : visit graph handlers strict { progress with queue } index = .ok next) :
    Traced graph strict next := by
  have hwaited : ∀ i, i ≠ index → i ∉ queue → i ∉ progress.queue := by
    intro i hne hnot
    rw [hqueue, List.mem_cons, not_or]
    exact ⟨hne, hnot⟩
  rcases visit_cases h with ⟨rfl, hmissing⟩ | ⟨block, before, behind, found, hblock, hbefore, hrun, rfl⟩
  · refine ⟨htraced.entered, htraced.filed, fun i other entry hother hentry hnot => ?_⟩
    refine htraced.shown i other entry hother hentry (hwaited i ?_ hnot)
    rintro rfl
    rcases hmissing with hnone | hnone
    · rw [hnone] at hother
      cases hother
    · rw [show progress.entries.get? i = none from hnone] at hentry
      cases hentry
  · obtain ⟨hadvances, -⟩ := deliverAll_spec graph handlers before behind
      { progress with queue, findings := found } block.edges
    have hreaches : graph.Reaches index := htraced.entered.reaches index (Table.mem_keys_of_get? hbefore)
    refine ⟨Entered.deliverAll htraced.entered fun edge hedge target htarget => ?_, ?_,
      fun i other entry hother hentry hnot => ?_⟩
    · exact reaches_of_edge hb hblock hreaches hedge htarget
    · rw [findings_deliverAll]
      refine keeps_of_runRecording (fun inst hinst findings frame hfiled => ?_) htraced.filed hrun
      exact hfiled.record (hb.mem_live_iff.2 ⟨index, block, hblock, hreaches, hinst⟩) frame
    · -- the block does not wait, so the visit left its frame alone
      rw [hadvances.kept i hnot] at hentry
      rw [findings_deliverAll]
      by_cases hi : i = index
      · subst hi
        obtain rfl := Option.some.inj (hother.symm.trans hblock)
        obtain rfl := Option.some.inj (hentry.symm.trans hbefore)
        exact shows_of_runRecording (hb.pairwise_offsets.1 _ (List.mem_of_getElem? hblock)) hrun
      · have hshown := htraced.shown i other entry hother hentry
          (hwaited i hi fun hwaits => hnot (hadvances.waits i hwaits))
        refine hshown.of_filedApart (filedApart_of_runRecording hrun fun a ha b hinst => ?_)
        exact hb.offset_ne_of_index_ne hother hblock hi ha hinst

theorem traced_settle {fuel : Nat} {progress final : Progress} (htraced : Traced graph strict progress)
    (h : settle graph handlers strict fuel progress = .ok (some final)) :
    Traced graph strict final ∧ final.queue = [] :=
  settle_induction (fun _ _ _ _ hqueue htraced hvisit => traced_visit hb hqueue htraced hvisit) htraced h

/-! ## §7. When no block waits. -/

namespace Traced

variable {progress : Progress} (htraced : Traced graph strict progress)
  (hentry : ∀ index, graph.Reaches index → ∃ entry, progress.entries.get? index = some entry)
include htraced hentry

theorem keys_entries : progress.entries.keys = graph.reachable := by
  refine Ascending.Strict.eq_of_mem_iff htraced.entered.sorted graph.strict_reachable fun index => ?_
  rw [hb.mem_reachable_iff]
  constructor
  · exact htraced.entered.reaches index
  · intro hreaches
    obtain ⟨entry, hget⟩ := hentry index hreaches
    exact Table.mem_keys_of_get? hget

variable (hqueue : progress.queue = [])
include hqueue

/-- Every live instruction has been executed in some frame, and what it showed there is filed. -/
theorem exists_execute {inst : Instruction} (hlive : inst ∈ graph.live) :
    ∃ before next : Frame, before.execute strict inst = .ok next
      ∧ (∀ kinds, before.arguments? inst = some kinds →
          progress.findings.callArguments.get? inst.offset = some kinds)
      ∧ (inst.opcode.stackRule? = none → inst.offset ∈ progress.findings.degraded) := by
  obtain ⟨index, block, hblock, hreaches, hinst⟩ := hb.mem_live_iff.1 hlive
  obtain ⟨entry, hget⟩ := hentry index hreaches
  have hshows := htraced.shown index block entry hblock hget (hqueue ▸ List.not_mem_nil)
  obtain ⟨front, back, hsplit⟩ := List.append_of_mem hinst
  rw [hsplit] at hshows
  obtain ⟨before, next, -, hexecute, hfiled⟩ := hshows.at
  exact ⟨before, next, hexecute, hfiled⟩

theorem degraded_eq :
    progress.findings.degraded = graph.liveOffsets fun inst => inst.opcode.stackRule?.isNone := by
  refine Ascending.Strict.eq_of_mem_iff htraced.filed.strict (hb.strict_liveOffsets _) fun offset => ?_
  constructor
  · exact htraced.filed.degraded offset
  · intro hoffset
    obtain ⟨inst, hlive, hrule, rfl⟩ := Graph.mem_liveOffsets.1 hoffset
    obtain ⟨_, _, -, -, hdegraded⟩ := htraced.exists_execute hb hentry hqueue hlive
    exact hdegraded (Option.isNone_iff_eq_none.1 hrule)

theorem keys_callArguments :
    progress.findings.callArguments.keys = graph.liveOffsets fun inst => inst.opcode.isInvoke := by
  refine Ascending.Strict.eq_of_mem_iff htraced.filed.sorted (hb.strict_liveOffsets _) fun offset => ?_
  constructor
  · exact htraced.filed.calls offset
  · intro hoffset
    obtain ⟨inst, hlive, hinvoke, rfl⟩ := Graph.mem_liveOffsets.1 hoffset
    obtain ⟨before, next, hexecute, hcall, -⟩ := htraced.exists_execute hb hentry hqueue hlive
    obtain ⟨kinds, harguments, -⟩ := Frame.takes_of_execute hinvoke hexecute
    exact Table.mem_keys_of_get? (hcall kinds harguments)

end Traced

end Built

end Typing

namespace OperandTyping

/-- Frames and findings that one execution of every block that can be reached gives: the findings are about
    the live instructions, and under every call stands what it takes when its block is executed from its entry
    frame. -/
structure Replays (graph : Graph) (strict : Bool) (typing : OperandTyping) : Prop where
  entries : typing.entries.keys = graph.reachable
  degraded : typing.findings.degraded = graph.liveOffsets fun inst => inst.opcode.stackRule?.isNone
  calls : typing.findings.callArguments.keys = graph.liveOffsets fun inst => inst.opcode.isInvoke
  arguments : ∀ index block entry, graph.block? index = some block →
    typing.entries.get? index = some entry →
    ∀ front inst back, block.instructions = front ++ inst :: back → inst.opcode.isInvoke = true →
      ∃ frame kinds, Typing.run strict entry front = .ok frame
        ∧ typing.findings.callArguments.get? inst.offset = some kinds
        ∧ frame.Takes strict inst kinds

/-- **An analysis gives what a replay from its final frames gives.** Whatever the order of the visits and
    however often a block was visited, no result of an earlier visit is left. -/
theorem replays_of_infer {code : List Instruction} {protectors handlers : List ExceptionHandler}
    {graph : Graph} {signature : MethodSignature} {options : TypingOptions} {typing : OperandTyping}
    (hbuild : Graph.build code protectors = .ok graph)
    (h : infer graph signature handlers options = .ok typing) :
    Replays graph options.strict typing := by
  have hb := Graph.built_of_build hbuild
  rcases Typing.infer_cases h with ⟨hempty, -⟩ | ⟨method, final, -, hsettle, rfl⟩
  · -- code that was cut into blocks is not empty
    exact absurd hempty (Nat.ne_of_gt hb.size_pos)
  · obtain ⟨htraced, hqueue⟩ := Typing.traced_settle hb (Typing.traced_startOf signature method) hsettle
    have hentry : ∀ index, graph.Reaches index → ∃ entry, final.entries.get? index = some entry :=
      fun _ hreaches => Typing.exists_entry_of_infer hb h hreaches
    refine ⟨htraced.keys_entries hb hentry, htraced.degraded_eq hb hentry hqueue,
      htraced.keys_callArguments hb hentry hqueue,
      fun index block entry hblock hget front inst back hsplit hinvoke => ?_⟩
    have hshows := htraced.shown index block entry hblock hget (hqueue ▸ List.not_mem_nil)
    rw [hsplit] at hshows
    obtain ⟨frame, next, hrun, hexecute, hcall, -⟩ := hshows.at
    obtain ⟨kinds, harguments, htakes⟩ := Frame.takes_of_execute hinvoke hexecute
    exact ⟨frame, kinds, hrun, hcall kinds harguments, htakes⟩

/-- A method that takes an object. -/
def takeObject : CallSite := ⟨"A", "take", "(Ljava/lang/Object;)V", .virtual⟩

/-- A loop that calls a method of a local with the local itself, null at first and a string from then on. Behind
    the loop stands a call that nothing leads to. -/
def callLoop : List Instruction := [
  ⟨0, 0x01, .none, none⟩, ⟨1, 0x4b, .none, none⟩,
  ⟨2, 0x2a, .none, none⟩, ⟨3, 0x2a, .none, none⟩, ⟨4, 0xb6, .invoke takeObject, none⟩, ⟨7, 0xca, .none, none⟩,
  ⟨8, 0xbb, .classRef "java/lang/String", none⟩, ⟨11, 0x4b, .none, none⟩, ⟨12, 0xa7, .branch 2, none⟩,
  ⟨15, 0xb6, .invoke takeObject, none⟩, ⟨18, 0xb1, .none, none⟩]

/-- The first visit to the loop files two nulls under the call, the second one two strings, which stay. -/
theorem replays_of_infer_callLoop :
    ∃ graph typing, Graph.build callLoop [] = .ok graph
      ∧ infer graph ⟨"A", "f", "()V", true⟩ [] ⟨false, 9⟩ = .ok typing
      ∧ Replays graph false typing
      ∧ typing.findings.callArguments.get? 4
          = some [.reference "java/lang/String", .reference "java/lang/String"]
      ∧ typing.findings.callArguments.get? 15 = none ∧ typing.findings.degraded = [7] := by
  let built : Graph := ⟨[
    ⟨0, ⟨0, 0x01, .none, none⟩, [⟨1, 0x4b, .none, none⟩], [⟨.block 1, .fallThrough⟩]⟩,
    ⟨1, ⟨2, 0x2a, .none, none⟩, [⟨3, 0x2a, .none, none⟩, ⟨4, 0xb6, .invoke takeObject, none⟩,
        ⟨7, 0xca, .none, none⟩, ⟨8, 0xbb, .classRef "java/lang/String", none⟩, ⟨11, 0x4b, .none, none⟩,
        ⟨12, 0xa7, .branch 2, none⟩],
      [⟨.block 1, .jump⟩]⟩,
    ⟨2, ⟨15, 0xb6, .invoke takeObject, none⟩, [⟨18, 0xb1, .none, none⟩], [⟨.exit, .leave⟩]⟩]⟩
  let found : OperandTyping := ⟨
    ⟨[(0, ⟨[], []⟩), (1, ⟨[], [.reference "java/lang/String"]⟩)]⟩,
    ⟨⟨[(4, [.reference "java/lang/String", .reference "java/lang/String"])]⟩, [7]⟩⟩
  have hbuild : Graph.build callLoop [] = .ok built := by rfl
  have hinfer : infer built ⟨"A", "f", "()V", true⟩ [] ⟨false, 9⟩ = .ok found :=
    eq_ok_of_toOption (by decide +kernel)
  exact ⟨built, found, hbuild, hinfer, replays_of_infer hbuild hinfer, rfl, rfl, rfl⟩

end OperandTyping

end PatchPresence
