/-
  PatchPresence.Proofs.Operand.Invariant — entry frames are an inductive invariant of the abstract interpreter.

  While the analysis runs, every block with an entry frame waits in the queue or is closed: executing it
  from its entry frame gives frames that are below the entry frames of its successors. A visit may change
  the frame of a block that was closed, of one that waits and of the visited block itself; in each case the
  block waits again, and what was closed before stays closed because frames only grow. When the queue is
  empty all blocks are closed.

  Main results:
    * `Typing.settle_induction` — what every visit keeps holds when no block waits any more.
    * `OperandTyping.inductive_of_infer` — the frames of a finished analysis hold at the start, along
      every edge and at every handler.
-/
import PatchPresence.Operand.Typing
import PatchPresence.Proofs.Collections
import PatchPresence.Proofs.Operand.Join
import PatchPresence.Proofs.Outcome

namespace PatchPresence

namespace Typing

/-! ## §1. Execution. -/

/-- Recording changes no frame. -/
theorem run_of_runRecording {strict : Bool} {frame behind : Frame} {findings found : Findings}
    {instructions : List Instruction}
    (h : runRecording strict frame findings instructions = .ok (behind, found)) :
    run strict frame instructions = .ok behind := by
  induction instructions generalizing frame findings with
  | nil =>
    unfold runRecording at h
    obtain ⟨rfl, -⟩ := Prod.mk.inj (Except.ok.inj h)
    rfl
  | cons inst rest ih =>
    unfold runRecording at h
    obtain ⟨next, hnext, h⟩ := bind_eq_ok_iff.1 h
    unfold run
    rw [List.foldlM_cons, bind_eq_ok_iff]
    exact ⟨next, hnext, ih h⟩

/-! ## §2. Growing frames. -/

/-- The frame of a block is known and above a frame. -/
def Admits (entries : Table Nat Frame) (index : Nat) (frame : Frame) : Prop :=
  ∃ entry, entries.get? index = some entry ∧ frame.Below entry

/-- What the entry frames of one table are above, those of the other are above too. -/
def Grows (before after : Table Nat Frame) : Prop :=
  ∀ index frame, Admits before index frame → Admits after index frame

theorem admits_self {entries : Table Nat Frame} {index : Nat} {frame : Frame}
    (h : entries.get? index = some frame) : Admits entries index frame :=
  ⟨frame, h, .refl frame⟩

/-- What happens to frames and queue while frames are delivered. -/
structure Advances (before after : Progress) : Prop where
  grows : Grows before.entries after.entries
  waits : ∀ index ∈ before.queue, index ∈ after.queue
  /-- A block whose frame changes waits. -/
  kept : ∀ index, index ∉ after.queue → after.entries.get? index = before.entries.get? index

namespace Advances

theorem refl (progress : Progress) : Advances progress progress where
  grows _ _ h := h
  waits _ h := h
  kept _ _ := rfl

theorem trans {a b c : Progress} (hab : Advances a b) (hbc : Advances b c) : Advances a c where
  grows index frame h := hbc.grows index frame (hab.grows index frame h)
  waits index h := hbc.waits index (hab.waits index h)
  kept index h := by
    rw [hbc.kept index h, hab.kept index (fun hb => h (hbc.waits index hb))]

end Advances

/-- A block waits, once. -/
def enqueue (queue : List Nat) (target : Nat) : List Nat :=
  if queue.contains target then queue else queue ++ [target]

theorem mem_enqueue {queue : List Nat} {target index : Nat} :
    index ∈ enqueue queue target ↔ index ∈ queue ∨ index = target := by
  unfold enqueue
  split
  · next hwaits =>
    refine ⟨.inl, fun h => h.elim id ?_⟩
    rintro rfl
    exact List.contains_iff_mem.1 hwaits
  · rw [List.mem_append, List.mem_singleton]

/-- A block gets a frame above its old one and waits. -/
theorem advances_insert {progress : Progress} {target : Nat} {merged : Frame}
    (hold : ∀ old, progress.entries.get? target = some old → old.Below merged) :
    Advances progress { progress with
      entries := progress.entries.insert target merged
      queue := enqueue progress.queue target } where
  grows index frame := by
    rintro ⟨entry, hentry, hbelow⟩
    unfold Admits
    rw [Table.get?_insert]
    by_cases heq : index = target
    · subst heq
      exact ⟨merged, if_pos rfl, hbelow.trans (hold entry hentry)⟩
    · exact ⟨entry, by rw [if_neg heq]; exact hentry, hbelow⟩
  waits index hindex := mem_enqueue.2 (.inl hindex)
  kept index hindex := by
    have hne : index ≠ target := fun heq => hindex (mem_enqueue.2 (.inr heq))
    rw [Table.get?_insert, if_neg hne]

/-- A frame that is delivered is below the entry frame of its block from then on. -/
theorem deliver_spec (progress : Progress) (target : Nat) (incoming : Frame) :
    Advances progress (progress.deliver target incoming)
      ∧ Admits (progress.deliver target incoming).entries target incoming := by
  have hadmits : ∀ merged, incoming.Below merged →
      Admits (progress.entries.insert target merged) target incoming := by
    intro merged hincoming
    exact ⟨merged, by rw [Table.get?_insert, if_pos rfl], hincoming⟩
  unfold Progress.deliver
  cases hold : progress.entries.get? target with
  | none =>
    have hne : (none : Option Frame) ≠ some incoming := by simp
    dsimp only
    rw [if_neg hne]
    exact ⟨advances_insert (by simp [hold]), hadmits incoming (.refl incoming)⟩
  | some existing =>
    dsimp only
    split
    · next hsame =>
      rw [Option.some.injEq] at hsame
      exact ⟨.refl progress, existing, hold, hsame.symm⟩
    · refine ⟨advances_insert fun old h => ?_, hadmits _ (Frame.below_join_right existing incoming)⟩
      obtain rfl := Option.some.inj (hold.symm.trans h)
      exact Frame.below_join_left existing incoming

/-- Delivers what leaves a block along its edges. -/
def deliverAll (graph : Graph) (handlers : List ExceptionHandler) (before behind : Frame)
    (progress : Progress) (edges : List Edge) : Progress :=
  edges.foldl (fun acc edge =>
    match edge.block? with
    | some target => acc.deliver target (leavingFrame graph handlers edge before behind target)
    | none => acc) progress

theorem deliverAll_spec (graph : Graph) (handlers : List ExceptionHandler) (before behind : Frame)
    (progress : Progress) (edges : List Edge) :
    Advances progress (deliverAll graph handlers before behind progress edges)
      ∧ ∀ edge ∈ edges, ∀ target, edge.block? = some target →
          Admits (deliverAll graph handlers before behind progress edges).entries target
            (leavingFrame graph handlers edge before behind target) := by
  induction edges generalizing progress with
  | nil => exact ⟨.refl progress, fun edge hedge => absurd hedge List.not_mem_nil⟩
  | cons edge edges ih =>
    cases htarget : edge.block? with
    | none =>
      have hskip : deliverAll graph handlers before behind progress (edge :: edges)
          = deliverAll graph handlers before behind progress edges := by
        unfold deliverAll
        rw [List.foldl_cons, htarget]
      rw [hskip]
      obtain ⟨hadvances, hadmits⟩ := ih progress
      refine ⟨hadvances, fun other hother target ht => ?_⟩
      rcases List.mem_cons.1 hother with rfl | hother
      · rw [htarget] at ht
        cases ht
      · exact hadmits other hother target ht
    | some first =>
      let next := progress.deliver first (leavingFrame graph handlers edge before behind first)
      have hstep : deliverAll graph handlers before behind progress (edge :: edges)
          = deliverAll graph handlers before behind next edges := by
        unfold deliverAll
        rw [List.foldl_cons, htarget]
      rw [hstep]
      obtain ⟨hdelivered, hadmitted⟩ := deliver_spec progress first
        (leavingFrame graph handlers edge before behind first)
      obtain ⟨hadvances, hadmits⟩ := ih next
      refine ⟨hdelivered.trans hadvances, fun other hother target ht => ?_⟩
      rcases List.mem_cons.1 hother with rfl | hother
      · obtain rfl := Option.some.inj (htarget.symm.trans ht)
        exact hadvances.grows _ _ hadmitted
      · exact hadmits other hother target ht

theorem deliver_withFindings (progress : Progress) (findings : Findings) (target : Nat)
    (incoming : Frame) :
    ({ progress with findings } : Progress).deliver target incoming
      = { progress.deliver target incoming with findings } := by
  unfold Progress.deliver
  dsimp only
  split
  · split <;> rfl
  · split <;> rfl

theorem findings_deliver (progress : Progress) (target : Nat) (incoming : Frame) :
    (progress.deliver target incoming).findings = progress.findings := by
  have hkept := deliver_withFindings progress progress.findings target incoming
  exact (congrArg Progress.findings hkept :)

theorem findings_deliverAll (graph : Graph) (handlers : List ExceptionHandler) (before behind : Frame)
    (progress : Progress) (edges : List Edge) :
    (deliverAll graph handlers before behind progress edges).findings = progress.findings := by
  unfold deliverAll
  induction edges generalizing progress with
  | nil => rfl
  | cons edge edges ih =>
    rw [List.foldl_cons, ih]
    cases edge.block? with
    | none => rfl
    | some target => exact findings_deliver progress target _

/-! ## §3. Closed blocks. -/

/-- Executing a block from `before` ends in `behind`, and what leaves it is below the entry frames of the
    blocks that control goes to. A handler is entered with the exception alone on the stack and with
    locals from anywhere in the block. -/
structure Closed (graph : Graph) (handlers : List ExceptionHandler) (strict : Bool)
    (entries : Table Nat Frame) (block : Block) (before behind : Frame) : Prop where
  executes : run strict before block.instructions = .ok behind
  flow : ∀ edge ∈ block.edges, edge.kind ≠ .exception → ∀ target, edge.block? = some target →
    Admits entries target behind
  raise : ∀ edge ∈ block.edges, edge.kind = .exception → ∀ target, edge.block? = some target →
    Admits entries target
      ⟨[.reference (caughtClass graph handlers target)], joinSlots before.locals behind.locals⟩

theorem Closed.mono {graph : Graph} {handlers : List ExceptionHandler} {strict : Bool}
    {entries larger : Table Nat Frame} {block : Block} {before behind : Frame}
    (h : Closed graph handlers strict entries block before behind) (hgrows : Grows entries larger) :
    Closed graph handlers strict larger block before behind where
  executes := h.executes
  flow edge hedge hkind target htarget := hgrows _ _ (h.flow edge hedge hkind target htarget)
  raise edge hedge hkind target htarget := hgrows _ _ (h.raise edge hedge hkind target htarget)

/-- Every block with an entry frame waits or is closed. -/
def Settled (graph : Graph) (handlers : List ExceptionHandler) (strict : Bool)
    (progress : Progress) : Prop :=
  ∀ index block before, graph.block? index = some block →
    progress.entries.get? index = some before →
    index ∈ progress.queue
      ∨ ∃ behind, Closed graph handlers strict progress.entries block before behind

variable {graph : Graph} {handlers : List ExceptionHandler} {strict : Bool}

/-- Once its frames are delivered, a block is closed. -/
theorem closed_of_deliverAll {progress : Progress} {block : Block} {before behind : Frame}
    (hrun : run strict before block.instructions = .ok behind) :
    Closed graph handlers strict
      (deliverAll graph handlers before behind progress block.edges).entries block before behind := by
  obtain ⟨-, hadmits⟩ := deliverAll_spec graph handlers before behind progress block.edges
  refine ⟨hrun, fun edge hedge hkind target htarget => ?_, fun edge hedge hkind target htarget => ?_⟩
  · have := hadmits edge hedge target htarget
    rwa [leavingFrame, if_neg hkind] at this
  · have := hadmits edge hedge target htarget
    rwa [leavingFrame, if_pos hkind] at this

/-! ## §4. Visits. -/

/-- A visit changes nothing, or executes the block and delivers what leaves it. -/
theorem visit_cases {progress next : Progress} {index : Nat}
    (h : visit graph handlers strict progress index = .ok next) :
    (next = progress
        ∧ (graph.block? index = none ∨ progress.entries.get? index = none))
      ∨ ∃ block before behind findings, graph.block? index = some block
          ∧ progress.entries.get? index = some before
          ∧ runRecording strict before progress.findings block.instructions = .ok (behind, findings)
          ∧ next = deliverAll graph handlers before behind { progress with findings } block.edges := by
  unfold visit at h
  split at h
  · next block before hblock hbefore =>
    obtain ⟨⟨behind, findings⟩, hrun, h⟩ := bind_eq_ok_iff.1 h
    simp only [pure, Except.pure, Except.ok.injEq] at h
    exact .inr ⟨block, before, behind, findings, hblock, hbefore, hrun, h.symm⟩
  · next hmissing =>
    obtain rfl := Except.ok.inj h
    refine .inl ⟨rfl, ?_⟩
    cases hblock : graph.block? index with
    | none => exact .inl rfl
    | some block =>
      cases hbefore : progress.entries.get? index with
      | none => exact .inr rfl
      | some before => exact absurd hbefore (hmissing block before hblock)

/-- A visit to the first block that waits leaves every block waiting or closed. -/
theorem settled_visit {progress next : Progress} {index : Nat} {queue : List Nat}
    (hqueue : progress.queue = index :: queue) (hsettled : Settled graph handlers strict progress)
    (h : visit graph handlers strict { progress with queue } index = .ok next) :
    Settled graph handlers strict next ∧ Grows progress.entries next.entries := by
  rcases visit_cases h with ⟨rfl, hmissing⟩ | ⟨block, before, behind, findings, hblock, hbefore, hrun, rfl⟩
  · refine ⟨fun i other entry hother hentry => ?_, fun _ _ hadmits => hadmits⟩
    rcases hsettled i other entry hother hentry with hwaits | hclosed
    · rw [hqueue] at hwaits
      rcases List.mem_cons.1 hwaits with rfl | hwaits
      · rcases hmissing with hnone | hnone
        · rw [hnone] at hother
          cases hother
        · rw [show progress.entries.get? i = none from hnone] at hentry
          cases hentry
      · exact .inl hwaits
    · exact .inr hclosed
  · obtain ⟨hadvances, -⟩ := deliverAll_spec graph handlers before behind
      { progress with queue, findings } block.edges
    refine ⟨fun i other entry hother hentry => ?_, hadvances.grows⟩
    by_cases hwaiting : i ∈ (deliverAll graph handlers before behind
        { progress with queue, findings } block.edges).queue
    · exact .inl hwaiting
    · -- the block does not wait, so the visit left its frame alone
      right
      rw [hadvances.kept i hwaiting] at hentry
      by_cases hi : i = index
      · subst hi
        obtain rfl := Option.some.inj (hother.symm.trans hblock)
        obtain rfl := Option.some.inj (hentry.symm.trans hbefore)
        exact ⟨behind, closed_of_deliverAll (run_of_runRecording hrun)⟩
      · rcases hsettled i other entry hother hentry with hwaits | ⟨left, hclosed⟩
        · rw [hqueue] at hwaits
          rcases List.mem_cons.1 hwaits with hself | hwaits
          · exact absurd hself hi
          · exact absurd (hadvances.waits i hwaits) hwaiting
        · exact ⟨left, hclosed.mono hadvances.grows⟩

/-- What a visit to the first block that waits keeps holds when no block waits any more. -/
theorem settle_induction {motive : Progress → Prop}
    (hvisit : ∀ progress index queue next, progress.queue = index :: queue → motive progress →
      visit graph handlers strict { progress with queue } index = .ok next → motive next)
    {fuel : Nat} {progress final : Progress} (hstart : motive progress)
    (h : settle graph handlers strict fuel progress = .ok (some final)) : motive final ∧ final.queue = [] := by
  fun_induction settle graph handlers strict fuel progress with
  | case1 fuel progress hqueue =>
    obtain rfl := Option.some.inj (Except.ok.inj h)
    exact ⟨hstart, hqueue⟩
  | case2 progress index queue hqueue => cases h
  | case3 progress index queue fuel hqueue ih =>
    obtain ⟨next, hnext, h⟩ := bind_eq_ok_iff.1 h
    exact ih next (hvisit progress index queue next hqueue hstart hnext) h

/-- When no block waits any more, all are closed, and frames have only grown. -/
theorem settle_spec {fuel : Nat} {progress final : Progress}
    (hsettled : Settled graph handlers strict progress)
    (h : settle graph handlers strict fuel progress = .ok (some final)) :
    (∀ index block before, graph.block? index = some block → final.entries.get? index = some before →
        ∃ behind, Closed graph handlers strict final.entries block before behind)
      ∧ Grows progress.entries final.entries := by
  have hrun : (Settled graph handlers strict final ∧ Grows progress.entries final.entries) ∧ final.queue = [] := by
    refine settle_induction
      (motive := fun reached => Settled graph handlers strict reached ∧ Grows progress.entries reached.entries)
      ?_ ⟨hsettled, fun _ _ hadmits => hadmits⟩ h
    rintro reached index queue next hqueue ⟨hreached, hgrown⟩ hvisit
    obtain ⟨hnext, hgrows⟩ := settled_visit hqueue hreached hvisit
    exact ⟨hnext, fun i frame hadmits => hgrows i frame (hgrown i frame hadmits)⟩
  obtain ⟨⟨hfinal, hgrown⟩, hqueue⟩ := hrun
  refine ⟨fun index block before hblock hbefore => ?_, hgrown⟩
  exact (hfinal index block before hblock hbefore).resolve_left (hqueue ▸ List.not_mem_nil)

/-! ## §5. The analysis. -/

/-- Entry frames that hold at the start of a method and are kept by every block. -/
structure Inductive (graph : Graph) (signature : MethodSignature) (handlers : List ExceptionHandler)
    (strict : Bool) (entries : Table Nat Frame) : Prop where
  start : 0 < graph.size → ∃ method, MethodDescriptor.parse? signature.descriptor = some method
    ∧ Admits entries 0 (initialFrame signature method)
  closed : ∀ index block before, graph.block? index = some block →
    entries.get? index = some before →
    ∃ behind, Closed graph handlers strict entries block before behind

theorem parseMethod_eq_ok_iff {text : String} {offset : Nat} {method : MethodDescriptor} :
    parseMethod text offset = .ok method ↔ MethodDescriptor.parse? text = some method := by
  unfold parseMethod
  cases MethodDescriptor.parse? text <;> simp

/-- At the start the entry block waits and no other block has a frame. -/
theorem settled_start {frame : Frame} {findings : Findings} :
    Settled graph handlers strict ⟨Table.empty.insert 0 frame, findings, [0]⟩ := by
  intro index block before _ hbefore
  replace hbefore : (Table.empty.insert 0 frame).get? index = some before := hbefore
  rw [Table.get?_insert] at hbefore
  split at hbefore
  · next hzero => exact .inl (hzero ▸ List.mem_cons_self)
  · cases hbefore

/-- Where an analysis starts: the entry block waits with the frame that the method starts with. -/
def startOf (signature : MethodSignature) (method : MethodDescriptor) : Progress where
  entries := Table.empty.insert 0 (initialFrame signature method)
  findings := .none
  queue := [0]

/-- An analysis gives what is known when no block waits any more; without blocks that is nothing. -/
theorem infer_cases {signature : MethodSignature} {options : TypingOptions} {typing : OperandTyping}
    (h : OperandTyping.infer graph signature handlers options = .ok typing) :
    (graph.size = 0 ∧ typing = ⟨.empty, .none⟩)
      ∨ ∃ method final, MethodDescriptor.parse? signature.descriptor = some method
          ∧ settle graph handlers options.strict options.cap (startOf signature method) = .ok (some final)
          ∧ typing = ⟨final.entries, final.findings⟩ := by
  unfold OperandTyping.infer at h
  split at h
  · next hempty => exact .inl ⟨hempty, (Except.ok.inj h).symm⟩
  · obtain ⟨method, hmethod, h⟩ := bind_eq_ok_iff.1 h
    obtain ⟨final?, hsettle, h⟩ := bind_eq_ok_iff.1 h
    cases final? with
    | none => cases h
    | some final =>
      exact .inr ⟨method, final, parseMethod_eq_ok_iff.1 hmethod, hsettle, (Except.ok.inj h).symm⟩

/-- At the end of an analysis all blocks are closed. -/
theorem closed_of_infer {signature : MethodSignature} {options : TypingOptions} {typing : OperandTyping}
    (h : OperandTyping.infer graph signature handlers options = .ok typing)
    (index : Nat) (block : Block) (before : Frame) (hblock : graph.block? index = some block)
    (hbefore : typing.entries.get? index = some before) :
    ∃ behind, Closed graph handlers options.strict typing.entries block before behind := by
  rcases infer_cases h with ⟨-, rfl⟩ | ⟨method, final, -, hsettle, rfl⟩
  · cases hbefore
  · exact (settle_spec settled_start hsettle).1 index block before hblock hbefore

/-- The frame that the method starts with is below the entry frame of the first block. -/
theorem admits_start_of_infer {signature : MethodSignature} {options : TypingOptions} {typing : OperandTyping}
    (h : OperandTyping.infer graph signature handlers options = .ok typing) (hpos : 0 < graph.size) :
    ∃ method, MethodDescriptor.parse? signature.descriptor = some method
      ∧ Admits typing.entries 0 (initialFrame signature method) := by
  rcases infer_cases h with ⟨hempty, -⟩ | ⟨method, final, hmethod, hsettle, rfl⟩
  · exact absurd hempty (Nat.ne_of_gt hpos)
  · refine ⟨method, hmethod, (settle_spec settled_start hsettle).2 0 _ (admits_self ?_)⟩
    exact (Table.get?_insert _ _ _ _).trans (if_pos rfl)

end Typing

namespace OperandTyping

/-- **The entry frames are an inductive invariant.** Whenever the analysis gives frames, the frame that
    the method starts with is below the first of them, and executing any block that has a frame from that
    frame gives frames below those of the blocks that control goes to, handlers included. -/
theorem inductive_of_infer {graph : Graph} {signature : MethodSignature}
    {handlers : List ExceptionHandler} {options : TypingOptions} {typing : OperandTyping}
    (h : infer graph signature handlers options = .ok typing) :
    Typing.Inductive graph signature handlers options.strict typing.entries where
  start := Typing.admits_start_of_infer h
  closed := Typing.closed_of_infer h

/-- A loop that stores a new string until the local is not null, with a handler for its body. -/
def storeLoop : Graph := ⟨[
  ⟨0, ⟨0, 0x01, .none, none⟩, [⟨1, 0x4b, .none, none⟩], [⟨.block 1, .fallThrough⟩]⟩,
  ⟨1, ⟨2, 0x2a, .none, none⟩, [⟨3, 0xc7, .branch 13, none⟩],
    [⟨.block 3, .conditionalTrue⟩, ⟨.block 2, .conditionalFalse⟩]⟩,
  ⟨2, ⟨6, 0xbb, .classRef "java/lang/String", none⟩,
    [⟨9, 0x4b, .none, none⟩, ⟨10, 0xa7, .branch 2, none⟩],
    [⟨.block 1, .jump⟩, ⟨.block 4, .exception⟩]⟩,
  ⟨3, ⟨13, 0xb1, .none, none⟩, [], [⟨.exit, .leave⟩]⟩,
  ⟨4, ⟨14, 0xbf, .none, none⟩, [], [⟨.exit, .leave⟩]⟩]⟩

/-- Behind the loop the local is a string or null, and the handler sees both. -/
theorem inductive_of_infer_storeLoop :
    ∃ typing, infer storeLoop ⟨"A", "f", "()V", true⟩ [⟨6, 13, 14, some "java/lang/Error"⟩] ⟨true, 9⟩
        = .ok typing
      ∧ Typing.Inductive storeLoop ⟨"A", "f", "()V", true⟩ [⟨6, 13, 14, some "java/lang/Error"⟩] true
          typing.entries
      ∧ typing.entries.get? 4
          = some ⟨[.reference "java/lang/Error"], [.reference "java/lang/String"]⟩ := by
  let found : OperandTyping := ⟨⟨[
    (0, ⟨[], []⟩),
    (1, ⟨[], [.reference "java/lang/String"]⟩),
    (2, ⟨[], [.reference "java/lang/String"]⟩),
    (3, ⟨[], [.reference "java/lang/String"]⟩),
    (4, ⟨[.reference "java/lang/Error"], [.reference "java/lang/String"]⟩)]⟩, ⟨.empty, []⟩⟩
  have hinfer : infer storeLoop ⟨"A", "f", "()V", true⟩ [⟨6, 13, 14, some "java/lang/Error"⟩] ⟨true, 9⟩
      = .ok found := eq_ok_of_toOption (by decide +kernel)
  exact ⟨found, hinfer, inductive_of_infer hinfer, rfl⟩

end OperandTyping

end PatchPresence
