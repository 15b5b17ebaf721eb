/-
  PatchPresence.Proofs.Operand.Handlers — what the entry frame of an exception handler covers.

  A handler is entered with one reference on the stack and with locals from anywhere in the protected block. The
  analysis joins two snapshots of the locals, in front of the block and behind it, and takes one class for all
  handlers that start at the same offset, that of the last. So a local is covered at a point of the block unless
  it is written on the way to that point and again behind it, and an exception is covered if the last handler
  names its class, or if something else has made the reference less precise.

  Main results:
    * `Typing.joinSlot_of_not_transient` — the two snapshots cover a local that is not written twice.
    * `OperandTyping.coversLocals_of_infer` — the locals that a handler covers, at every point of a block.
    * `Typing.caughtClass_eq_last` — the class that stands for all handlers at an offset.
    * `OperandTyping.absorbsCaught_of_infer` — when the entry stack of a handler covers what it catches.
-/
import Mathlib.Data.List.Find
import PatchPresence.Proofs.Flow.Exceptions
import PatchPresence.Proofs.Flow.WellFormed
import PatchPresence.Proofs.Operand.Locals
import PatchPresence.Proofs.Operand.Replay

namespace PatchPresence

/-! ## §1. Writes. -/

namespace Frame

/-- Executing an instruction in a frame writes a slot: the one that it stores to, the next one for a wide value,
    or the one before if a wide value starts there. -/
def writes (frame : Frame) (inst : Instruction) (slot : Nat) : Bool :=
  match frame.stores? inst with
  | some (index, kind) =>
    slot == index || (slot == index + 1 && kind.isWide)
      || (slot + 1 == index && (frame.localKind slot).isWide)
  | none => false

variable {strict : Bool} {frame next : Frame} {inst : Instruction}

/-- A slot that is not written keeps its kind. -/
theorem localKind_of_execute (h : frame.execute strict inst = .ok next) {slot : Nat}
    (hwrites : frame.writes inst slot = false) : next.localKind slot = frame.localKind slot := by
  unfold writes at hwrites
  unfold localKind
  rw [locals_of_execute h]
  cases hstores : frame.stores? inst with
  | none => rfl
  | some store =>
    obtain ⟨index, kind⟩ := store
    rw [hstores] at hwrites
    simp only [Bool.or_eq_false_iff, Bool.and_eq_false_imp, beq_eq_false_iff_ne, beq_iff_eq] at hwrites
    obtain ⟨⟨hself, hupper⟩, hlower⟩ := hwrites
    show (storeLocal frame.locals index kind)[slot]?.getD .unknown = _
    rw [storeLocal_getElem?, if_neg hself, if_neg (by simpa using hupper),
      if_neg (by simpa [localKind] using hlower)]
    split <;> rfl

end Frame

namespace Typing

variable {strict : Bool} {before frame behind : Frame} {front back instructions : List Instruction} {slot : Nat}

/-- Executing instructions from a frame writes a slot. -/
def runWrites (strict : Bool) (slot : Nat) : Frame → List Instruction → Bool
  | _, [] => false
  | frame, inst :: rest =>
    frame.writes inst slot
      || match frame.execute strict inst with
        | .ok next => runWrites strict slot next rest
        | .error _ => false

/-- A run can be stopped at any point. -/
theorem exists_run_of_append (h : run strict before (front ++ back) = .ok behind) :
    ∃ frame, run strict before front = .ok frame ∧ run strict frame back = .ok behind := by
  unfold run at h ⊢
  rw [List.foldlM_append] at h
  exact bind_eq_ok_iff.1 h

/-- Locals are never given up. -/
theorem length_locals_of_run (h : run strict frame instructions = .ok behind) :
    frame.locals.length ≤ behind.locals.length := by
  have hstore : ∀ locals index kind, frame.locals.length ≤ locals.length →
      frame.locals.length ≤ (Frame.storeLocal locals index kind).length := by
    intro locals index kind hle
    rw [Frame.length_storeLocal]
    exact Nat.le_trans hle (Nat.le_max_left _ _)
  exact keeps_of_run hstore (Nat.le_refl _) h

/-- A slot that no instruction writes keeps its kind. -/
theorem localKind_of_run (h : run strict frame instructions = .ok behind)
    (hwrites : runWrites strict slot frame instructions = false) :
    behind.localKind slot = frame.localKind slot := by
  induction instructions generalizing frame with
  | nil =>
    obtain rfl := Except.ok.inj h
    rfl
  | cons inst rest ih =>
    rw [run_cons] at h
    obtain ⟨next, hnext, h⟩ := bind_eq_ok_iff.1 h
    simp only [runWrites, hnext, Bool.or_eq_false_iff] at hwrites
    rw [ih h hwrites.2, Frame.localKind_of_execute hnext hwrites.1]

/-! ## §2. Locals between two snapshots. -/

/-- A local that has a kind in front of the block, is written on the way to a point of it, and again behind that
    point: what it holds there is in neither snapshot. -/
structure Transient (strict : Bool) (before : Frame) (front : List Instruction) (frame : Frame)
    (back : List Instruction) (slot : Nat) : Prop where
  known : slot < before.locals.length
  written : runWrites strict slot before front = true
  rewritten : runWrites strict slot frame back = true

theorem joinSlot_left_of_absorbs {entry a b : Option ValueKind} (h : joinSlot entry (joinSlot a b) = entry) :
    joinSlot entry a = entry := by
  have hself : joinSlot (joinSlot a b) a = joinSlot a b := by
    rw [joinSlot_comm, ← joinSlot_assoc, joinSlot_self]
  calc joinSlot entry a = joinSlot (joinSlot entry (joinSlot a b)) a := by rw [h]
    _ = joinSlot entry (joinSlot (joinSlot a b) a) := joinSlot_assoc _ _ _
    _ = entry := by rw [hself, h]

theorem joinSlot_right_of_absorbs {entry a b : Option ValueKind} (h : joinSlot entry (joinSlot a b) = entry) :
    joinSlot entry b = entry := by
  rw [joinSlot_comm a b] at h
  exact joinSlot_left_of_absorbs h

/-- Where nothing is known, nothing gets lost. -/
theorem joinSlot_of_absorbs_unknown {entry : Option ValueKind} (h : joinSlot entry (some .unknown) = entry)
    (kind : Option ValueKind) : joinSlot entry kind = entry := by
  have hunknown : entry = some .unknown := by
    rw [← h]
    cases entry with
    | none => rfl
    | some known => cases known <;> rfl
  subst hunknown
  cases kind with
  | none => rfl
  | some kind => cases kind <;> rfl

/-- What absorbs the snapshots of a local absorbs what it holds in between, unless it is written on both sides. -/
theorem joinSlot_of_not_transient {entry : Option ValueKind} (hfront : run strict before front = .ok frame)
    (hback : run strict frame back = .ok behind)
    (habsorbs : joinSlot entry (joinSlot before.locals[slot]? behind.locals[slot]?) = entry)
    (h : ¬ Transient strict before front frame back slot) :
    joinSlot entry frame.locals[slot]? = entry := by
  have hgrows := length_locals_of_run hfront
  have hgrown := length_locals_of_run hback
  -- in the range of the locals, a slot of the same kind is the same slot
  have hsame : ∀ a b : Frame, slot < a.locals.length → slot < b.locals.length →
      a.localKind slot = b.localKind slot → a.locals[slot]? = b.locals[slot]? := by
    intro a b ha hb hkind
    unfold Frame.localKind at hkind
    rw [List.getElem?_eq_getElem ha, List.getElem?_eq_getElem hb] at hkind ⊢
    exact congrArg some hkind
  by_cases hknown : slot < before.locals.length
  · by_cases hwritten : runWrites strict slot before front = true
    · by_cases hrewritten : runWrites strict slot frame back = true
      · exact absurd ⟨hknown, hwritten, hrewritten⟩ h
      · have hkind := localKind_of_run hback (Bool.eq_false_iff.2 hrewritten)
        rw [← hsame behind frame (by omega) (by omega) hkind]
        exact joinSlot_right_of_absorbs habsorbs
    · have hkind := localKind_of_run hfront (Bool.eq_false_iff.2 hwritten)
      rw [hsame frame before (by omega) hknown hkind]
      exact joinSlot_left_of_absorbs habsorbs
  · -- a slot that is missing in front is missing behind too, or joins to unknown
    have hnone : before.locals[slot]? = none := List.getElem?_eq_none (by omega)
    cases hbehind : behind.locals[slot]? with
    | none =>
      have hmissing : frame.locals[slot]? = none :=
        List.getElem?_eq_none (Nat.le_trans hgrown (List.getElem?_eq_none_iff.1 hbehind))
      rw [hnone, hbehind] at habsorbs
      rw [hmissing]
      exact habsorbs
    | some kind =>
      rw [hnone, hbehind] at habsorbs
      exact joinSlot_of_absorbs_unknown habsorbs _

end Typing

/-! ## §3. Blocks of a finished analysis. -/

namespace OperandTyping

variable {graph : Graph} {signature : MethodSignature} {handlers : List ExceptionHandler}
  {options : TypingOptions} {typing : OperandTyping}

/-- **What a handler covers of the locals.** At every point of a block that has an entry frame and an edge to a
    handler, executing the block up to that point gives locals that the entry frame of the handler covers: slot by
    slot, apart from those that the block writes both on the way to the point and behind it, and as a whole where
    there is no such slot. -/
theorem coversLocals_of_infer (h : infer graph signature handlers options = .ok typing) {index target : Nat}
    {block : Block} {before : Frame} (hblock : graph.block? index = some block)
    (hbefore : typing.entries.get? index = some before) (hraise : Edge.raise target ∈ block.edges) :
    ∃ entry, typing.entries.get? target = some entry
      ∧ ∀ front back, block.instructions = front ++ back →
          ∃ frame, Typing.run options.strict before front = .ok frame
            ∧ (∀ slot, ¬ Typing.Transient options.strict before front frame back slot →
                (joinSlots entry.locals frame.locals)[slot]? = entry.locals[slot]?)
            ∧ ((∀ slot, ¬ Typing.Transient options.strict before front frame back slot) →
                joinSlots entry.locals frame.locals = entry.locals) := by
  obtain ⟨behind, hclosed⟩ := Typing.closed_of_infer h index block before hblock hbefore
  obtain ⟨entry, hentry, hbelow⟩ := hclosed.raise (.raise target) hraise rfl target rfl
  have habsorbs : joinSlots entry.locals (joinSlots before.locals behind.locals) = entry.locals :=
    congrArg Frame.locals hbelow
  refine ⟨entry, hentry, fun front back hsplit => ?_⟩
  have hrun := hclosed.executes
  rw [hsplit] at hrun
  obtain ⟨frame, hfront, hback⟩ := Typing.exists_run_of_append hrun
  have hslot : ∀ slot, ¬ Typing.Transient options.strict before front frame back slot →
      (joinSlots entry.locals frame.locals)[slot]? = entry.locals[slot]? := by
    intro slot hstays
    rw [joinSlots_getElem?]
    refine Typing.joinSlot_of_not_transient hfront hback ?_ hstays
    rw [← joinSlots_getElem?, ← joinSlots_getElem?, habsorbs]
  exact ⟨frame, hfront, hslot, fun hstays => List.ext_getElem? fun slot => hslot slot (hstays slot)⟩

/-- A method without result that may raise an exception. -/
def risk : CallSite := ⟨"a/Sample", "risk", "()V", .static⟩

/-- The first local is overwritten before a call and the second one behind it, all in one protected block. -/
def overwrites : List Instruction := [
  ⟨0, 0x01, .none, none⟩, ⟨1, 0x4b, .none, none⟩, ⟨2, 0xb8, .invoke risk, none⟩,
  ⟨5, 0x2a, .none, none⟩, ⟨6, 0x4c, .none, none⟩, ⟨7, 0xb1, .none, none⟩, ⟨8, 0xbf, .none, none⟩]

/-- When the call raises an exception, the first local is null already and the second one still an int. The
    handler covers both. -/
theorem coversLocals_of_infer_overwrites :
    ∃ graph typing block before entry frame,
      Graph.build overwrites [⟨0, 8, 8, none⟩] = .ok graph
      ∧ infer graph ⟨"a/Sample", "run", "(Ljava/lang/String;I)V", true⟩ [⟨0, 8, 8, none⟩] ⟨false, 64⟩ = .ok typing
      ∧ graph.block? 0 = some block ∧ Edge.raise 1 ∈ block.edges
      ∧ typing.entries.get? 0 = some before ∧ typing.entries.get? 1 = some entry
      ∧ Typing.run false before (overwrites.take 3) = .ok frame
      ∧ frame.locals = [.null, .int] ∧ entry.locals = [.reference "java/lang/String", .unknown]
      ∧ joinSlots entry.locals frame.locals = entry.locals := by
  let block : Block := ⟨0, ⟨0, 0x01, .none, none⟩, [⟨1, 0x4b, .none, none⟩, ⟨2, 0xb8, .invoke risk, none⟩,
    ⟨5, 0x2a, .none, none⟩, ⟨6, 0x4c, .none, none⟩, ⟨7, 0xb1, .none, none⟩],
    [⟨.exit, .leave⟩, ⟨.block 1, .exception⟩]⟩
  let graph : Graph := ⟨[block, ⟨1, ⟨8, 0xbf, .none, none⟩, [], [⟨.exit, .leave⟩]⟩]⟩
  let before : Frame := ⟨[], [.reference "java/lang/String", .int]⟩
  let entry : Frame := ⟨[.reference "java/lang/Throwable"], [.reference "java/lang/String", .unknown]⟩
  let frame : Frame := ⟨[], [.null, .int]⟩
  let typing : OperandTyping := ⟨⟨[(0, before), (1, entry)]⟩, ⟨⟨[(2, [])]⟩, []⟩⟩
  have hbuild : Graph.build overwrites [⟨0, 8, 8, none⟩] = .ok graph := by rfl
  have hinfer : infer graph ⟨"a/Sample", "run", "(Ljava/lang/String;I)V", true⟩ [⟨0, 8, 8, none⟩] ⟨false, 64⟩
      = .ok typing := eq_ok_of_toOption (by decide +kernel)
  have hblock : graph.block? 0 = some block := rfl
  have hbefore : typing.entries.get? 0 = some before := rfl
  have hentry : typing.entries.get? 1 = some entry := rfl
  have hraise : Edge.raise 1 ∈ block.edges := by decide
  have hrun : Typing.run false before (overwrites.take 3) = .ok frame := eq_ok_of_toOption (by decide +kernel)
  refine ⟨graph, typing, block, before, entry, frame, hbuild, hinfer, hblock, hraise, hbefore, hentry, hrun, rfl,
    rfl, ?_⟩
  obtain ⟨other, hother, hcovers⟩ := coversLocals_of_infer hinfer hblock hbefore hraise
  obtain rfl := Option.some.inj (hentry.symm.trans hother)
  obtain ⟨reached, hreached, -, hall⟩ := hcovers (overwrites.take 3) (block.instructions.drop 3) rfl
  obtain rfl := Except.ok.inj (hrun.symm.trans hreached)
  refine hall fun slot htransient => ?_
  have hknown : slot < 2 := htransient.known
  obtain rfl | rfl : slot = 0 ∨ slot = 1 := by omega
  · exact absurd htransient.rewritten (by decide +kernel)
  · exact absurd htransient.written (by decide +kernel)

/-- A float is stored over an int before a call, and an int over the float behind it, in one protected block. -/
def overwritesTwice : List Instruction := [
  ⟨0, 0x0b, .none, none⟩, ⟨1, 0x43, .none, none⟩, ⟨2, 0xb8, .invoke risk, none⟩,
  ⟨5, 0x03, .none, none⟩, ⟨6, 0x3b, .none, none⟩, ⟨7, 0xb1, .none, none⟩, ⟨8, 0xbf, .none, none⟩]

/-- When the call raises an exception, the local is a float. The handler takes it for an int. -/
theorem localLost_overwritesTwice :
    ∃ graph typing block before entry frame,
      Graph.build overwritesTwice [⟨0, 8, 8, none⟩] = .ok graph
      ∧ infer graph ⟨"a/Sample", "run", "(I)V", true⟩ [⟨0, 8, 8, none⟩] ⟨false, 64⟩ = .ok typing
      ∧ graph.block? 0 = some block ∧ Edge.raise 1 ∈ block.edges
      ∧ typing.entries.get? 0 = some before ∧ typing.entries.get? 1 = some entry
      ∧ overwritesTwice.take 3 <+: block.instructions
      ∧ Typing.run false before (overwritesTwice.take 3) = .ok frame
      ∧ frame.locals = [.float] ∧ entry.locals = [.int]
      ∧ joinSlots entry.locals frame.locals ≠ entry.locals := by
  let block : Block := ⟨0, ⟨0, 0x0b, .none, none⟩, [⟨1, 0x43, .none, none⟩, ⟨2, 0xb8, .invoke risk, none⟩,
    ⟨5, 0x03, .none, none⟩, ⟨6, 0x3b, .none, none⟩, ⟨7, 0xb1, .none, none⟩],
    [⟨.exit, .leave⟩, ⟨.block 1, .exception⟩]⟩
  let graph : Graph := ⟨[block, ⟨1, ⟨8, 0xbf, .none, none⟩, [], [⟨.exit, .leave⟩]⟩]⟩
  let typing : OperandTyping := ⟨⟨[(0, ⟨[], [.int]⟩), (1, ⟨[.reference "java/lang/Throwable"], [.int]⟩)]⟩,
    ⟨⟨[(2, [])]⟩, []⟩⟩
  have hbuild : Graph.build overwritesTwice [⟨0, 8, 8, none⟩] = .ok graph := by rfl
  have hinfer : infer graph ⟨"a/Sample", "run", "(I)V", true⟩ [⟨0, 8, 8, none⟩] ⟨false, 64⟩ = .ok typing :=
    eq_ok_of_toOption (by decide +kernel)
  have hrun : Typing.run false ⟨[], [.int]⟩ (overwritesTwice.take 3) = .ok ⟨[], [.float]⟩ :=
    eq_ok_of_toOption (by decide +kernel)
  exact ⟨graph, typing, block, _, _, _, hbuild, hinfer, rfl, by decide, rfl, rfl, by decide, hrun, rfl, rfl,
    by decide⟩

end OperandTyping

/-! ## §4. Classes that handlers catch. -/

/-- Class of the exceptions that a handler is entered with. -/
def ExceptionHandler.caught (handler : ExceptionHandler) : String :=
  handler.catchType.getD "java/lang/Throwable"

/-- The last handler of a table that starts at an offset. -/
def ExceptionHandler.lastAt? (handlers : List ExceptionHandler) (offset : Nat) : Option ExceptionHandler :=
  handlers.reverse.find? fun handler => handler.handler == offset

/-- A kind covers a reference when it is that reference, any object, or unknown. -/
theorem ValueKind.join_reference_eq_self_iff (kind : ValueKind) (name : String) :
    kind.join (.reference name) = kind ↔ kind = .reference name ∨ kind = object ∨ kind = .unknown := by
  cases kind with
  | reference other =>
    rw [reference_join_reference]
    by_cases heq : other = name
    · simp [heq]
    · rw [if_neg heq]
      constructor
      · exact fun h => .inr (.inl h.symm)
      · rintro (h | h | h)
        · injection h with hname
          exact absurd hname heq
        · exact h.symm
        · cases h
  | _ => simp [join, object]

namespace Graph.Built

variable {code : List Instruction} {handlers : List ExceptionHandler} {graph : Graph}

/-- A handler has a block that starts at its offset, and its offset is looked up there. -/
theorem exists_handlerBlock (hb : Built code handlers graph) {handler : ExceptionHandler}
    (hmem : handler ∈ handlers) :
    ∃ target landing, blockStartingAt? (cutBlocks code handlers) handler.handler = some target
      ∧ graph.blockOfOffset? handler.handler = some target
      ∧ graph.block? target = some landing ∧ landing.startOffset = handler.handler := by
  obtain ⟨target, htarget⟩ := Graph.exists_handlerBlock hmem (hb.handler handler hmem)
  obtain ⟨part, hpart, -⟩ := blockStartingAt?_eq_some htarget
  obtain ⟨landing, hlanding, -, -⟩ := hb.block_of_part hpart
  have hstart : handler.handler = landing.startOffset := (hb.blockStartingAt?_eq_some_iff hlanding).1 htarget
  have hspan := hb.startOffset_le_endOffset (List.mem_of_getElem? hlanding)
  refine ⟨target, landing, htarget, hb.blockOfOffset?_eq_some_iff.2 ⟨landing, hlanding, ?_, ?_⟩, hlanding,
    hstart.symm⟩
  · exact Nat.le_of_eq hstart.symm
  · rw [hstart]
    exact hspan

/-- Handlers share a block only if they start at the same offset. -/
theorem blockOfOffset?_eq_iff (hb : Built code handlers graph) {a b : ExceptionHandler} (ha : a ∈ handlers)
    (hbmem : b ∈ handlers) :
    graph.blockOfOffset? a.handler = graph.blockOfOffset? b.handler ↔ a.handler = b.handler := by
  refine ⟨fun heq => ?_, fun heq => by rw [heq]⟩
  obtain ⟨target, landing, -, hlookup, hlanding, hstart⟩ := hb.exists_handlerBlock ha
  obtain ⟨other, _, -, hotherLookup, hotherLanding, hotherStart⟩ := hb.exists_handlerBlock hbmem
  rw [hlookup, hotherLookup] at heq
  obtain rfl := Option.some.inj heq
  obtain rfl := Option.some.inj (hlanding.symm.trans hotherLanding)
  rw [← hstart, hotherStart]

end Graph.Built

/-- One class stands for all handlers that start at an offset: that of the last of them. -/
theorem Typing.caughtClass_eq_last {code : List Instruction} {handlers : List ExceptionHandler} {graph : Graph}
    (hb : graph.Built code handlers) {handler : ExceptionHandler} (hmem : handler ∈ handlers) {target : Nat}
    (htarget : graph.blockOfOffset? handler.handler = some target) :
    ∃ last, ExceptionHandler.lastAt? handlers handler.handler = some last
      ∧ caughtClass graph handlers target = last.caught := by
  -- looking for the block of a handler is looking for its offset
  have hfind : (handlers.reverse.find? fun other => graph.blockOfOffset? other.handler == some target)
      = ExceptionHandler.lastAt? handlers handler.handler := by
    refine List.find?_congr fun other hother => ?_
    rw [← htarget, Bool.eq_iff_iff, beq_iff_eq, beq_iff_eq]
    exact hb.blockOfOffset?_eq_iff (List.mem_reverse.1 hother) hmem
  cases hlast : ExceptionHandler.lastAt? handlers handler.handler with
  | none =>
    have hnone := List.find?_eq_none.1 hlast handler (List.mem_reverse.2 hmem)
    exact absurd (beq_self_eq_true handler.handler) hnone
  | some last =>
    refine ⟨last, rfl, ?_⟩
    unfold caughtClass
    rw [hfind, hlast]
    rfl

/-- A reference that a stack absorbs lies below the kind at its bottom. -/
theorem exists_bottom_of_absorbs {stack : List ValueKind} {kind : ValueKind}
    (h : joinSlots stack [kind] = stack) : ∃ bottom, stack[0]? = some bottom ∧ bottom.join kind = bottom := by
  cases stack with
  | nil => cases h
  | cons bottom rest =>
    injection h with hbottom
    exact ⟨bottom, rfl, hbottom⟩

namespace OperandTyping

/-- **What a handler covers of the exceptions.** Where control can come to a block that a handler protects, the
    block of the handler has an entry stack, the kind at its bottom covers the class of the last handler that
    starts there, and it covers the class of the handler itself exactly if that is the same class, or the kind is
    any object or unknown. -/
theorem absorbsCaught_of_infer {code : List Instruction} {handlers : List ExceptionHandler} {graph : Graph}
    {signature : MethodSignature} {options : TypingOptions} {typing : OperandTyping}
    (hbuild : Graph.build code handlers = .ok graph)
    (h : infer graph signature handlers options = .ok typing) {handler : ExceptionHandler}
    (hmem : handler ∈ handlers) {index : Nat} {block : Block} (hblock : graph.block? index = some block)
    (hreaches : graph.Reaches index) (hprotects : handler.protects block.startOffset = true) :
    ∃ last target kind, ExceptionHandler.lastAt? handlers handler.handler = some last
      ∧ graph.blockOfOffset? handler.handler = some target
      ∧ typing.entryStack? target 0 = some kind
      ∧ kind.join (.reference last.caught) = kind
      ∧ (kind.join (.reference handler.caught) = kind
          ↔ handler.caught = last.caught ∨ kind = .object ∨ kind = .unknown) := by
  have hb := Graph.built_of_build hbuild
  obtain ⟨target, landing, hstarts, hlookup, -, -⟩ := hb.exists_handlerBlock hmem
  obtain ⟨last, hlast, hclass⟩ := Typing.caughtClass_eq_last hb hmem hlookup
  have hraise : Edge.raise target ∈ block.edges :=
    (hb.raise_mem_edges_iff_protects hblock).2 ⟨handler, hmem, hprotects, hstarts⟩
  obtain ⟨before, hbefore⟩ := Typing.exists_entry_of_infer hb h hreaches
  obtain ⟨behind, hclosed⟩ := Typing.closed_of_infer h index block before hblock hbefore
  obtain ⟨entry, hentry, hbelow⟩ := hclosed.raise (.raise target) hraise rfl target rfl
  obtain ⟨kind, hkind, habsorbs⟩ := exists_bottom_of_absorbs (congrArg Frame.stack hbelow)
  rw [hclass] at habsorbs
  refine ⟨last, target, kind, hlast, hlookup, ?_, habsorbs, ?_⟩
  · simp only [entryStack?, hentry]
    exact hkind
  · rw [ValueKind.join_reference_eq_self_iff] at habsorbs ⊢
    rcases habsorbs with rfl | hcoarse
    · rw [ValueKind.reference.injEq, eq_comm (a := last.caught)]
    · exact iff_of_true (.inr hcoarse) (.inr hcoarse)

/-- A call that a handler protects. -/
def guardedCall : List Instruction := [
  ⟨0, 0xb8, .invoke risk, none⟩, ⟨3, 0xb1, .none, none⟩, ⟨4, 0xbf, .none, none⟩]

/-- One handler for exceptions of two classes. -/
def twoClasses : List ExceptionHandler := [
  ⟨0, 4, 4, some "java/io/IOException"⟩, ⟨0, 4, 4, some "java/lang/RuntimeException"⟩]

/-- The graph of the call and its handler. -/
def guardedGraph : Graph := ⟨[
  ⟨0, ⟨0, 0xb8, .invoke risk, none⟩, [⟨3, 0xb1, .none, none⟩], [⟨.exit, .leave⟩, ⟨.block 1, .exception⟩]⟩,
  ⟨1, ⟨4, 0xbf, .none, none⟩, [], [⟨.exit, .leave⟩]⟩]⟩

/-- Frames of the call and its handler, which is entered with the class that was named last. -/
def guardedTyping : OperandTyping := ⟨⟨[
  (0, ⟨[], []⟩), (1, ⟨[.reference "java/lang/RuntimeException"], []⟩)]⟩, ⟨⟨[(0, [])]⟩, []⟩⟩

theorem build_guardedCall : Graph.build guardedCall twoClasses = .ok guardedGraph := by rfl

theorem infer_guardedCall :
    infer guardedGraph ⟨"a/Sample", "run", "()V", true⟩ twoClasses ⟨false, 64⟩ = .ok guardedTyping :=
  eq_ok_of_toOption (by decide +kernel)

/-- The class that was named last is covered. -/
theorem absorbsCaught_of_infer_guardedCall :
    ∃ handler ∈ twoClasses, ∃ last target kind,
      ExceptionHandler.lastAt? twoClasses handler.handler = some last
      ∧ guardedGraph.blockOfOffset? handler.handler = some target
      ∧ guardedTyping.entryStack? target 0 = some kind
      ∧ handler.caught = last.caught
      ∧ kind.join (.reference handler.caught) = kind := by
  have hmem : (⟨0, 4, 4, some "java/lang/RuntimeException"⟩ : ExceptionHandler) ∈ twoClasses := by decide
  have hblock : guardedGraph.block? 0 = some _ := rfl
  obtain ⟨last, target, kind, hlast, htarget, hkind, -, hiff⟩ :=
    absorbsCaught_of_infer build_guardedCall infer_guardedCall hmem hblock ⟨[0], .start⟩ (by decide)
  have hsame : some last = some ⟨0, 4, 4, some "java/lang/RuntimeException"⟩ := hlast.symm
  obtain rfl := Option.some.inj hsame
  exact ⟨_, hmem, _, target, kind, hlast, htarget, hkind, rfl, hiff.2 (.inl rfl)⟩

/-- The class that was named first is not: the handler is entered with an exception of either class, and its entry
    stack holds the second one. -/
theorem classLost_guardedCall :
    ∃ graph typing handler block target kind,
      Graph.build guardedCall twoClasses = .ok graph
      ∧ infer graph ⟨"a/Sample", "run", "()V", true⟩ twoClasses ⟨false, 64⟩ = .ok typing
      ∧ handler ∈ twoClasses ∧ graph.block? 0 = some block ∧ graph.Reaches 0
      ∧ handler.protects block.startOffset = true
      ∧ graph.blockOfOffset? handler.handler = some target
      ∧ typing.entryStack? target 0 = some kind
      ∧ kind.join (.reference handler.caught) ≠ kind := by
  exact ⟨guardedGraph, guardedTyping, ⟨0, 4, 4, some "java/io/IOException"⟩, _, 1, _, build_guardedCall,
    infer_guardedCall, by decide, rfl, ⟨[0], .start⟩, by decide, by decide +kernel, rfl, by decide⟩

end OperandTyping

end PatchPresence
