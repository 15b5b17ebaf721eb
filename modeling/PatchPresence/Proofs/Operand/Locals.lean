/-
  PatchPresence.Proofs.Operand.Locals — what the abstract interpreter does to local variables.

  An instruction leaves the locals alone or stores one value. A store changes its own slot, the next one when
  the value is wide, and the one before when that holds a wide value, whose upper half is overwritten. All
  other slots keep what they hold. Frames meet in joins, so what stores and joins keep of the locals holds in
  every entry frame.

  Main results:
    * `Frame.storeLocal_getElem?` — a store slot by slot.
    * `Frame.locals_of_execute` — the only way in which an instruction changes the locals.
    * `OperandTyping.forall_locals_of_infer` — the induction over all stores and joins.
    * `OperandTyping.widePaired_of_infer` — in every entry frame a wide local owns two slots.
-/
import PatchPresence.Proofs.Operand.Invariant

namespace PatchPresence

/-! ## §1. Stores. -/

namespace Frame

/-- Number of slots that a value stored at a slot asks for. -/
def storedWidth (index : Nat) (kind : ValueKind) : Nat := if kind.isWide then index + 2 else index + 1

/-- Locals filled up with unknown ones. -/
def padLocals (locals : List ValueKind) (width : Nat) : List ValueKind :=
  locals ++ List.replicate (width - locals.length) .unknown

/-- Locals without the wide value whose upper half is at a slot. -/
def clearBelow (locals : List ValueKind) (index : Nat) : List ValueKind :=
  if 0 < index && (locals[index - 1]?.getD .unknown).isWide then locals.set (index - 1) .unknown else locals

/-- Locals with a value at its slots. -/
def putLocal (locals : List ValueKind) (index : Nat) (kind : ValueKind) : List ValueKind :=
  if kind.isWide then (locals.set index kind).set (index + 1) .unknown else locals.set index kind

/-- A store makes room, clears the lower half of a wide value and puts the new one. -/
theorem storeLocal_eq (locals : List ValueKind) (index : Nat) (kind : ValueKind) :
    storeLocal locals index kind
      = putLocal (clearBelow (padLocals locals (storedWidth index kind)) index) index kind := rfl

theorem length_padLocals (locals : List ValueKind) (width : Nat) :
    (padLocals locals width).length = max locals.length width := by
  rw [padLocals, List.length_append, List.length_replicate]
  omega

theorem length_clearBelow (locals : List ValueKind) (index : Nat) :
    (clearBelow locals index).length = locals.length := by
  unfold clearBelow
  split
  · rw [List.length_set]
  · rfl

theorem length_putLocal (locals : List ValueKind) (index : Nat) (kind : ValueKind) :
    (putLocal locals index kind).length = locals.length := by
  unfold putLocal
  split
  · rw [List.length_set, List.length_set]
  · rw [List.length_set]

theorem length_storeLocal (locals : List ValueKind) (index : Nat) (kind : ValueKind) :
    (storeLocal locals index kind).length = max locals.length (storedWidth index kind) := by
  rw [storeLocal_eq, length_putLocal, length_clearBelow, length_padLocals]

theorem padLocals_getElem? (locals : List ValueKind) (width slot : Nat) :
    (padLocals locals width)[slot]?
      = if slot < width then some (locals[slot]?.getD .unknown) else locals[slot]? := by
  unfold padLocals
  by_cases hslot : slot < locals.length
  · rw [List.getElem?_append_left hslot, List.getElem?_eq_getElem hslot, Option.getD_some, ite_self]
  · have hnone : locals[slot]? = none := List.getElem?_eq_none (by omega)
    rw [List.getElem?_append_right (by omega), List.getElem?_replicate, hnone]
    by_cases hwidth : slot < width
    · rw [if_pos hwidth, if_pos (by omega)]
      rfl
    · rw [if_neg hwidth, if_neg (by omega)]

theorem clearBelow_getElem? (locals : List ValueKind) (index slot : Nat) :
    (clearBelow locals index)[slot]?
      = if slot + 1 = index ∧ (locals[slot]?.getD .unknown).isWide = true then some .unknown
        else locals[slot]? := by
  unfold clearBelow
  by_cases hlower : slot + 1 = index
  · subst hlower
    cases hslot : locals[slot]? with
    | none => simp [hslot, ValueKind.isWide]
    | some kind =>
      obtain ⟨hlt, rfl⟩ := List.getElem?_eq_some_iff.1 hslot
      cases hwide : locals[slot].isWide <;> simp [hwide, hlt]
  · rw [if_neg (mt And.left hlower)]
    split
    · next hwide =>
      have hpos : 0 < index := by simpa using (Bool.and_eq_true_iff.1 hwide).1
      exact List.getElem?_set_ne (by omega)
    · rfl

theorem putLocal_getElem? {locals : List ValueKind} {index : Nat} {kind : ValueKind}
    (hroom : storedWidth index kind ≤ locals.length) (slot : Nat) :
    (putLocal locals index kind)[slot]?
      = if slot = index then some kind
        else if slot = index + 1 ∧ kind.isWide = true then some .unknown
        else locals[slot]? := by
  unfold storedWidth at hroom
  unfold putLocal
  cases hwide : kind.isWide with
  | false =>
    rw [hwide] at hroom
    simp only [Bool.false_eq_true, if_false, and_false] at hroom ⊢
    rw [List.getElem?_set, if_pos (show index < locals.length by omega)]
    simp only [eq_comm]
  | true =>
    rw [hwide] at hroom
    simp only [if_true, and_true] at hroom ⊢
    rw [List.getElem?_set, List.getElem?_set, List.length_set,
      if_pos (show index < locals.length by omega), if_pos (show index + 1 < locals.length by omega)]
    by_cases hself : slot = index
    · rw [if_pos hself, if_pos hself.symm, if_neg (by omega)]
    · rw [if_neg hself, if_neg (Ne.symm hself)]
      simp only [eq_comm]

/-- A store slot by slot: its own slot, the upper half of a wide value, the lower half of one that is cut in
    two, slots that are filled up, and all others. -/
theorem storeLocal_getElem? (locals : List ValueKind) (index : Nat) (kind : ValueKind) (slot : Nat) :
    (storeLocal locals index kind)[slot]?
      = if slot = index then some kind
        else if slot = index + 1 ∧ kind.isWide = true then some .unknown
        else if slot + 1 = index ∧ (locals[slot]?.getD .unknown).isWide = true then some .unknown
        else if slot < index then some (locals[slot]?.getD .unknown)
        else locals[slot]? := by
  have hroom : storedWidth index kind
      ≤ (clearBelow (padLocals locals (storedWidth index kind)) index).length := by
    rw [length_clearBelow, length_padLocals]
    exact Nat.le_max_right _ _
  have hpad : (padLocals locals (storedWidth index kind))[slot]?.getD .unknown
      = locals[slot]?.getD .unknown := by
    rw [padLocals_getElem?]
    split <;> rfl
  rw [storeLocal_eq, putLocal_getElem? hroom, clearBelow_getElem?, hpad, padLocals_getElem?]
  by_cases hself : slot = index
  · rw [if_pos hself, if_pos hself]
  · rw [if_neg hself, if_neg hself]
    by_cases hupper : slot = index + 1 ∧ kind.isWide = true
    · rw [if_pos hupper, if_pos hupper]
    · rw [if_neg hupper, if_neg hupper]
      -- apart from the slots of the value, room is made in front of it only
      have hwidth : slot < storedWidth index kind ↔ slot < index := by
        unfold storedWidth
        by_cases hwide : kind.isWide = true
        · have hne : slot ≠ index + 1 := fun heq => hupper ⟨heq, hwide⟩
          rw [if_pos hwide]
          omega
        · rw [if_neg hwide]
          omega
      simp only [hwidth]

/-! ## §2. Instructions. -/

/-- What an instruction with a rule stores in a frame, and the slot that it stores to. -/
def ruleStores? (frame : Frame) (inst : Instruction) : StackRule → Option (Nat × ValueKind)
  | .storeLocal => some (inst.localIndex, frame.top)
  | .increment =>
    match inst.operand with
    | .increment index _ => some (index, .int)
    | _ => none
  | _ => none

/-- What an instruction stores in a frame, and the slot that it stores to. -/
def stores? (frame : Frame) (inst : Instruction) : Option (Nat × ValueKind) :=
  inst.opcode.stackRule?.bind (frame.ruleStores? inst)

/-- Locals with a value stored, if there is one. -/
def afterStore (locals : List ValueKind) : Option (Nat × ValueKind) → List ValueKind
  | some (index, kind) => storeLocal locals index kind
  | none => locals

theorem locals_invoke (frame : Frame) (method : MethodDescriptor) (receiver : Bool) :
    (frame.invoke method receiver).locals = frame.locals := by
  unfold invoke
  dsimp only
  split <;> rfl

theorem locals_degrade (frame : Frame) (inst : Instruction) : (frame.degrade inst).locals = frame.locals := by
  unfold degrade
  split <;> rfl

theorem locals_of_apply {frame next : Frame} {inst : Instruction} {rule : StackRule}
    (h : frame.apply inst rule = .ok next) :
    next.locals = afterStore frame.locals (frame.ruleStores? inst rule) := by
  cases rule with
  | fixed pops push =>
    obtain rfl := Except.ok.inj h
    cases push <;> rfl
  | increment =>
    obtain rfl := Except.ok.inj h
    cases hoperand : inst.operand <;> simp only [ruleStores?, hoperand] <;> rfl
  | invoke receiver =>
    cases hoperand : inst.operand with
    | invoke site =>
      simp only [apply, hoperand] at h
      obtain ⟨method, -, h⟩ := bind_eq_ok_iff.1 h
      obtain rfl := Except.ok.inj h
      exact locals_invoke frame method receiver
    | _ => simp [apply, hoperand] at h
  | multiArray =>
    obtain rfl := Except.ok.inj h
    cases hoperand : inst.operand <;> rfl
  | _ =>
    obtain rfl := Except.ok.inj h
    rfl

/-- The locals behind an instruction are those in front of it, with what it stores. -/
theorem locals_of_execute {strict : Bool} {frame next : Frame} {inst : Instruction}
    (h : frame.execute strict inst = .ok next) :
    next.locals = afterStore frame.locals (frame.stores? inst) := by
  unfold execute at h
  unfold stores?
  cases hrule : inst.opcode.stackRule? with
  | some rule =>
    rw [hrule] at h
    exact locals_of_apply h
  | none =>
    rw [hrule] at h
    cases strict with
    | true => cases h
    | false =>
      obtain rfl := Except.ok.inj h
      exact locals_degrade frame inst

end Frame

/-! ## §3. What stores and joins keep. -/

namespace Typing

variable {graph : Graph} {handlers : List ExceptionHandler} {strict : Bool}

/-- The entry frame of a block that a frame is delivered to is the join of its old one with it. -/
theorem get?_deliver (progress : Progress) (target : Nat) (incoming : Frame) (index : Nat) :
    (progress.deliver target incoming).entries.get? index
      = if index = target then
          some (((progress.entries.get? target).map (Frame.join · incoming)).getD incoming)
        else progress.entries.get? index := by
  unfold Progress.deliver
  cases hold : progress.entries.get? target with
  | none =>
    have hne : (none : Option Frame) ≠ some incoming := by simp
    dsimp only
    rw [if_neg hne]
    exact Table.get?_insert _ _ _ _
  | some existing =>
    dsimp only
    split
    · next hsame =>
      split
      · next htarget =>
        rw [htarget, hold]
        exact hsame
      · rfl
    · exact Table.get?_insert _ _ _ _

theorem run_cons {frame : Frame} {inst : Instruction} {rest : List Instruction} :
    run strict frame (inst :: rest) = frame.execute strict inst >>= fun next => run strict next rest :=
  List.foldlM_cons

section Keeps

variable {keeps : List ValueKind → Prop}
  (hstore : ∀ locals index kind, keeps locals → keeps (Frame.storeLocal locals index kind))
  (hjoin : ∀ as bs, keeps as → keeps bs → keeps (joinSlots as bs))

include hstore in
theorem keeps_of_execute {frame next : Frame} {inst : Instruction} (hkeeps : keeps frame.locals)
    (h : frame.execute strict inst = .ok next) : keeps next.locals := by
  rw [Frame.locals_of_execute h]
  cases hstored : frame.stores? inst with
  | none => exact hkeeps
  | some store => exact hstore frame.locals store.1 store.2 hkeeps

include hstore in
theorem keeps_of_run {frame behind : Frame} {instructions : List Instruction} (hkeeps : keeps frame.locals)
    (h : run strict frame instructions = .ok behind) : keeps behind.locals := by
  induction instructions generalizing frame with
  | nil =>
    obtain rfl := Except.ok.inj h
    exact hkeeps
  | cons inst rest ih =>
    rw [run_cons] at h
    obtain ⟨next, hnext, h⟩ := bind_eq_ok_iff.1 h
    exact ih (keeps_of_execute hstore hkeeps hnext) h

/-- The locals of all entry frames have a property. -/
def EntriesKeep (keeps : List ValueKind → Prop) (entries : Table Nat Frame) : Prop :=
  ∀ index entry, entries.get? index = some entry → keeps entry.locals

include hjoin in
theorem EntriesKeep.deliver {progress : Progress} (h : EntriesKeep keeps progress.entries) (target : Nat)
    {incoming : Frame} (hincoming : keeps incoming.locals) :
    EntriesKeep keeps (progress.deliver target incoming).entries := by
  intro index entry hentry
  rw [get?_deliver] at hentry
  split at hentry
  · cases hold : progress.entries.get? target with
    | none =>
      rw [hold] at hentry
      obtain rfl := Option.some.inj hentry
      exact hincoming
    | some existing =>
      rw [hold] at hentry
      obtain rfl := Option.some.inj hentry
      exact hjoin _ _ (h target existing hold) hincoming
  · exact h index entry hentry

include hjoin in
theorem EntriesKeep.deliverAll {before behind : Frame} (hbefore : keeps before.locals)
    (hbehind : keeps behind.locals) {progress : Progress} (h : EntriesKeep keeps progress.entries)
    (edges : List Edge) :
    EntriesKeep keeps (deliverAll graph handlers before behind progress edges).entries := by
  -- along an exception edge goes a join, along any other the frame behind the block
  have hleaving : ∀ edge target,
      keeps (leavingFrame graph handlers edge before behind target).locals := by
    intro edge target
    unfold leavingFrame
    split
    · exact hjoin _ _ hbefore hbehind
    · exact hbehind
  unfold Typing.deliverAll
  induction edges generalizing progress with
  | nil => exact h
  | cons edge edges ih =>
    rw [List.foldl_cons]
    cases edge.block? with
    | none => exact ih h
    | some target => exact ih (h.deliver hjoin target (hleaving edge target))

include hstore hjoin

theorem EntriesKeep.visit {progress next : Progress} {index : Nat}
    (h : EntriesKeep keeps progress.entries)
    (hvisit : visit graph handlers strict progress index = .ok next) : EntriesKeep keeps next.entries := by
  rcases visit_cases hvisit with ⟨rfl, -⟩ | ⟨block, before, behind, findings, -, hbefore, hrun, rfl⟩
  · exact h
  · have hkeeps : keeps before.locals := h index before hbefore
    have hrecorded : EntriesKeep keeps ({ progress with findings } : Progress).entries := h
    exact hrecorded.deliverAll hjoin hkeeps (keeps_of_run hstore hkeeps (run_of_runRecording hrun)) block.edges

end Keeps

end Typing

/-- What stores and joins keep of the locals, and the locals at the start of the method have, holds of the
    locals of every entry frame. -/
theorem OperandTyping.forall_locals_of_infer {graph : Graph} {signature : MethodSignature}
    {handlers : List ExceptionHandler} {options : TypingOptions} {typing : OperandTyping}
    {keeps : List ValueKind → Prop}
    (hstart : ∀ method, keeps (Typing.initialFrame signature method).locals)
    (hstore : ∀ locals index kind, keeps locals → keeps (Frame.storeLocal locals index kind))
    (hjoin : ∀ as bs, keeps as → keeps bs → keeps (joinSlots as bs))
    (h : infer graph signature handlers options = .ok typing) : Typing.EntriesKeep keeps typing.entries := by
  rcases Typing.infer_cases h with ⟨-, rfl⟩ | ⟨method, final, -, hsettle, rfl⟩
  · intro index entry hentry
    cases hentry
  · refine (Typing.settle_induction (motive := fun progress => Typing.EntriesKeep keeps progress.entries)
      ?_ ?_ hsettle).1
    · intro progress index queue next _ hkept hvisit
      have htaken : Typing.EntriesKeep keeps ({ progress with queue } : Typing.Progress).entries := hkept
      exact htaken.visit hstore hjoin hvisit
    · intro index entry hentry
      replace hentry : (Table.empty.insert 0 (Typing.initialFrame signature method)).get? index = some entry :=
        hentry
      rw [Table.get?_insert] at hentry
      split at hentry
      · obtain rfl := Option.some.inj hentry
        exact hstart method
      · cases hentry

/-! ## §4. Wide values. -/

/-- A join is wide only where both sides are the same wide kind. -/
theorem ValueKind.eq_of_isWide_join {a b : ValueKind} (h : (a.join b).isWide = true) :
    a = a.join b ∧ b = a.join b := by
  cases a with
  | reference x =>
    cases b with
    | reference y =>
      obtain ⟨name, hname⟩ := exists_reference_join x y
      rw [hname] at h
      cases h
    | _ => cases h
  | long =>
    cases b with
    | long => exact ⟨rfl, rfl⟩
    | _ => cases h
  | double =>
    cases b with
    | double => exact ⟨rfl, rfl⟩
    | _ => cases h
  | _ => cases b <;> cases h

/-- A slot is wide behind a join only if both sides have the same wide kind there. -/
theorem eq_of_isWide_joinSlot {a b : Option ValueKind} {kind : ValueKind} (h : joinSlot a b = some kind)
    (hwide : kind.isWide = true) : a = some kind ∧ b = some kind := by
  have hnarrow : joinSlot a b ≠ some .unknown := by
    rw [h]
    rintro ⟨⟩
    cases hwide
  cases a with
  | none =>
    cases b with
    | none => cases h
    | some b => exact absurd rfl hnarrow
  | some a =>
    cases b with
    | none => exact absurd rfl hnarrow
    | some b =>
      obtain rfl := Option.some.inj h
      obtain ⟨hleft, hright⟩ := ValueKind.eq_of_isWide_join hwide
      exact ⟨congrArg some hleft, congrArg some hright⟩

/-- Behind a wide value there is a slot for its upper half, of which nothing else is known. -/
def WidePaired (locals : List ValueKind) : Prop :=
  ∀ slot kind, locals[slot]? = some kind → kind.isWide = true → locals[slot + 1]? = some .unknown

namespace WidePaired

theorem nil : WidePaired [] := by
  intro slot kind hkind
  cases hkind

theorem cons {kind : ValueKind} {rest : List ValueKind} (hnarrow : kind.isWide = false)
    (h : WidePaired rest) : WidePaired (kind :: rest) := by
  intro slot found hfound hwide
  cases slot with
  | zero =>
    obtain rfl := Option.some.inj hfound
    rw [hnarrow] at hwide
    cases hwide
  | succ slot => exact h slot found hfound hwide

/-- The slots of a parameter come before those of the others. -/
theorem parameterSlots_append (type : TypeDescriptor) {rest : List ValueKind} (h : WidePaired rest) :
    WidePaired (Typing.parameterSlots type ++ rest) := by
  unfold Typing.parameterSlots
  dsimp only
  split
  · intro slot found hfound hwide
    cases slot with
    | zero => rfl
    | succ slot => exact cons rfl h slot found hfound hwide
  · next hnarrow => exact cons (Bool.eq_false_iff.2 hnarrow) h

theorem initialFrame (signature : MethodSignature) (method : MethodDescriptor) :
    WidePaired (Typing.initialFrame signature method).locals := by
  have hparameters : ∀ types : List TypeDescriptor, WidePaired (types.flatMap Typing.parameterSlots) := by
    intro types
    induction types with
    | nil => exact nil
    | cons type types ih =>
      rw [List.flatMap_cons]
      exact parameterSlots_append type ih
  show WidePaired ((if signature.isStatic then [] else [.reference signature.owner]) ++ _)
  split
  · exact hparameters method.parameters
  · exact cons rfl (hparameters method.parameters)

theorem joinSlots {as bs : List ValueKind} (ha : WidePaired as) (hb : WidePaired bs) :
    WidePaired (joinSlots as bs) := by
  intro slot kind hkind hwide
  rw [joinSlots_getElem?] at hkind ⊢
  obtain ⟨hleft, hright⟩ := eq_of_isWide_joinSlot hkind hwide
  rw [ha slot kind hleft hwide, hb slot kind hright hwide]
  rfl

/-- A store keeps wide values together: one that it cuts in two is gone, and its own has both slots. -/
theorem storeLocal {locals : List ValueKind} (h : WidePaired locals) (index : Nat) (kind : ValueKind) :
    WidePaired (Frame.storeLocal locals index kind) := by
  intro slot found hfound hwide
  rw [Frame.storeLocal_getElem?] at hfound ⊢
  by_cases hself : slot = index
  · -- the stored value
    rw [if_pos hself] at hfound
    obtain rfl := Option.some.inj hfound
    rw [if_neg (by omega), if_pos ⟨by omega, hwide⟩]
  rw [if_neg hself] at hfound
  split at hfound
  · obtain rfl := Option.some.inj hfound
    cases hwide
  split at hfound
  · obtain rfl := Option.some.inj hfound
    cases hwide
  · next hupper hlower =>
    -- a wide value that was there before and that the store leaves alone
    have hold : locals[slot]? = some found := by
      split at hfound
      · cases hslot : locals[slot]? with
        | none =>
          rw [hslot] at hfound
          obtain rfl := Option.some.inj hfound
          cases hwide
        | some old =>
          rw [hslot] at hfound
          exact hfound
      · exact hfound
    have hnext := h slot found hold hwide
    have hapart : slot + 1 ≠ index := by
      intro heq
      refine hlower ⟨heq, ?_⟩
      rw [hold]
      exact hwide
    rw [if_neg hapart, if_neg (by omega), hnext, if_neg (by simp [ValueKind.isWide]), Option.getD_some,
      ite_self]

end WidePaired

namespace OperandTyping

/-- **Wide locals own two slots.** In every entry frame that an analysis gives, the slot behind a local of
    kind long or double is there and unknown, whatever was stored over either half, joined and visited
    again. -/
theorem widePaired_of_infer {graph : Graph} {signature : MethodSignature}
    {handlers : List ExceptionHandler} {options : TypingOptions} {typing : OperandTyping}
    (h : infer graph signature handlers options = .ok typing) {index : Nat} {entry : Frame}
    (hentry : typing.entries.get? index = some entry) {slot : Nat}
    (hwide : entry.locals[slot]? = some .long ∨ entry.locals[slot]? = some .double) :
    entry.locals[slot + 1]? = some .unknown := by
  have hpaired : WidePaired entry.locals :=
    forall_locals_of_infer (WidePaired.initialFrame signature)
      (fun _ index kind hlocals => hlocals.storeLocal index kind) (fun _ _ ha hb => ha.joinSlots hb)
      h index entry hentry
  rcases hwide with hlong | hdouble
  · exact hpaired slot .long hlong rfl
  · exact hpaired slot .double hdouble rfl

/-- A long is stored over the upper half of another and over the lower half of a double. Behind it a loop, which
    a handler protects, counts in the slot that was the upper half of the double. -/
def halvesLoop : Graph := ⟨[
  ⟨0, ⟨0, 0x1e, .none, none⟩, [⟨1, 0x40, .none, none⟩], [⟨.block 1, .fallThrough⟩]⟩,
  ⟨1, ⟨2, 0x84, .increment 3 1, none⟩, [⟨5, 0xa7, .branch 2, none⟩],
    [⟨.block 1, .jump⟩, ⟨.block 2, .exception⟩]⟩,
  ⟨2, ⟨8, 0xbf, .none, none⟩, [], [⟨.exit, .leave⟩]⟩]⟩

/-- The new long is whole at the entry of the handler, the other two wide values are gone. -/
theorem widePaired_of_infer_halvesLoop :
    ∃ typing entry, infer halvesLoop ⟨"A", "f", "(JD)V", true⟩ [⟨2, 8, 8, none⟩] ⟨true, 9⟩ = .ok typing
      ∧ typing.entries.get? 0 = some ⟨[], [.long, .unknown, .double, .unknown]⟩
      ∧ typing.entries.get? 2 = some entry
      ∧ entry.locals = [.unknown, .long, .unknown, .unknown]
      ∧ entry.locals[2]? = some .unknown := by
  let found : OperandTyping := ⟨⟨[
    (0, ⟨[], [.long, .unknown, .double, .unknown]⟩),
    (1, ⟨[], [.unknown, .long, .unknown, .unknown]⟩),
    (2, ⟨[.reference "java/lang/Throwable"], [.unknown, .long, .unknown, .unknown]⟩)]⟩, ⟨.empty, []⟩⟩
  have hinfer : infer halvesLoop ⟨"A", "f", "(JD)V", true⟩ [⟨2, 8, 8, none⟩] ⟨true, 9⟩ = .ok found :=
    eq_ok_of_toOption (by decide +kernel)
  have hentry : found.entries.get? 2
      = some ⟨[.reference "java/lang/Throwable"], [.unknown, .long, .unknown, .unknown]⟩ := rfl
  exact ⟨found, _, hinfer, rfl, hentry, rfl, widePaired_of_infer hinfer hentry (.inl rfl)⟩

end OperandTyping

end PatchPresence
