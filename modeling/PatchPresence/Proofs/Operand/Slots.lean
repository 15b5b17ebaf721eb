/-
  PatchPresence.Proofs.Operand.Slots — shuffles of values against shuffles of slots.

  A frame lists whole values. The instruction set counts in slots, of which a wide value takes two, and says
  for each shuffle which slots it drops, copies or exchanges, whatever is in them. It leaves open only what
  would part a wide value. The rules for values tell the forms of an instruction apart by the widths of up to
  three values; as long as no wide value is parted, they do to the values what the slot rule does to the slots.

  Main results:
    * `exists_append_of_cut` — a cut that parts no wide value falls between two values.
    * `Shuffle.slotsOf_apply` — a shuffle of values is the shuffle of their slots.
    * `Frame.slots_execute` — so is the execution of each of the eight instructions.
-/
import PatchPresence.Operand.Frame

namespace PatchPresence

/-! ## §1. Slots. -/

/-- What is in one slot of the stack. -/
inductive Slot
  /-- A value that takes one slot. -/
  | single (kind : ValueKind)
  /-- The half of a wide value that is nearer to the top. -/
  | upper (kind : ValueKind)
  /-- The other half. -/
  | lower (kind : ValueKind)
deriving DecidableEq, Repr

/-- Slots of a value, the top first: two for a long or a double, one for all others. -/
def ValueKind.slots : ValueKind → List Slot
  | .long => [.upper .long, .lower .long]
  | .double => [.upper .double, .lower .double]
  | kind => [.single kind]

/-- Slots of a stack; values and slots are listed from the top. -/
def slotsOf (stack : List ValueKind) : List Slot := stack.flatMap ValueKind.slots

/-- Slots of the stack of a frame, the top first. -/
def Frame.slots (frame : Frame) : List Slot := slotsOf frame.stack.reverse

theorem ValueKind.slots_of_isWide {kind : ValueKind} (h : kind.isWide = true) :
    kind.slots = [.upper kind, .lower kind] := by
  cases kind <;> first | rfl | cases h

theorem ValueKind.slots_of_not_isWide {kind : ValueKind} (h : kind.isWide = false) :
    kind.slots = [.single kind] := by
  cases kind <;> first | rfl | cases h

@[simp] theorem slotsOf_nil : slotsOf [] = [] := rfl

@[simp] theorem slotsOf_cons (kind : ValueKind) (rest : List ValueKind) :
    slotsOf (kind :: rest) = kind.slots ++ slotsOf rest := List.flatMap_cons

@[simp] theorem slotsOf_append (front back : List ValueKind) :
    slotsOf (front ++ back) = slotsOf front ++ slotsOf back := List.flatMap_append

/-! ## §2. What the instruction set says. -/

/-- What an instruction does to the slots on top of the stack. -/
inductive SlotRule
  /-- Drops the first `count` slots. -/
  | discard (count : Nat)
  /-- Puts a copy of the first `count` slots below them and below the next `passed` slots. -/
  | duplicate (count passed : Nat)
  /-- Exchanges the first two slots. -/
  | exchange
deriving DecidableEq, Repr

namespace SlotRule

/-- Slots behind an instruction; both lists start at the top. -/
def apply {α : Type} : SlotRule → List α → List α
  | .discard count, slots => slots.drop count
  | .duplicate count passed, slots =>
    slots.take (count + passed) ++ slots.take count ++ slots.drop (count + passed)
  | .exchange, slots => (slots.drop 1).take 1 ++ slots.take 1 ++ slots.drop 2

/-- Depths at which the groups of slots that an instruction moves as one come to an end. -/
def cuts : SlotRule → List Nat
  | .discard count => [count]
  | .duplicate count passed => [count, count + passed]
  | .exchange => [1, 2]

example (s₁ s₂ s₃ s₄ s₅ : Slot) :
    (duplicate 2 2).apply [s₁, s₂, s₃, s₄, s₅] = [s₁, s₂, s₃, s₄, s₁, s₂, s₅] := rfl

end SlotRule

/-- Slot rules of the instructions that only shuffle the stack. -/
def Opcode.slotRule? (opcode : Opcode) : Option SlotRule :=
  match opcode.toNat with
  | 0x58 => some (.discard 2)
  | 0x59 => some (.duplicate 1 0)
  | 0x5a => some (.duplicate 1 1)
  | 0x5b => some (.duplicate 1 2)
  | 0x5c => some (.duplicate 2 0)
  | 0x5d => some (.duplicate 2 1)
  | 0x5e => some (.duplicate 2 2)
  | 0x5f => some .exchange
  | _ => none

/-- Whether a cut below the first `depth` slots parts a wide value. -/
def partsAt (slots : List Slot) (depth : Nat) : Bool :=
  match slots[depth]? with
  | some (.lower _) => true
  | _ => false

/-- The stack is deep enough for an instruction, and none of its groups parts a wide value. -/
def SlotRule.fits (rule : SlotRule) (slots : List Slot) : Bool :=
  rule.cuts.all fun depth => depth ≤ slots.length && !partsAt slots depth

/-! ## §3. Cuts between values. -/

theorem partsAt_append (front back : List Slot) (depth : Nat) :
    partsAt (front ++ back) (front.length + depth) = partsAt back depth := by
  unfold partsAt
  rw [List.getElem?_append_right (Nat.le_add_right _ _), Nat.add_sub_cancel_left]

/-- A cut that parts no wide value falls between two values. -/
theorem exists_append_of_cut {stack : List ValueKind} {depth : Nat}
    (hdeep : depth ≤ (slotsOf stack).length) (hparts : partsAt (slotsOf stack) depth = false) :
    ∃ front rest, stack = front ++ rest ∧ (slotsOf front).length = depth := by
  induction stack generalizing depth with
  | nil => exact ⟨[], [], rfl, (Nat.le_zero.1 hdeep).symm⟩
  | cons kind rest ih =>
    rw [slotsOf_cons] at hdeep hparts
    cases depth with
    | zero => exact ⟨[], kind :: rest, rfl, rfl⟩
    | succ depth =>
      -- the cut passes the first value, or goes through its two halves
      have hpasses : ∃ below, depth + 1 = kind.slots.length + below := by
        cases hwide : kind.isWide with
        | false => exact ⟨depth, by rw [ValueKind.slots_of_not_isWide hwide, List.length_singleton]; omega⟩
        | true =>
          rw [ValueKind.slots_of_isWide hwide] at hparts ⊢
          cases depth with
          | zero => cases hparts
          | succ below => exact ⟨below, by simp only [List.length_cons, List.length_nil]; omega⟩
      obtain ⟨below, hbelow⟩ := hpasses
      rw [hbelow, partsAt_append] at hparts
      rw [hbelow, List.length_append] at hdeep
      obtain ⟨front, others, rfl, hlength⟩ := ih (Nat.le_of_add_le_add_left hdeep) hparts
      refine ⟨kind :: front, others, rfl, ?_⟩
      rw [slotsOf_cons, List.length_append, hlength, hbelow]

/-- Values that fill two groups of slots. -/
theorem exists_groups {stack : List ValueKind} {count passed : Nat}
    (hcount : count ≤ (slotsOf stack).length) (hcut : partsAt (slotsOf stack) count = false)
    (hall : count + passed ≤ (slotsOf stack).length)
    (hend : partsAt (slotsOf stack) (count + passed) = false) :
    ∃ first second rest, stack = first ++ (second ++ rest)
      ∧ (slotsOf first).length = count ∧ (slotsOf second).length = passed := by
  obtain ⟨first, below, rfl, rfl⟩ := exists_append_of_cut hcount hcut
  rw [slotsOf_append] at hall hend
  rw [partsAt_append] at hend
  rw [List.length_append] at hall
  obtain ⟨second, rest, rfl, hsecond⟩ := exists_append_of_cut (Nat.le_of_add_le_add_left hall) hend
  exact ⟨first, second, rest, rfl, rfl, hsecond⟩

/-! ## §4. Groups of one and of two slots. -/

theorem eq_nil_of_slots {group : List ValueKind} (h : (slotsOf group).length = 0) : group = [] := by
  rcases group with _ | ⟨kind, rest⟩
  · rfl
  · have hslots : kind.slots = [] :=
      List.append_eq_nil_iff.1 (List.eq_nil_of_length_eq_zero h) |>.1
    cases kind <;> cases hslots

theorem eq_singleton_of_slots {group : List ValueKind} (h : (slotsOf group).length = 1) :
    ∃ kind, group = [kind] ∧ kind.slots = [.single kind] := by
  rcases group with _ | ⟨kind, rest⟩
  · cases h
  · rw [slotsOf_cons, List.length_append] at h
    cases hwide : kind.isWide with
    | true =>
      rw [ValueKind.slots_of_isWide hwide, List.length_cons, List.length_singleton] at h
      omega
    | false =>
      rw [ValueKind.slots_of_not_isWide hwide, List.length_singleton] at h
      obtain rfl := eq_nil_of_slots (Nat.add_left_cancel h)
      exact ⟨kind, rfl, ValueKind.slots_of_not_isWide hwide⟩

/-- Two slots are taken off the stack as the value or the values that fill them. -/
theorem popPair_of_slots {group : List ValueKind} (h : (slotsOf group).length = 2) (rest : List ValueKind) :
    popPair (group ++ rest) = (group, rest) := by
  rcases group with _ | ⟨first, below⟩
  · cases h
  · rw [slotsOf_cons, List.length_append] at h
    cases hwide : first.isWide with
    | true =>
      rw [ValueKind.slots_of_isWide hwide, List.length_cons, List.length_singleton] at h
      obtain rfl := eq_nil_of_slots (Nat.add_left_cancel h)
      simp [popPair, popTop, hwide]
    | false =>
      rw [ValueKind.slots_of_not_isWide hwide, List.length_singleton] at h
      obtain ⟨second, rfl, -⟩ := eq_singleton_of_slots (Nat.add_left_cancel h)
      simp [popPair, popTop, hwide]

/-! ## §5. Shuffles. -/

theorem SlotRule.apply_discard {α : Type} (first rest : List α) :
    (discard first.length).apply (first ++ rest) = rest := List.drop_left

theorem SlotRule.apply_duplicate {α : Type} (first second rest : List α) :
    (duplicate first.length second.length).apply (first ++ (second ++ rest))
      = first ++ (second ++ (first ++ rest)) := by
  show (first ++ (second ++ rest)).take (first.length + second.length)
    ++ (first ++ (second ++ rest)).take first.length
    ++ (first ++ (second ++ rest)).drop (first.length + second.length) = _
  rw [List.take_left, ← List.append_assoc, ← List.length_append, List.take_left, List.drop_left]
  simp only [List.append_assoc]

namespace Shuffle

/-- The slot rule of a shuffle. -/
def slotRule : Shuffle → SlotRule
  | .pop2 => .discard 2
  | .dup => .duplicate 1 0
  | .dupX1 => .duplicate 1 1
  | .dupX2 => .duplicate 1 2
  | .dup2 => .duplicate 2 0
  | .dup2X1 => .duplicate 2 1
  | .dup2X2 => .duplicate 2 2
  | .swap => .exchange

/-- What a shuffle does to the values that fill its groups of slots. -/
theorem apply_duplicate {shuffle : Shuffle} {count passed : Nat}
    (hrule : shuffle.slotRule = .duplicate count passed) {first second : List ValueKind}
    (hfirst : (slotsOf first).length = count) (hsecond : (slotsOf second).length = passed)
    (rest : List ValueKind) :
    shuffle.apply (first ++ (second ++ rest)) = first ++ (second ++ (first ++ rest)) := by
  -- a group of one slot is a narrow value; a group of two is what `popPair` takes
  cases shuffle with
  | pop2 | swap => cases hrule
  | dup =>
    obtain ⟨rfl, rfl⟩ := SlotRule.duplicate.inj hrule
    obtain ⟨kind, rfl, -⟩ := eq_singleton_of_slots hfirst
    obtain rfl := eq_nil_of_slots hsecond
    rfl
  | dupX1 =>
    obtain ⟨rfl, rfl⟩ := SlotRule.duplicate.inj hrule
    obtain ⟨kind, rfl, -⟩ := eq_singleton_of_slots hfirst
    obtain ⟨under, rfl, -⟩ := eq_singleton_of_slots hsecond
    rfl
  | dupX2 =>
    obtain ⟨rfl, rfl⟩ := SlotRule.duplicate.inj hrule
    obtain ⟨kind, rfl, -⟩ := eq_singleton_of_slots hfirst
    simp [Shuffle.apply, popTop, popPair_of_slots hsecond]
  | dup2 =>
    obtain ⟨rfl, rfl⟩ := SlotRule.duplicate.inj hrule
    obtain rfl := eq_nil_of_slots hsecond
    simp [Shuffle.apply, popPair_of_slots hfirst]
  | dup2X1 =>
    obtain ⟨rfl, rfl⟩ := SlotRule.duplicate.inj hrule
    obtain ⟨under, rfl, -⟩ := eq_singleton_of_slots hsecond
    simp [Shuffle.apply, popTop, popPair_of_slots hfirst]
  | dup2X2 =>
    obtain ⟨rfl, rfl⟩ := SlotRule.duplicate.inj hrule
    simp [Shuffle.apply, popPair_of_slots hfirst, popPair_of_slots hsecond]

/-- A shuffle of values is the shuffle of their slots. -/
theorem slotsOf_apply (shuffle : Shuffle) {stack : List ValueKind}
    (h : shuffle.slotRule.fits (slotsOf stack) = true) :
    slotsOf (shuffle.apply stack) = shuffle.slotRule.apply (slotsOf stack) := by
  have hcuts : ∀ depth ∈ shuffle.slotRule.cuts,
      depth ≤ (slotsOf stack).length ∧ partsAt (slotsOf stack) depth = false := by
    simpa [SlotRule.fits] using h
  -- the cuts fall between values, so each group of slots is a group of values
  cases hrule : shuffle.slotRule with
  | discard count =>
    rw [hrule] at hcuts
    obtain ⟨hdeep, hparts⟩ := hcuts count List.mem_cons_self
    obtain ⟨first, rest, rfl, rfl⟩ := exists_append_of_cut hdeep hparts
    obtain rfl : shuffle = .pop2 := by cases shuffle <;> first | rfl | cases hrule
    have htwo : (slotsOf first).length = 2 := (SlotRule.discard.inj hrule).symm
    rw [slotsOf_append, SlotRule.apply_discard]
    simp [Shuffle.apply, popPair_of_slots htwo]
  | duplicate count passed =>
    rw [hrule] at hcuts
    obtain ⟨hcount, hcut⟩ := hcuts count List.mem_cons_self
    obtain ⟨hall, hend⟩ := hcuts (count + passed) (List.mem_cons_of_mem _ List.mem_cons_self)
    obtain ⟨first, second, rest, rfl, rfl, rfl⟩ := exists_groups hcount hcut hall hend
    rw [apply_duplicate hrule rfl rfl]
    simp only [slotsOf_append]
    rw [SlotRule.apply_duplicate]
  | exchange =>
    rw [hrule] at hcuts
    obtain ⟨hcount, hcut⟩ := hcuts 1 List.mem_cons_self
    obtain ⟨hall, hend⟩ := hcuts (1 + 1) (List.mem_cons_of_mem _ List.mem_cons_self)
    obtain ⟨first, second, rest, rfl, hfirst, hsecond⟩ := exists_groups hcount hcut hall hend
    obtain ⟨kind, rfl, hkind⟩ := eq_singleton_of_slots hfirst
    obtain ⟨under, rfl, hunder⟩ := eq_singleton_of_slots hsecond
    obtain rfl : shuffle = .swap := by cases shuffle <;> first | rfl | cases hrule
    show slotsOf (under :: kind :: rest) = SlotRule.exchange.apply (slotsOf (kind :: under :: rest))
    simp only [slotsOf_cons, hkind, hunder]
    rfl

end Shuffle

/-! ## §6. Instructions. -/

/-- The instructions that the slot rules are about have the shuffles of these rules. -/
theorem Opcode.exists_shuffle {opcode : Opcode} {rule : SlotRule} (h : opcode.slotRule? = some rule) :
    ∃ shuffle : Shuffle, opcode.stackRule? = some (.shuffle shuffle) ∧ shuffle.slotRule = rule := by
  unfold slotRule? at h
  split at h
  case h_9 => cases h
  all_goals
    next hcode =>
      obtain rfl := Option.some.inj h
      unfold stackRule?
      rw [hcode]
      exact ⟨_, rfl, rfl⟩

/-- **Shuffles follow the slots.** Wherever the stack is deep enough and no group of slots that the instruction
    moves parts a wide value, executing it leaves exactly the slots that its slot rule gives, and the locals as
    they were. -/
theorem Frame.slots_execute (strict : Bool) (frame : Frame) {inst : Instruction} {rule : SlotRule}
    (hrule : inst.opcode.slotRule? = some rule) (hfits : rule.fits frame.slots = true) :
    ∃ next, frame.execute strict inst = .ok next ∧ next.slots = rule.apply frame.slots
      ∧ next.locals = frame.locals := by
  obtain ⟨shuffle, hstack, rfl⟩ := Opcode.exists_shuffle hrule
  refine ⟨{ frame with stack := (shuffle.apply frame.stack.reverse).reverse }, ?_, ?_, rfl⟩
  · unfold execute
    rw [hstack]
    rfl
  · show slotsOf (shuffle.apply frame.stack.reverse).reverse.reverse = _
    rw [List.reverse_reverse]
    exact shuffle.slotsOf_apply hfits

/-- Two narrow values on top of a double. -/
def overDouble : Frame := ⟨[.null, .double, .int, .float], [.long, .unknown]⟩

/-- A copy of the two narrow values goes below the double, whose two slots are passed as one. -/
theorem Frame.slots_execute_overDouble :
    (SlotRule.duplicate 2 2).fits overDouble.slots = true
      ∧ ∃ next, overDouble.execute true ⟨7, 0x5e, .none, none⟩ = .ok next
        ∧ next.slots = [.single .float, .single .int, .upper .double, .lower .double, .single .float,
            .single .int, .single .null] := by
  have hfits : (SlotRule.duplicate 2 2).fits overDouble.slots = true := by decide
  obtain ⟨next, hnext, hslots, -⟩ := @slots_execute true overDouble ⟨7, 0x5e, .none, none⟩ _ rfl hfits
  exact ⟨hfits, next, hnext, hslots⟩

end PatchPresence
