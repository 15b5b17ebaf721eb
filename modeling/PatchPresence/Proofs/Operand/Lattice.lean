/-
  PatchPresence.Proofs.Operand.Lattice — frames as a semilattice, and the order that it comes with.

  What is known of a value can only be lost on the way up: null may become a reference, a reference any object,
  and every kind unknown. A frame is below another one when each of its slots is, and when the slots that only the
  upper one has are unknown; a frame is never below one with fewer slots.

  Main results:
    * `ValueKind.join_eq_left_iff`, `Frame.join_eq_left_iff` — the order of a join, said without the join.
    * `Frame.join_semilattice` — the laws of the join, for kinds and for frames, and least upper bounds.
-/
import PatchPresence.Proofs.Operand.Join

namespace PatchPresence

/-! ## §1. Laws. -/

/-- A join does not care how often, in which order and in which groups its operands come. -/
structure IsSemilattice {α : Type} (join : α → α → α) : Prop where
  idempotent : ∀ a, join a a = a
  commutative : ∀ a b, join a b = join b a
  associative : ∀ a b c, join (join a b) c = join a (join b c)

/-- A partial order in which every two elements have a least element above both, their join. -/
structure HasLeastUpperBounds {α : Type} (below : α → α → Prop) (join : α → α → α) : Prop where
  reflexive : ∀ a, below a a
  antisymmetric : ∀ a b, below a b → below b a → a = b
  transitive : ∀ a b c, below a b → below b c → below a c
  above_left : ∀ a b, below a (join a b)
  above_right : ∀ a b, below b (join a b)
  least : ∀ a b upper, below a upper → below b upper → below (join a b) upper

/-! ## §2. Kinds. -/

namespace ValueKind

theorem isSemilattice_join : IsSemilattice ValueKind.join := ⟨join_self, join_comm, join_assoc⟩

/-- The second kind knows no more of a value than the first one. -/
inductive Weakens : ValueKind → ValueKind → Prop
  | self (kind : ValueKind) : Weakens kind kind
  | unknown (kind : ValueKind) : Weakens kind .unknown
  | null (name : String) : Weakens .null (.reference name)
  | object (name : String) : Weakens (.reference name) object

theorem join_eq_of_weakens {a b : ValueKind} (h : a.Weakens b) : b.join a = b := by
  cases h with
  | self => exact join_self a
  | unknown => cases a <;> rfl
  | null name => rfl
  | object name => exact object_join_reference name

theorem weakens_of_join_eq {a b : ValueKind} (h : b.join a = b) : a.Weakens b := by
  by_cases heq : a = b
  · exact heq ▸ .self a
  · cases b with
    | unknown => exact .unknown a
    | reference y =>
      cases a with
      | reference x =>
        -- different names join to any object, so that is what the upper one is
        have hne : y ≠ x := fun hname => heq (hname ▸ rfl)
        rw [reference_join_reference, if_neg hne] at h
        exact h ▸ .object x
      | null => exact .null y
      | _ => cases h
    | _ => cases a <;> simp [join] at h heq

theorem join_eq_left_iff (a b : ValueKind) : b.join a = b ↔ a.Weakens b :=
  ⟨weakens_of_join_eq, join_eq_of_weakens⟩

end ValueKind

/-! ## §3. Slots. -/

/-- A slot of one frame against the same slot of a frame above it, where either may lack the slot. -/
def SlotWeakens : Option ValueKind → Option ValueKind → Prop
  | some a, some b => a.Weakens b
  | none, some b => b = .unknown
  | some _, none => False
  | none, none => True

/-- Slot by slot the second list knows no more than the first one. -/
def SlotsWeaken (as bs : List ValueKind) : Prop := ∀ i : Nat, SlotWeakens as[i]? bs[i]?

theorem joinSlot_eq_left_iff (a b : Option ValueKind) : joinSlot b a = b ↔ SlotWeakens a b := by
  cases b with
  | none => cases a <;> simp [joinSlot, SlotWeakens]
  | some b =>
    cases a with
    | none => simp [joinSlot, SlotWeakens, eq_comm]
    | some a => simp [joinSlot, SlotWeakens, ValueKind.join_eq_left_iff]

theorem joinSlots_eq_left_iff (as bs : List ValueKind) : joinSlots bs as = bs ↔ SlotsWeaken as bs := by
  unfold SlotsWeaken
  rw [List.ext_getElem?_iff]
  refine forall_congr' fun i => ?_
  rw [joinSlots_getElem?, joinSlot_eq_left_iff]

/-! ## §4. Frames. -/

namespace Frame

theorem isSemilattice_join : IsSemilattice Frame.join := ⟨join_self, join_comm, join_assoc⟩

theorem join_eq_left_iff (f g : Frame) :
    g.join f = g ↔ SlotsWeaken f.stack g.stack ∧ SlotsWeaken f.locals g.locals := by
  rw [← joinSlots_eq_left_iff, ← joinSlots_eq_left_iff]
  cases g with
  | mk stack locals => exact Iff.of_eq (Frame.mk.injEq ..)

theorem Below.antisymm {f g : Frame} (hfg : f.Below g) (hgf : g.Below f) : f = g := by
  unfold Below at hfg hgf
  calc f = f.join g := hgf.symm
    _ = g.join f := join_comm f g
    _ = g := hfg

theorem join_below {f g upper : Frame} (hf : f.Below upper) (hg : g.Below upper) : (f.join g).Below upper := by
  unfold Below at *
  calc upper.join (f.join g) = (upper.join f).join g := (join_assoc upper f g).symm
    _ = upper.join g := by rw [hf]
    _ = upper := hg

theorem hasLeastUpperBounds_below : HasLeastUpperBounds Frame.Below Frame.join where
  reflexive := Below.refl
  antisymmetric _ _ := Below.antisymm
  transitive _ _ _ := Below.trans
  above_left := below_join_left
  above_right := below_join_right
  least _ _ _ := join_below

/-- Joins of kinds, and joins of frames whatever their depths, are idempotent, commutative and associative. So
    frames are ordered by `g.join f = g`, with the join as least upper bound. In this order of kinds and of frames
    what is known is only lost on the way up. -/
theorem join_semilattice :
    IsSemilattice ValueKind.join ∧ IsSemilattice Frame.join
      ∧ HasLeastUpperBounds (fun f g : Frame => g.join f = g) Frame.join
      ∧ (∀ a b : ValueKind, b.join a = b ↔ a.Weakens b)
      ∧ ∀ f g : Frame, g.join f = g ↔ SlotsWeaken f.stack g.stack ∧ SlotsWeaken f.locals g.locals :=
  ⟨ValueKind.isSemilattice_join, isSemilattice_join, hasLeastUpperBounds_below, ValueKind.join_eq_left_iff,
    join_eq_left_iff⟩

end Frame

end PatchPresence
