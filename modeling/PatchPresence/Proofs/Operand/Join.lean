/-
  PatchPresence.Proofs.Operand.Join — joins of kinds, slots and frames.

  Frames of different depth join too: a slot that only one of them has becomes unknown. The join is still
  associative, commutative and idempotent, so that `Frame.Below` is a preorder with the join as upper bound.

  Main results:
    * `Frame.below_join_left`, `Frame.below_join_right` — a join is above both of its sides.
    * `Frame.Below.trans` — what is below a frame is below everything above it.
-/
import PatchPresence.Operand.Frame

namespace PatchPresence

/-! ## §1. Kinds. -/

namespace ValueKind

theorem reference_join_reference (a b : String) :
    (ValueKind.reference a).join (.reference b) = if a = b then .reference a else object := rfl

theorem join_self (a : ValueKind) : a.join a = a := by
  cases a with
  | reference name => rw [reference_join_reference, if_pos rfl]
  | _ => rfl

theorem join_comm (a b : ValueKind) : a.join b = b.join a := by
  cases a with
  | reference name =>
    cases b with
    | reference other =>
      rw [reference_join_reference, reference_join_reference]
      by_cases h : name = other
      · rw [if_pos h, if_pos h.symm, h]
      · rw [if_neg h, if_neg (Ne.symm h)]
    | _ => rfl
  | _ => cases b <;> rfl

/-- Any object stands above every reference. -/
theorem reference_join_object (name : String) : (ValueKind.reference name).join object = object := by
  unfold object
  rw [reference_join_reference]
  split
  · next h => rw [h]
  · rfl

theorem object_join_reference (name : String) : object.join (.reference name) = object := by
  rw [join_comm, reference_join_object]

/-- Three references differ or agree in pairs. -/
theorem join_assoc_reference (a b c : String) :
    ((ValueKind.reference a).join (.reference b)).join (.reference c)
      = (ValueKind.reference a).join ((ValueKind.reference b).join (.reference c)) := by
  rw [reference_join_reference a b, reference_join_reference b c]
  by_cases hab : a = b
  · subst hab
    rw [if_pos rfl, reference_join_reference]
    by_cases hac : a = c
    · rw [if_pos hac, join_self]
    · rw [if_neg hac, reference_join_object]
  · rw [if_neg hab, object_join_reference]
    by_cases hbc : b = c
    · rw [if_pos hbc, reference_join_reference, if_neg hab]
    · rw [if_neg hbc, reference_join_object]

/-- Two references join to a reference. -/
theorem exists_reference_join (a b : String) :
    ∃ name, (ValueKind.reference a).join (.reference b) = .reference name := by
  rw [reference_join_reference]
  split
  · exact ⟨a, rfl⟩
  · exact ⟨_, rfl⟩

theorem join_assoc (a b c : ValueKind) : (a.join b).join c = a.join (b.join c) := by
  -- only neighbouring references ask for their names
  cases a with
  | reference x =>
    cases b with
    | reference y =>
      obtain ⟨name, hname⟩ := exists_reference_join x y
      cases c with
      | reference z => exact join_assoc_reference x y z
      | null =>
        show ((reference x).join (reference y)).join null = (reference x).join (reference y)
        rw [hname]
        rfl
      | _ =>
        rw [hname]
        rfl
    | _ => cases c <;> rfl
  | null =>
    cases b with
    | reference y =>
      cases c with
      | reference z =>
        obtain ⟨name, hname⟩ := exists_reference_join y z
        show (reference y).join (reference z) = null.join ((reference y).join (reference z))
        rw [hname]
        rfl
      | _ => rfl
    | _ => cases c <;> rfl
  | _ =>
    cases b with
    | reference y =>
      cases c with
      | reference z =>
        obtain ⟨name, hname⟩ := exists_reference_join y z
        rw [hname]
        rfl
      | _ => rfl
    | _ => cases c <;> rfl

end ValueKind

/-! ## §2. Slots. -/

/-- Join of a slot that either side may lack. -/
def joinSlot : Option ValueKind → Option ValueKind → Option ValueKind
  | some a, some b => some (a.join b)
  | none, none => none
  | _, _ => some .unknown

theorem joinSlots_getElem? (as bs : List ValueKind) (i : Nat) :
    (joinSlots as bs)[i]? = joinSlot as[i]? bs[i]? := by
  fun_induction joinSlots as bs generalizing i with
  | case1 a as b bs ih =>
    cases i with
    | zero => rfl
    | succ i => simpa using ih i
  | case2 bs =>
    rw [List.getElem?_map, List.getElem?_nil]
    cases bs[i]? <;> rfl
  | case3 as hne =>
    rw [List.getElem?_map, List.getElem?_nil]
    cases as[i]? <;> rfl

theorem joinSlot_self (a : Option ValueKind) : joinSlot a a = a := by
  cases a with
  | none => rfl
  | some a => exact congrArg some a.join_self

theorem joinSlot_comm (a b : Option ValueKind) : joinSlot a b = joinSlot b a := by
  cases a with
  | none => cases b <;> rfl
  | some a =>
    cases b with
    | none => rfl
    | some b => exact congrArg some (a.join_comm b)

theorem joinSlot_assoc (a b c : Option ValueKind) :
    joinSlot (joinSlot a b) c = joinSlot a (joinSlot b c) := by
  -- a slot that one side lacks is unknown, and stays so whatever joins it
  have hleft : ∀ kind : ValueKind, kind.join .unknown = .unknown := fun kind => by cases kind <;> rfl
  have hright : ∀ kind : ValueKind, ValueKind.unknown.join kind = .unknown := fun kind => by
    cases kind <;> rfl
  cases a with
  | none => cases b <;> cases c <;> simp [joinSlot, hright]
  | some a =>
    cases b with
    | none => cases c <;> simp [joinSlot, hleft, hright]
    | some b =>
      cases c with
      | none => simp [joinSlot, hleft]
      | some c => exact congrArg some (a.join_assoc b c)

theorem joinSlots_self (as : List ValueKind) : joinSlots as as = as := by
  refine List.ext_getElem? fun i => ?_
  rw [joinSlots_getElem?, joinSlot_self]

theorem joinSlots_comm (as bs : List ValueKind) : joinSlots as bs = joinSlots bs as := by
  refine List.ext_getElem? fun i => ?_
  rw [joinSlots_getElem?, joinSlots_getElem?, joinSlot_comm]

theorem joinSlots_assoc (as bs cs : List ValueKind) :
    joinSlots (joinSlots as bs) cs = joinSlots as (joinSlots bs cs) := by
  refine List.ext_getElem? fun i => ?_
  rw [joinSlots_getElem?, joinSlots_getElem?, joinSlots_getElem?, joinSlots_getElem?, joinSlot_assoc]

/-! ## §3. Frames. -/

namespace Frame

theorem join_self (f : Frame) : f.join f = f := by
  unfold join
  rw [joinSlots_self, joinSlots_self]

theorem join_comm (f g : Frame) : f.join g = g.join f := by
  unfold join
  rw [joinSlots_comm f.stack, joinSlots_comm f.locals]

theorem join_assoc (f g h : Frame) : (f.join g).join h = f.join (g.join h) := by
  unfold join
  rw [joinSlots_assoc, joinSlots_assoc]

theorem Below.refl (f : Frame) : f.Below f := f.join_self

theorem Below.trans {f g h : Frame} (hfg : f.Below g) (hgh : g.Below h) : f.Below h := by
  unfold Below at *
  calc h.join f = (h.join g).join f := by rw [hgh]
    _ = h.join (g.join f) := join_assoc h g f
    _ = h.join g := by rw [hfg]
    _ = h := hgh

theorem below_join_right (f g : Frame) : g.Below (f.join g) := by
  unfold Below
  rw [join_assoc, join_self]

theorem below_join_left (f g : Frame) : f.Below (f.join g) := by
  rw [join_comm]
  exact below_join_right g f

end Frame

end PatchPresence
