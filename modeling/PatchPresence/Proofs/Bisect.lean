/-
  PatchPresence.Proofs.Bisect — what halving a window finds.

  The window always holds the border: every place in front of it passes the test and every place behind it
  fails. A test in the middle keeps this whichever way it comes out, because a place in front of one that
  passes, passes too.

  Main result:
    * `lt_partitionPoint_iff` — in a partitioned list the places in front of the border are those whose
      elements pass.
-/
import PatchPresence.Data.Bisect

namespace PatchPresence

/-! ## §1. Windows. -/

/-- The border that a window narrows down to has all that pass in front of it and nothing else. -/
theorem lt_bisect_iff {passes : Nat → Bool} (hmono : ∀ i j, i ≤ j → passes j = true → passes i = true)
    {low high : Nat} (hle : low ≤ high) (hfront : ∀ i, i < low → passes i = true)
    (hbehind : ∀ i, high ≤ i → passes i = false) (i : Nat) :
    i < bisect passes low high ↔ passes i = true := by
  fun_induction bisect passes low high with
  | case1 low high hlt middle hmiddle ih =>
    have hwithin : middle < high := by omega
    exact ih (by omega) (fun j hj => hmono j middle (by omega) hmiddle) hbehind
  | case2 low high hlt middle hmiddle ih =>
    have hfails : ∀ j, middle ≤ j → passes j = false := by
      intro j hj
      cases hpasses : passes j with
      | false => rfl
      | true => exact absurd (hmono middle j hj hpasses) hmiddle
    exact ih (by omega) hfront hfails
  | case3 low high hnot =>
    -- the window is empty, so its two sides meet
    have hmeet : low = high := by omega
    constructor
    · exact hfront i
    · intro hpasses
      have hin : ¬ high ≤ i := fun hge => by simp [hbehind i hge] at hpasses
      omega

/-! ## §2. Lists. -/

variable {α β : Type} {passes : α → Bool} {items : List α}

/-- No element that fails stands in front of one that passes. -/
def Partitioned (passes : α → Bool) (items : List α) : Prop :=
  items.Pairwise fun a b => passes b = true → passes a = true

/-- In a partitioned list the places in front of the border are those whose elements pass. -/
theorem lt_partitionPoint_iff (h : Partitioned passes items) (i : Nat) :
    i < partitionPoint passes items ↔ ∃ item, items[i]? = some item ∧ passes item = true := by
  rw [← Option.any_eq_true]
  unfold partitionPoint
  apply lt_bisect_iff
  · intro i j hij hj
    rw [Option.any_eq_true] at hj ⊢
    obtain ⟨b, hb, hpasses⟩ := hj
    obtain ⟨hjlt, rfl⟩ := List.getElem?_eq_some_iff.1 hb
    have hilt : i < items.length := by omega
    refine ⟨items[i], List.getElem?_eq_getElem hilt, ?_⟩
    rcases Nat.lt_or_eq_of_le hij with hlt | rfl
    · exact List.pairwise_iff_getElem.1 h i j hilt hjlt hlt hpasses
    · exact hpasses
  · exact Nat.zero_le _
  · intro i hi
    omega
  · intro i hi
    rw [List.getElem?_eq_none hi]
    rfl

/-- The border depends on the outcomes of the test alone. -/
theorem partitionPoint_map {passes : β → Bool} {same : α → Bool} {f : α → β}
    (h : ∀ item ∈ items, passes (f item) = same item) :
    partitionPoint passes (items.map f) = partitionPoint same items := by
  unfold partitionPoint
  rw [List.length_map]
  congr 1
  funext i
  rw [List.getElem?_map]
  cases hitem : items[i]? with
  | none => rfl
  | some item => exact h item (List.mem_of_getElem? hitem)

end PatchPresence
