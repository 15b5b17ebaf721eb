/-
  PatchPresence.Proofs.Tally — counts in a tally are numbers of occurrences.

  A tally keeps its keys in ascending order, and an addition looks for its key in one place. So every tally that
  is built by additions is sorted, and each addition is seen at its key alone.

  Main results:
    * `Tally.count_ofKeys` — the tally of a list counts as the list does.
    * `Tally.count_merge` — merging adds counts.
-/
import PatchPresence.Data.Tally
import PatchPresence.Proofs.KeyOrder

namespace PatchPresence.Tally

variable {κ : Type} [Ord κ] {tally other : Tally κ}

/-! ## §1. Order. -/

theorem sorted_empty : (Table.empty : Tally κ).Sorted := List.Pairwise.nil

variable [Std.LawfulEqOrd κ] [Std.TransOrd κ]

theorem sorted_bumpAll (h : tally.Sorted) (keys : List κ) : (tally.bumpAll keys).Sorted := by
  induction keys generalizing tally with
  | nil => exact h
  | cons first keys ih => exact ih (h.upsert first _)

theorem sorted_ofKeys (keys : List κ) : (ofKeys keys).Sorted := sorted_bumpAll sorted_empty keys

theorem sorted_merge (h : tally.Sorted) (other : Tally κ) : (tally.merge other).Sorted := by
  obtain ⟨entries⟩ := other
  unfold merge
  induction entries generalizing tally with
  | nil => exact h
  | cons entry entries ih => exact ih (h.upsert entry.1 _)

/-! ## §2. Counts. -/

variable [DecidableEq κ]

theorem count_add (h : tally.Sorted) (added : κ) (n : Nat) (key : κ) :
    (tally.add added n).count key = tally.count key + if key = added then n else 0 := by
  unfold count add
  rw [h.get?_upsert]
  by_cases hkey : key = added
  · rw [if_pos hkey, if_pos hkey, hkey]
    rfl
  · rw [if_neg hkey, if_neg hkey]
    rfl

theorem count_bumpAll (h : tally.Sorted) (keys : List κ) (key : κ) :
    (tally.bumpAll keys).count key = tally.count key + keys.count key := by
  induction keys generalizing tally with
  | nil => rfl
  | cons first keys ih =>
    have hstep : (tally.bumpAll (first :: keys)).count key = (tally.bump first).count key + keys.count key :=
      ih (h.upsert first _)
    rw [hstep, bump, count_add h, List.count_cons]
    by_cases hkey : key = first
    · simp [hkey]
      omega
    · simp [hkey, Ne.symm hkey]

theorem count_ofKeys (keys : List κ) (key : κ) : (ofKeys keys).count key = keys.count key := by
  have h := count_bumpAll sorted_empty keys key
  rwa [show count Table.empty key = 0 from rfl, Nat.zero_add] at h

theorem count_merge (h : tally.Sorted) (hother : other.Sorted) (key : κ) :
    (tally.merge other).count key = tally.count key + other.count key := by
  obtain ⟨entries⟩ := other
  replace hother : (entries.map Prod.fst).Nodup := Ascending.Strict.nodup hother
  induction entries generalizing tally with
  | nil => rfl
  | cons entry entries ih =>
    obtain ⟨added, n⟩ := entry
    obtain ⟨hfresh, hrest⟩ := List.nodup_cons.1 hother
    have hstep : (tally.merge ⟨(added, n) :: entries⟩).count key
        = (tally.add added n).count key + count ⟨entries⟩ key := ih (h.upsert added _) hrest
    have hlookup : count ⟨(added, n) :: entries⟩ key = if key = added then n else count ⟨entries⟩ key := by
      show (Table.find? key ((added, n) :: entries)).getD 0 = _
      rw [Table.find?_cons]
      split <;> rfl
    rw [hstep, hlookup, count_add h]
    by_cases hkey : key = added
    · -- the key is not listed a second time
      have hnone : count ⟨entries⟩ key = 0 := by
        show (Table.find? key entries).getD 0 = 0
        rw [Table.find?_of_notMem (hkey ▸ hfresh)]
        rfl
      rw [if_pos hkey, if_pos hkey, hnone]
      omega
    · rw [if_neg hkey, if_neg hkey]
      omega

end PatchPresence.Tally
