/-
  PatchPresence.Proofs.Collections — membership in ascending lists, lookup in tables, sums over lists, runs,
  repetitions.

  None of the laws asks for sorted entries: an insertion puts its key in front of every other entry with
  that key, and a lookup takes the first entry it meets. Keys are told apart by an order in which only
  equal keys compare as equal.

  Main results:
    * `Ascending.mem_insert` — insertion adds one element.
    * `Ascending.of_lastGreatest`, `Ascending.le_of_firstLeast` — what a choice by a key or an order chooses.
    * `Table.get?_insert`, `Table.get?_erase` — an update is seen at its key and nowhere else.
    * `Table.get?_ofList` — a table made from pairs with different keys holds these pairs.
    * `Table.filter_upsert` — an update leaves the entries with other keys as they are.
    * `sumOf_append`, `sumOf_length` — a sum over the parts of a list.
    * `wordSum_eq` — a sum in a machine word is the exact sum, less whole words.
    * `splitBy_map` — mapped elements are cut into runs where the elements are.
    * `nodup_eraseDups` — what is left when repetitions are erased.
-/
import Mathlib.Data.List.SplitBy
import PatchPresence.Data.Ascending
import PatchPresence.Data.Sum
import PatchPresence.Data.Table

namespace PatchPresence

/-! ## §1. Ascending lists. -/

namespace Ascending

variable {α : Type} [Ord α] [Std.LawfulEqOrd α]

theorem mem_insert (a x : α) (set : List α) : x ∈ insert a set ↔ x = a ∨ x ∈ set := by
  induction set with
  | nil => simp [insert]
  | cons b rest ih =>
    unfold insert
    split
    · exact List.mem_cons
    · next heq =>
      have hab : a = b := Std.LawfulEqCmp.eq_of_compare heq
      subst hab
      simp
    · rw [List.mem_cons, ih, List.mem_cons, or_left_comm]

end Ascending

namespace Ascending

variable {α : Type}

theorem lastGreatest_eq_none_iff {key : α → Nat} {items : List α} :
    lastGreatest key items = none ↔ items = [] := by
  cases items with
  | nil => simp [lastGreatest]
  | cons a rest =>
    simp only [lastGreatest, reduceCtorEq, iff_false]
    cases lastGreatest key rest with
    | none => simp
    | some b => by_cases hlt : key b < key a <;> simp [hlt]

/-- What is chosen is one of the elements, and none has a greater key. -/
theorem of_lastGreatest {key : α → Nat} {items : List α} {a : α} (h : lastGreatest key items = some a) :
    a ∈ items ∧ ∀ b ∈ items, key b ≤ key a := by
  induction items generalizing a with
  | nil => cases h
  | cons first rest ih =>
    rw [lastGreatest] at h
    cases hrest : lastGreatest key rest with
    | none =>
      rw [hrest] at h
      obtain rfl := Option.some.inj h
      obtain rfl := lastGreatest_eq_none_iff.1 hrest
      simp
    | some best =>
      obtain ⟨hbest, hgreatest⟩ := ih hrest
      rw [hrest] at h
      dsimp only at h
      split at h
      · next hlt =>
        obtain rfl := Option.some.inj h
        refine ⟨List.mem_cons_self, List.forall_mem_cons.2 ⟨Nat.le_refl _, fun b hb => ?_⟩⟩
        have hle := hgreatest b hb
        omega
      · next hge =>
        obtain rfl := Option.some.inj h
        exact ⟨List.mem_cons_of_mem _ hbest, List.forall_mem_cons.2 ⟨by omega, hgreatest⟩⟩

theorem firstLeast_eq_none_iff {le : α → α → Bool} {items : List α} :
    firstLeast le items = none ↔ items = [] := by
  cases items with
  | nil => simp [firstLeast]
  | cons a rest =>
    simp only [firstLeast, reduceCtorEq, iff_false]
    cases firstLeast le rest with
    | none => simp
    | some b => cases hle : le a b <;> simp [hle]

theorem firstLeast_map {β : Type} (f : β → α) (le : α → α → Bool) (items : List β) :
    firstLeast le (items.map f) = (firstLeast (fun a b => le (f a) (f b)) items).map f := by
  induction items with
  | nil => rfl
  | cons first rest ih =>
    rw [List.map_cons, firstLeast, firstLeast, ih]
    cases firstLeast (fun a b => le (f a) (f b)) rest with
    | none => rfl
    | some best => cases hle : le (f first) (f best) <;> simp [hle]

/-- In a total preorder what is chosen is one of the elements, and comes before all of them. -/
theorem le_of_firstLeast {le : α → α → Bool} (htotal : ∀ a b, le a b = true ∨ le b a = true)
    (htrans : ∀ a b c, le a b = true → le b c = true → le a c = true) {items : List α} {a : α}
    (h : firstLeast le items = some a) : a ∈ items ∧ ∀ b ∈ items, le a b = true := by
  have hrefl : ∀ a, le a a = true := fun a => (htotal a a).elim id id
  induction items generalizing a with
  | nil => cases h
  | cons first rest ih =>
    rw [firstLeast] at h
    cases hrest : firstLeast le rest with
    | none =>
      rw [hrest] at h
      obtain rfl := Option.some.inj h
      obtain rfl := firstLeast_eq_none_iff.1 hrest
      exact ⟨List.mem_singleton_self _, List.forall_mem_singleton.2 (hrefl _)⟩
    | some best =>
      obtain ⟨hbest, hleast⟩ := ih hrest
      rw [hrest] at h
      dsimp only at h
      split at h
      · next hle =>
        obtain rfl := Option.some.inj h
        refine ⟨List.mem_cons_self, List.forall_mem_cons.2 ⟨hrefl _, fun b hb => ?_⟩⟩
        exact htrans _ _ _ hle (hleast b hb)
      · next hgt =>
        obtain rfl := Option.some.inj h
        exact ⟨List.mem_cons_of_mem _ hbest, List.forall_mem_cons.2 ⟨(htotal _ _).resolve_left hgt, hleast⟩⟩

/-- What is chosen is one of the elements, and none has a smaller key. -/
theorem of_firstLeast {key : α → Nat} {items : List α} {a : α}
    (h : firstLeast (fun a b => key a ≤ key b) items = some a) :
    a ∈ items ∧ ∀ b ∈ items, key a ≤ key b := by
  have hchosen := le_of_firstLeast (fun a b => by simpa using Nat.le_total (key a) (key b))
    (fun a b c => by simpa using Nat.le_trans) h
  simpa using hchosen

end Ascending

/-! ## §2. Tables. -/

namespace Table

variable {κ υ : Type} [Ord κ] [Std.LawfulEqOrd κ]

theorem compare_self (key : κ) : compare key key = .eq := Std.ReflCmp.compare_self

theorem find?_cons [DecidableEq κ] (key other : κ) (value : υ) (rest : List (κ × υ)) :
    find? key ((other, value) :: rest) = if key = other then some value else find? key rest := by
  rw [find?]
  split
  · next heq => rw [if_pos (Std.LawfulEqCmp.eq_of_compare heq)]
  · next hne =>
    rw [if_neg]
    rintro rfl
    exact hne (compare_self key)

theorem find?_insertEntry [DecidableEq κ] (key other : κ) (value : υ) (entries : List (κ × υ)) :
    find? other (upsertEntry key (fun _ => value) entries)
      = if other = key then some value else find? other entries := by
  induction entries with
  | nil =>
    rw [upsertEntry, find?_cons]
  | cons entry rest ih =>
    obtain ⟨held, old⟩ := entry
    unfold upsertEntry
    split
    · exact find?_cons other key value _
    · next heq =>
      have hkey : key = held := Std.LawfulEqCmp.eq_of_compare heq
      subst hkey
      rw [find?_cons, find?_cons]
      split <;> rfl
    · next hgt =>
      -- the key is not the one held here, so at most one of the two tests succeeds
      have hne : key ≠ held := by
        rintro rfl
        rw [compare_self] at hgt
        cases hgt
      rw [find?_cons, find?_cons, ih]
      by_cases hother : other = held
      · subst hother
        rw [if_pos rfl, if_neg (Ne.symm hne), if_pos rfl]
      · rw [if_neg hother, if_neg hother]

theorem get?_insert [DecidableEq κ] (table : Table κ υ) (key other : κ) (value : υ) :
    (table.insert key value).get? other = if other = key then some value else table.get? other :=
  find?_insertEntry key other value table.entries

theorem get?_erase [DecidableEq κ] (table : Table κ υ) (key other : κ) :
    (table.erase key).get? other = if other = key then none else table.get? other := by
  obtain ⟨entries⟩ := table
  show find? other (entries.filter fun entry => compare key entry.1 != .eq)
    = if other = key then none else find? other entries
  induction entries with
  | nil => simp [find?]
  | cons entry rest ih =>
    obtain ⟨held, old⟩ := entry
    rw [List.filter_cons, find?_cons]
    by_cases hkey : key = held
    · subst hkey
      rw [if_neg (by simp), ih]
      split <;> rfl
    · have hcompare : compare key held ≠ .eq :=
        fun heq => hkey (Std.LawfulEqCmp.eq_of_compare heq)
      rw [if_pos (by simpa using hcompare), find?_cons, ih]
      by_cases hother : other = held
      · subst hother
        rw [if_pos rfl, if_neg (Ne.symm hkey), if_pos rfl]
      · rw [if_neg hother, if_neg hother]

theorem get?_insertAll_of_notMem [DecidableEq κ] (pairs : List (κ × υ)) (table : Table κ υ) (key : κ)
    (h : key ∉ pairs.map Prod.fst) : (table.insertAll pairs).get? key = table.get? key := by
  induction pairs generalizing table with
  | nil => rfl
  | cons pair pairs ih =>
    rw [List.map_cons, List.mem_cons, not_or] at h
    show ((table.insert pair.1 pair.2).insertAll pairs).get? key = _
    rw [ih _ h.2, get?_insert, if_neg h.1]

theorem get?_insertAll_of_mem [DecidableEq κ] (pairs : List (κ × υ)) (table : Table κ υ) (key : κ)
    (value : υ) (hnodup : (pairs.map Prod.fst).Nodup) (h : (key, value) ∈ pairs) :
    (table.insertAll pairs).get? key = some value := by
  induction pairs generalizing table with
  | nil => simp at h
  | cons pair pairs ih =>
    rw [List.map_cons, List.nodup_cons] at hnodup
    show ((table.insert pair.1 pair.2).insertAll pairs).get? key = _
    rcases List.mem_cons.1 h with rfl | h
    · rw [get?_insertAll_of_notMem pairs _ _ hnodup.1, get?_insert, if_pos rfl]
    · exact ih _ hnodup.2 h

/-- A table made from pairs with different keys holds these pairs and nothing else. -/
theorem get?_ofList [DecidableEq κ] (pairs : List (κ × υ)) (key : κ) (value : υ)
    (hnodup : (pairs.map Prod.fst).Nodup) :
    (ofList pairs).get? key = some value ↔ (key, value) ∈ pairs := by
  constructor
  · intro h
    by_cases hmem : key ∈ pairs.map Prod.fst
    · obtain ⟨⟨held, other⟩, hpair, rfl⟩ := List.mem_map.1 hmem
      have hother : (ofList pairs).get? held = some other :=
        get?_insertAll_of_mem pairs empty held other hnodup hpair
      rw [h, Option.some.injEq] at hother
      exact hother ▸ hpair
    · have hnone : (ofList pairs).get? key = none := get?_insertAll_of_notMem pairs empty key hmem
      rw [h] at hnone
      cases hnone
  · exact get?_insertAll_of_mem pairs empty key value hnodup

/-- An update is not seen among entries that the key is not one of. -/
theorem filter_upsert {p : κ × υ → Bool} {key : κ} (hkey : ∀ value, p (key, value) = false)
    (table : Table κ υ) (change : Option υ → υ) :
    (table.upsert key change).entries.filter p = table.entries.filter p := by
  obtain ⟨entries⟩ := table
  show (upsertEntry key change entries).filter p = entries.filter p
  induction entries with
  | nil => simp [upsertEntry, hkey]
  | cons entry rest ih =>
    obtain ⟨held, old⟩ := entry
    unfold upsertEntry
    split
    · rw [List.filter_cons, hkey]
      rfl
    · next heq =>
      have hheld : key = held := Std.LawfulEqCmp.eq_of_compare heq
      subst hheld
      simp [hkey]
    · rw [List.filter_cons, List.filter_cons, ih]

theorem mem_entries_of_get? [DecidableEq κ] {table : Table κ υ} {key : κ} {value : υ}
    (h : table.get? key = some value) : (key, value) ∈ table.entries := by
  obtain ⟨entries⟩ := table
  replace h : find? key entries = some value := h
  show (key, value) ∈ entries
  induction entries with
  | nil => cases h
  | cons entry rest ih =>
    obtain ⟨other, held⟩ := entry
    rw [find?_cons] at h
    split at h
    · next heq =>
      cases h
      exact heq ▸ List.mem_cons_self
    · exact List.mem_cons_of_mem _ (ih h)

theorem mem_keys_of_get? [DecidableEq κ] {table : Table κ υ} {key : κ} {value : υ}
    (h : table.get? key = some value) : key ∈ table.keys :=
  List.mem_map.2 ⟨(key, value), mem_entries_of_get? h, rfl⟩

end Table

/-! ## §3. Sums. -/

variable {α β : Type}

theorem sumOf_congr {f g : α → Nat} {items : List α} (h : ∀ item ∈ items, f item = g item) :
    sumOf f items = sumOf g items := by
  induction items with
  | nil => rfl
  | cons item items ih =>
    show f item + sumOf f items = g item + sumOf g items
    rw [h item List.mem_cons_self, ih fun other hother => h other (List.mem_cons_of_mem _ hother)]

theorem sumOf_eq_zero {f : α → Nat} {items : List α} (h : ∀ item ∈ items, f item = 0) : sumOf f items = 0 := by
  induction items with
  | nil => rfl
  | cons item items ih =>
    show f item + sumOf f items = 0
    rw [h item List.mem_cons_self, ih fun other hother => h other (List.mem_cons_of_mem _ hother)]

theorem sumOf_append (measure : α → Nat) (front back : List α) :
    sumOf measure (front ++ back) = sumOf measure front + sumOf measure back := by
  induction front with
  | nil => exact (Nat.zero_add _).symm
  | cons a front ih =>
    show measure a + sumOf measure (front ++ back) = measure a + sumOf measure front + sumOf measure back
    omega

/-- What a measure gives nothing for can be left out of a sum. -/
theorem sumOf_filter {measure : α → Nat} {keep : α → Bool} {items : List α}
    (h : ∀ item ∈ items, keep item = false → measure item = 0) :
    sumOf measure (items.filter keep) = sumOf measure items := by
  induction items with
  | nil => rfl
  | cons item items ih =>
    obtain ⟨hitem, hitems⟩ := List.forall_mem_cons.1 h
    show _ = measure item + sumOf measure items
    cases hkeep : keep item with
    | true =>
      rw [List.filter_cons_of_pos hkeep, ← ih hitems]
      rfl
    | false => rw [List.filter_cons_of_neg (Bool.eq_false_iff.1 hkeep), ih hitems, hitem hkeep, Nat.zero_add]

theorem wordSum_eq (measure : α → Nat) (items : List α) :
    wordSum measure items = sumOf measure items % UInt64.size := by
  have hstep : ∀ start, (start % UInt64.size + sumOf measure items) % UInt64.size
      = items.foldl (fun sum a => (sum + measure a) % UInt64.size) (start % UInt64.size) := by
    induction items with
    | nil =>
      intro start
      exact Nat.mod_mod _ _
    | cons item items ih =>
      intro start
      rw [List.foldl_cons, ← ih]
      show (start % UInt64.size + (measure item + sumOf measure items)) % UInt64.size = _
      simp only [Nat.mod_add_mod, Nat.add_assoc]
  unfold wordSum
  rw [← Nat.zero_mod UInt64.size, ← hstep 0, Nat.zero_mod, Nat.zero_add]

theorem wordSum_map (measure : β → Nat) (f : α → β) (items : List α) :
    wordSum measure (items.map f) = wordSum (fun item => measure (f item)) items :=
  List.foldl_map

theorem sumOf_length (f : α → List β) (items : List α) :
    sumOf (fun item => (f item).length) items = (items.flatMap f).length := by
  induction items with
  | nil => rfl
  | cons item items ih =>
    rw [List.flatMap_cons, List.length_append, ← ih]
    rfl

/-! ## §4. Runs. -/

theorem splitBy_loop_map {r : β → β → Bool} {s : α → α → Bool} {f : α → β}
    (h : ∀ a b, r (f a) (f b) = s a b) (items : List α) :
    ∀ (last : α) (reversed : List α) (runs : List (List α)),
      List.splitBy.loop r (items.map f) (f last) (reversed.map f) (runs.map (List.map f)) =
        (List.splitBy.loop s items last reversed runs).map (List.map f) := by
  induction items with
  | nil =>
    intro last reversed runs
    simp [List.splitBy.loop]
  | cons item items ih =>
    intro last reversed runs
    rw [List.map_cons, List.splitBy.loop, List.splitBy.loop, h]
    cases s last item with
    | true => exact ih item (last :: reversed) runs
    | false =>
      have hrun : (f last :: reversed.map f).reverse :: runs.map (List.map f) =
          ((last :: reversed).reverse :: runs).map (List.map f) := by
        rw [List.map_cons, List.map_reverse, List.map_cons]
      dsimp only
      rw [hrun]
      exact ih item [] _

/-- Mapped elements are cut into runs where the elements are, when the test is the same on both. -/
theorem splitBy_map {r : β → β → Bool} {s : α → α → Bool} {f : α → β}
    (h : ∀ a b, r (f a) (f b) = s a b) (items : List α) :
    (items.map f).splitBy r = (items.splitBy s).map (List.map f) := by
  cases items with
  | nil => rfl
  | cons first rest => exact splitBy_loop_map h rest first [] []

/-! ## §5. Repetitions. -/

/-- An element is kept once: what follows it in the list is first cleared of it. -/
theorem nodup_eraseDups [BEq α] [LawfulBEq α] (items : List α) : items.eraseDups.Nodup := by
  cases items with
  | nil => exact List.Pairwise.nil
  | cons first rest =>
    rw [List.eraseDups_cons, List.nodup_cons]
    refine ⟨fun hfirst => ?_, nodup_eraseDups _⟩
    have hcleared := (List.mem_filter.1 (List.mem_eraseDups.1 hfirst)).2
    simp at hcleared
termination_by items.length
decreasing_by exact Nat.lt_succ_of_le (List.length_filter_le _ _)

end PatchPresence
