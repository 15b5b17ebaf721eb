/-
  PatchPresence.Proofs.KeyOrder — the orders of the keys that methods are filed and features are counted by.

  Method signatures, shapes, loop signatures and constants have total orders in which only equal keys compare as
  equal. So a set of keys has one ascending list, whatever order its elements come in.

  Main results:
    * the instances of `Std.TransOrd` and `Std.LawfulEqOrd` for `MethodSignature`, `Shape`, `LoopSignature` and
      `Constant`.
    * `Ascending.ofList_eq_ofList` — lists with the same elements give the same ascending list.
    * `Table.Sorted.get?_upsert` — in a sorted table an update is made from the value that a lookup finds.
    * `Table.Sorted.eq_of_included` — sorted tables that say the same are equal.
-/
import Mathlib.Data.List.Nodup
import Mathlib.Data.List.Perm.Subperm
import PatchPresence.Feature.Set
import PatchPresence.Proofs.Collections
import PatchPresence.Signature

namespace PatchPresence

/-! ## §1. Signatures, shapes and loops. -/

instance : Std.TransOrd MethodSignature :=
  inferInstanceAs <| Std.TransCmp <| compareLex (compareOn MethodSignature.owner) <|
    compareLex (compareOn MethodSignature.name) <|
      compareLex (compareOn MethodSignature.descriptor) (compareOn MethodSignature.isStatic)

instance : Std.LawfulEqOrd MethodSignature where
  eq_of_compare {a b} h := by
    replace h : a.order b = .eq := h
    unfold MethodSignature.order at h
    simp only [Ordering.then_eq_eq, Std.compare_eq_iff_eq] at h
    obtain ⟨howner, hname, hdescriptor, hstatic⟩ := h
    cases a
    cases b
    simp only [MethodSignature.mk.injEq]
    exact ⟨howner, hname, hdescriptor, hstatic⟩

instance : Std.TransOrd Shape := inferInstanceAs (Std.TransCmp (compareOn Shape.rank))

instance : Std.LawfulEqOrd Shape where
  eq_of_compare {a b} h := by
    replace h : compare a.rank b.rank = .eq := h
    have hrank : a.rank = b.rank := Std.LawfulEqCmp.eq_of_compare h
    revert hrank
    cases a <;> cases b <;> decide

instance : Std.TransOrd LoopSignature :=
  inferInstanceAs <| Std.TransCmp <| compareLex (compareOn LoopSignature.depth) <|
    compareLex (compareOn LoopSignature.constantExits) <|
      compareLex (compareOn LoopSignature.variableExits) (compareOn LoopSignature.callExits)

instance : Std.LawfulEqOrd LoopSignature where
  eq_of_compare {a b} h := by
    replace h : a.order b = .eq := h
    unfold LoopSignature.order at h
    simp only [Ordering.then_eq_eq, Std.compare_eq_iff_eq] at h
    obtain ⟨hdepth, hconstant, hvariable, hcall⟩ := h
    cases a
    cases b
    simp only [LoopSignature.mk.injEq]
    exact ⟨hdepth, hconstant, hvariable, hcall⟩

/-! ## §2. Constants. -/

namespace Constant

theorem doubleBits_injective {a b : Float} (h : a.toBits = b.toBits) : a = b := by
  obtain ⟨⟨x, hx⟩⟩ := a
  obtain ⟨⟨y, hy⟩⟩ := b
  cases h
  rfl

theorem floatBits_injective {a b : Float32} (h : a.toBits = b.toBits) : a = b := by
  obtain ⟨⟨x, hx⟩⟩ := a
  obtain ⟨⟨y, hy⟩⟩ := b
  cases h
  rfl

/-- The number that constants of one kind are ordered by; zero for text. -/
def numberKey : Constant → Int
  | .int value => value.toInt
  | .long value => value.toInt
  | .float value => value.toBits.toNat
  | .double value => value.toBits.toNat
  | .bool value => value.toNat
  | .char unit => unit.toNat
  | .str _ => 0
  | .null => 0

/-- The text that constants of one kind are ordered by; empty for numbers. -/
def textKey : Constant → String
  | .str text => text
  | _ => ""

/-- A map into another order keeps comparisons when it keeps the order and tells elements apart. -/
theorem compareOfLessAndEq_map {α β : Type} [LT α] [DecidableLT α] [DecidableEq α] [LT β] [DecidableLT β]
    [DecidableEq β] {f : α → β} (hlt : ∀ a b, a < b ↔ f a < f b) (heq : ∀ a b, a = b ↔ f a = f b) (a b : α) :
    compareOfLessAndEq a b = compareOfLessAndEq (f a) (f b) := by
  simp only [compareOfLessAndEq, hlt, heq]

/-- Constants of different kinds are ordered by kind alone. -/
theorem order_of_rank_ne {a b : Constant} (h : a.rank ≠ b.rank) : order a b = compare a.rank b.rank := by
  unfold order
  split
  case h_8 => rfl
  all_goals exact absurd rfl h

/-- Constants of one kind are ordered by number or by text; what the kind does not have is equal. -/
theorem order_of_rank_eq {a b : Constant} (h : a.rank = b.rank) :
    order a b = (compare a.numberKey b.numberKey).then (compare a.textKey b.textKey) := by
  have hInt32 : ∀ x y : Int32, compare x y = compare x.toInt y.toInt :=
    compareOfLessAndEq_map (fun _ _ => Int32.lt_iff_toInt_lt) fun _ _ => Int32.toInt_inj.symm
  have hInt64 : ∀ x y : Int64, compare x y = compare x.toInt y.toInt :=
    compareOfLessAndEq_map (fun _ _ => Int64.lt_iff_toInt_lt) fun _ _ => Int64.toInt_inj.symm
  have hUInt64 : ∀ x y : UInt64, compare x y = compare (x.toNat : Int) y.toNat :=
    compareOfLessAndEq_map (fun _ _ => Int.ofNat_lt.symm) fun _ _ => by rw [Int.ofNat_inj, UInt64.toNat_inj]
  have hUInt32 : ∀ x y : UInt32, compare x y = compare (x.toNat : Int) y.toNat :=
    compareOfLessAndEq_map (fun _ _ => Int.ofNat_lt.symm) fun _ _ => by rw [Int.ofNat_inj, UInt32.toNat_inj]
  have hUInt16 : ∀ x y : UInt16, compare x y = compare (x.toNat : Int) y.toNat :=
    compareOfLessAndEq_map (fun _ _ => Int.ofNat_lt.symm) fun _ _ => by rw [Int.ofNat_inj, UInt16.toNat_inj]
  have hBool : ∀ x y : Bool, compare x y = compare (x.toNat : Int) y.toNat := by decide
  cases a <;> cases b <;> cases h <;>
    simp [order, rank, numberKey, textKey, hInt32, hInt64, hUInt64, hUInt32, hUInt16, hBool]

/-- Constants are ordered by kind, then by number, then by text. -/
theorem order_eq_compareLex (a b : Constant) :
    order a b = compareLex (compareOn rank) (compareLex (compareOn numberKey) (compareOn textKey)) a b := by
  show order a b = (compare a.rank b.rank).then
    ((compare a.numberKey b.numberKey).then (compare a.textKey b.textKey))
  by_cases h : a.rank = b.rank
  · have hself : compare b.rank b.rank = .eq := Std.ReflCmp.compare_self
    rw [order_of_rank_eq h, h, hself]
    rfl
  · have hne : compare a.rank b.rank ≠ .eq := fun heq => h (Std.LawfulEqCmp.eq_of_compare heq)
    rw [order_of_rank_ne h]
    cases hcompare : compare a.rank b.rank with
    | lt => rfl
    | gt => rfl
    | eq => exact absurd hcompare hne

/-- Kind, number and text tell constants apart. -/
theorem eq_of_number_eq {a b : Constant} (hrank : a.rank = b.rank) (hnumber : a.numberKey = b.numberKey)
    (htext : a.textKey = b.textKey) : a = b := by
  cases a <;> cases b <;> cases hrank
  case int.int x y => rw [Int32.toInt_inj.1 hnumber]
  case long.long x y => rw [Int64.toInt_inj.1 hnumber]
  case float.float x y => rw [floatBits_injective (UInt32.toNat_inj.1 (Int.ofNat_inj.1 hnumber))]
  case double.double x y => rw [doubleBits_injective (UInt64.toNat_inj.1 (Int.ofNat_inj.1 hnumber))]
  case bool.bool x y =>
    revert hnumber
    cases x <;> cases y <;> decide
  case char.char x y => rw [UInt16.toNat_inj.1 (Int.ofNat_inj.1 hnumber)]
  case str.str x y => exact congrArg Constant.str htext
  case null.null => rfl

end Constant

instance : Std.TransOrd Constant := by
  have heq : (compare : Constant → Constant → Ordering) = compareLex (compareOn Constant.rank)
      (compareLex (compareOn Constant.numberKey) (compareOn Constant.textKey)) := by
    funext a b
    exact Constant.order_eq_compareLex a b
  unfold Std.TransOrd
  rw [heq]
  infer_instance

instance : Std.LawfulEqOrd Constant where
  eq_of_compare {a b} h := by
    replace h : Constant.order a b = .eq := h
    rw [Constant.order_eq_compareLex] at h
    simp only [compareLex, compareOn, Ordering.then_eq_eq, Std.compare_eq_iff_eq] at h
    exact Constant.eq_of_number_eq h.1 h.2.1 h.2.2

/-! ## §3. Ascending lists. -/

namespace Ascending

variable {α : Type} [Ord α] [Std.LawfulEqOrd α]

/-- Every element is less than those behind it. -/
def Strict (set : List α) : Prop := set.Pairwise fun a b => compare a b = .lt

theorem mem_ofList (items : List α) (x : α) : x ∈ ofList items ↔ x ∈ items := by
  have hall : ∀ set : List α, x ∈ insertAll set items ↔ x ∈ set ∨ x ∈ items := by
    induction items with
    | nil =>
      intro set
      simp [insertAll]
    | cons a items ih =>
      intro set
      show x ∈ insertAll (insert a set) items ↔ _
      rw [ih, mem_insert, List.mem_cons, or_comm (a := x = a), or_assoc]
  have hempty := hall []
  rwa [or_iff_right List.not_mem_nil] at hempty

theorem Strict.nodup {set : List α} (h : Strict set) : set.Nodup := by
  apply h.imp
  rintro a _ hlt rfl
  have hself : compare a a = .eq := Std.ReflCmp.compare_self
  rw [hself] at hlt
  cases hlt

variable [Std.TransOrd α]

theorem strict_insert (a : α) {set : List α} (h : Strict set) : Strict (insert a set) := by
  induction set with
  | nil => exact List.pairwise_singleton _ a
  | cons b rest ih =>
    obtain ⟨hfirst, hrest⟩ := List.pairwise_cons.1 h
    unfold insert
    split
    · next hlt =>
      refine List.pairwise_cons.2 ⟨?_, h⟩
      intro x hx
      rcases List.mem_cons.1 hx with rfl | hx
      · exact hlt
      · exact Std.TransCmp.lt_trans hlt (hfirst x hx)
    · exact h
    · next hgt =>
      -- the new element goes behind the first one, which is less than it
      have hless : compare b a = .lt := Std.OrientedCmp.gt_iff_lt.1 hgt
      refine List.pairwise_cons.2 ⟨?_, ih hrest⟩
      intro x hx
      rcases (mem_insert a x rest).1 hx with rfl | hx
      · exact hless
      · exact hfirst x hx

theorem strict_ofList (items : List α) : Strict (ofList items) := by
  have hall : ∀ set : List α, Strict set → Strict (insertAll set items) := by
    induction items with
    | nil =>
      intro set hset
      exact hset
    | cons a items ih =>
      intro set hset
      exact ih (insert a set) (strict_insert a hset)
  exact hall [] List.Pairwise.nil

/-- Ascending lists with the same elements are equal. -/
theorem Strict.eq_of_mem_iff {xs ys : List α} (hxs : Strict xs) (hys : Strict ys)
    (h : ∀ x, x ∈ xs ↔ x ∈ ys) : xs = ys := by
  have hperm : xs.Perm ys := (List.perm_ext_iff_of_nodup hxs.nodup hys.nodup).2 h
  apply hperm.eq_of_pairwise _ hxs hys
  intro a b _ _ hab hba
  have hgt : compare a b = .gt := Std.OrientedCmp.gt_iff_lt.2 hba
  rw [hab] at hgt
  cases hgt

/-- Lists with the same elements give the same ascending list. -/
theorem ofList_eq_ofList {xs ys : List α} (h : ∀ x, x ∈ xs ↔ x ∈ ys) : ofList xs = ofList ys := by
  apply (strict_ofList xs).eq_of_mem_iff (strict_ofList ys)
  intro x
  rw [mem_ofList, mem_ofList, h]

end Ascending

/-! ## §4. Tables. -/

namespace Table

variable {κ υ : Type} [Ord κ] [Std.LawfulEqOrd κ]

/-- Keys ascend, so no key has two entries. -/
def Sorted (table : Table κ υ) : Prop := Ascending.Strict table.keys

theorem find?_of_notMem [DecidableEq κ] {key : κ} {entries : List (κ × υ)}
    (h : key ∉ entries.map Prod.fst) : find? key entries = none := by
  induction entries with
  | nil => rfl
  | cons entry rest ih =>
    obtain ⟨held, value⟩ := entry
    rw [List.map_cons, List.mem_cons, not_or] at h
    rw [find?_cons, if_neg h.1, ih h.2]

theorem keys_upsert (table : Table κ υ) (key : κ) (change : Option υ → υ) :
    (table.upsert key change).keys = Ascending.insert key table.keys := by
  obtain ⟨entries⟩ := table
  show (upsertEntry key change entries).map Prod.fst = Ascending.insert key (entries.map Prod.fst)
  induction entries with
  | nil => rfl
  | cons entry rest ih =>
    obtain ⟨held, value⟩ := entry
    rw [upsertEntry, List.map_cons, Ascending.insert]
    cases hcompare : compare key held with
    | lt => rfl
    | eq =>
      have hkey : key = held := Std.LawfulEqCmp.eq_of_compare hcompare
      rw [hkey]
      rfl
    | gt =>
      show held :: (upsertEntry key change rest).map Prod.fst = _
      rw [ih]

theorem mem_keys_insert (table : Table κ υ) (key other : κ) (value : υ) :
    other ∈ (table.insert key value).keys ↔ other = key ∨ other ∈ table.keys := by
  rw [Table.insert, keys_upsert, Ascending.mem_insert]

theorem Sorted.get?_of_mem [DecidableEq κ] {table : Table κ υ} (h : table.Sorted) {entry : κ × υ}
    (hentry : entry ∈ table.entries) : table.get? entry.1 = some entry.2 := by
  obtain ⟨entries⟩ := table
  replace h : (entries.map Prod.fst).Nodup := Ascending.Strict.nodup h
  show find? entry.1 entries = some entry.2
  induction entries with
  | nil => cases hentry
  | cons first rest ih =>
    obtain ⟨hfirst, hrest⟩ := List.nodup_cons.1 h
    rw [find?_cons]
    rcases List.mem_cons.1 hentry with rfl | hentry
    · rw [if_pos rfl]
    · have hne : entry.1 ≠ first.1 := by
        intro heq
        exact hfirst (heq ▸ List.mem_map_of_mem hentry)
      rw [if_neg hne, ih hentry hrest]

variable [Std.TransOrd κ]

theorem Sorted.upsert {table : Table κ υ} (h : table.Sorted) (key : κ) (change : Option υ → υ) :
    (table.upsert key change).Sorted := by
  rw [Sorted, keys_upsert]
  exact Ascending.strict_insert key h

theorem sorted_ofList (pairs : List (κ × υ)) : (ofList pairs).Sorted := by
  have hall : ∀ table : Table κ υ, table.Sorted → (table.insertAll pairs).Sorted := by
    induction pairs with
    | nil =>
      intro table htable
      exact htable
    | cons pair pairs ih =>
      intro table htable
      exact ih (table.insert pair.1 pair.2) (htable.upsert pair.1 _)
  exact hall empty List.Pairwise.nil

/-- A sorted table has its entry at a key in the one place where an update looks for it. -/
theorem Sorted.get?_upsert [DecidableEq κ] {table : Table κ υ} (h : table.Sorted) (key other : κ)
    (change : Option υ → υ) :
    (table.upsert key change).get? other =
      if other = key then some (change (table.get? key)) else table.get? other := by
  obtain ⟨entries⟩ := table
  show find? other (upsertEntry key change entries) =
    if other = key then some (change (find? key entries)) else find? other entries
  replace h : Ascending.Strict (entries.map Prod.fst) := h
  induction entries with
  | nil => exact find?_cons other key (change none) []
  | cons entry rest ih =>
    obtain ⟨held, value⟩ := entry
    obtain ⟨hfirst, hrest⟩ := List.pairwise_cons.1 h
    rw [upsertEntry]
    cases hcompare : compare key held with
    | lt =>
      -- the key is less than all that are held, so it is none of them
      have hnotMem : key ∉ (held :: rest.map Prod.fst) := by
        intro hmem
        have hlt : compare key key = .lt := by
          rcases List.mem_cons.1 hmem with heq | hmem
          · exact heq ▸ hcompare
          · exact Std.TransCmp.lt_trans hcompare (hfirst key hmem)
        rw [compare_self] at hlt
        cases hlt
      have hnone : find? key ((held, value) :: rest) = none := find?_of_notMem hnotMem
      show find? other ((key, change none) :: (held, value) :: rest) = _
      rw [find?_cons, hnone]
    | eq =>
      have hkey : key = held := Std.LawfulEqCmp.eq_of_compare hcompare
      subst hkey
      show find? other ((key, change (some value)) :: rest) = _
      rw [find?_cons, find?_cons, find?_cons, if_pos rfl]
      split <;> rfl
    | gt =>
      have hne : key ≠ held := by
        rintro rfl
        rw [compare_self] at hcompare
        cases hcompare
      show find? other ((held, value) :: upsertEntry key change rest) = _
      rw [find?_cons, find?_cons, find?_cons, if_neg hne, ih hrest]
      by_cases hother : other = held
      · subst hother
        rw [if_pos rfl, if_neg (Ne.symm hne), if_pos rfl]
      · rw [if_neg hother, if_neg hother]

end Table

/-! ## §5. What tables say. -/

namespace Table

variable {κ υ : Type} [Ord κ]

/-- Whatever one table says, the other says too. -/
def Included (small large : Table κ υ) : Prop :=
  ∀ key value, small.get? key = some value → large.get? key = some value

variable [Std.LawfulEqOrd κ]

theorem Sorted.nodup_entries {table : Table κ υ} (h : table.Sorted) : table.entries.Nodup :=
  List.Nodup.of_map Prod.fst (Ascending.Strict.nodup h)

variable [DecidableEq κ]

theorem Sorted.mem_entries_iff {table : Table κ υ} (h : table.Sorted) {entry : κ × υ} :
    entry ∈ table.entries ↔ table.get? entry.1 = some entry.2 :=
  ⟨h.get?_of_mem, mem_entries_of_get?⟩

theorem Sorted.subperm_entries {small large : Table κ υ} (hsmall : small.Sorted)
    (h : small.Included large) : small.entries.Subperm large.entries := by
  refine hsmall.nodup_entries.subperm fun entry hentry => ?_
  exact mem_entries_of_get? (h _ _ (hsmall.mem_entries_iff.1 hentry))

/-- A table that says more has more entries. -/
theorem Sorted.included_of_size_eq {small large : Table κ υ} (hsmall : small.Sorted)
    (h : small.Included large) (hsize : large.size = small.size) : large.Included small := by
  have hperm : small.entries.Perm large.entries :=
    (hsmall.subperm_entries h).perm_of_length_le (Nat.le_of_eq hsize)
  intro key value hvalue
  exact hsmall.get?_of_mem (hperm.mem_iff.2 (mem_entries_of_get? hvalue))

/-- Sorted tables that say the same are equal. -/
theorem Sorted.eq_of_included [Std.TransOrd κ] {table other : Table κ υ} (htable : table.Sorted)
    (hother : other.Sorted) (h : table.Included other) (h' : other.Included table) : table = other := by
  have hperm : table.entries.Perm other.entries := by
    refine (List.perm_ext_iff_of_nodup htable.nodup_entries hother.nodup_entries).2 fun entry => ?_
    rw [htable.mem_entries_iff, hother.mem_entries_iff]
    exact ⟨h _ _, h' _ _⟩
  have hentries : table.entries = other.entries := by
    apply hperm.eq_of_pairwise _ (List.pairwise_map.1 htable) (List.pairwise_map.1 hother)
    intro first second _ _ hlt hgt
    have hgt : compare first.1 second.1 = .gt := Std.OrientedCmp.gt_iff_lt.2 hgt
    rw [hlt] at hgt
    cases hgt
  cases table
  cases other
  exact congrArg Table.mk hentries

end Table

end PatchPresence
