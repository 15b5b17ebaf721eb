/-
  PatchPresence.Proofs.Flow.Cut — how a list of instructions falls into blocks.

  `Follows xs a b` says that `b` stands directly behind `a`. Cutting a list keeps every such pair either
  inside a part or across the border of two neighbours, and it is the leading elements that stand behind
  a border.

  Main results:
    * `flatten_cut` — the parts put together are the list.
    * `follows_of_part`, `follows_of_border`, `part_or_border_of_follows` — pairs of neighbours in the
      list are those inside the parts and those across borders.
-/
import PatchPresence.Flow.Build

namespace PatchPresence

/-! ## §1. Neighbours in a list. -/

/-- `b` stands directly behind `a` in the list. -/
inductive Follows {α : Type} : List α → α → α → Prop
  | here {a b : α} {rest : List α} : Follows (a :: b :: rest) a b
  | there {a b c : α} {rest : List α} (h : Follows rest a b) : Follows (c :: rest) a b

variable {α : Type} {xs : List α} {a b : α}

theorem Follows.mem_left (h : Follows xs a b) : a ∈ xs := by
  induction h with
  | here => exact List.mem_cons_self
  | there _ ih => exact List.mem_cons_of_mem _ ih

theorem Follows.mem_right (h : Follows xs a b) : b ∈ xs := by
  induction h with
  | here => exact List.mem_cons_of_mem _ List.mem_cons_self
  | there _ ih => exact List.mem_cons_of_mem _ ih

/-- Neighbours stay neighbours inside a longer list. -/
theorem Follows.stretch (h : Follows xs a b) (front back : List α) :
    Follows (front ++ xs ++ back) a b := by
  have hback : Follows (xs ++ back) a b := by
    induction h with
    | here => exact .here
    | there _ ih => exact .there ih
  rw [List.append_assoc]
  induction front with
  | nil => exact hback
  | cons c front ih => exact .there ih

/-- What the first element has and each element hands on to the one behind it, all elements have. -/
theorem Follows.forall_mem {P : α → Prop} {first : α} {rest : List α} (hfirst : P first)
    (hstep : ∀ a b, Follows (first :: rest) a b → P a → P b) : ∀ a ∈ first :: rest, P a := by
  induction rest generalizing first with
  | nil =>
    intro a ha
    rw [List.mem_singleton] at ha
    exact ha ▸ hfirst
  | cons b rest ih =>
    intro a ha
    rcases List.mem_cons.1 ha with rfl | ha
    · exact hfirst
    · exact ih (hstep _ _ .here hfirst) (fun c d h => hstep c d (.there h)) a ha

namespace Graph

/-! ## §2. Parts of a list. -/

variable {leads : α → Bool} {part next : α × List α}

/-- Elements of a part in order. -/
def partElements (part : α × List α) : List α := part.1 :: part.2

/-- Last element of a part. -/
def partLast (part : α × List α) : α := part.2.getLast?.getD part.1

theorem partLast_cons (a b : α) (bs : List α) : partLast (a, b :: bs) = partLast (b, bs) := by
  unfold partLast
  cases bs with
  | nil => rfl
  | cons c cs => simp [List.getLast?_cons]

theorem partLast_mem (part : α × List α) : partLast part ∈ partElements part := by
  obtain ⟨a, bs⟩ := part
  induction bs generalizing a with
  | nil => exact List.mem_cons_self
  | cons b bs ih =>
    rw [partLast_cons]
    exact List.mem_cons_of_mem _ (ih b)

/-- An element of a part is the last one, or another element of the part stands behind it. -/
theorem eq_partLast_or_follows (h : a ∈ partElements part) :
    a = partLast part ∨ ∃ b, Follows (partElements part) a b := by
  obtain ⟨c, bs⟩ := part
  induction bs generalizing c with
  | nil => exact .inl (by simpa [partElements, partLast] using h)
  | cons b bs ih =>
    rcases List.mem_cons.1 h with rfl | h
    · exact .inr ⟨b, .here⟩
    · rw [partLast_cons]
      rcases ih b h with hlast | ⟨d, hd⟩
      · exact .inl hlast
      · exact .inr ⟨d, .there hd⟩

/-- The parts put together are the list. -/
theorem flatten_cut (leads : α → Bool) (xs : List α) :
    (cut leads xs).flatMap partElements = xs := by
  fun_induction cut leads xs with
  | case1 => rfl
  | case2 a rest hcut ih =>
    rw [hcut] at ih
    rw [← ih]
    rfl
  | case3 a rest b bs parts hcut hb ih =>
    rw [hcut] at ih
    rw [List.flatMap_cons, ih]
    rfl
  | case4 a rest b bs parts hcut hb ih =>
    rw [hcut, List.flatMap_cons] at ih
    rw [List.flatMap_cons, ← ih]
    rfl

/-- The first part starts with the first element. -/
theorem head?_of_cut {parts : List (α × List α)} (hcut : cut leads xs = part :: parts) :
    ∃ rest, xs = part.1 :: rest := by
  have h := flatten_cut leads xs
  rw [hcut, List.flatMap_cons] at h
  exact ⟨part.2 ++ parts.flatMap partElements, by rw [← h]; rfl⟩

theorem mem_iff_mem_cut : a ∈ xs ↔ ∃ part ∈ cut leads xs, a ∈ partElements part := by
  rw [← List.mem_flatMap, flatten_cut]

/-- A part is a stretch of the list. -/
theorem exists_eq_append_of_mem_cut (h : part ∈ cut leads xs) :
    ∃ front back, xs = front ++ partElements part ++ back := by
  obtain ⟨before, behind, hcut⟩ := List.append_of_mem h
  refine ⟨before.flatMap partElements, behind.flatMap partElements, ?_⟩
  rw [← flatten_cut leads xs, hcut]
  simp

/-- Only the first element of a part leads. -/
theorem leads_eq_false_of_mem_rest (hpart : part ∈ cut leads xs) (ha : a ∈ part.2) :
    leads a = false := by
  fun_induction cut leads xs generalizing part with
  | case1 => simp at hpart
  | case2 c rest hcut ih =>
    rw [List.mem_singleton] at hpart
    subst hpart
    simp at ha
  | case3 c rest b bs parts hcut hb ih =>
    rcases List.mem_cons.1 hpart with rfl | hpart
    · simp at ha
    · exact ih (hcut ▸ hpart) ha
  | case4 c rest b bs parts hcut hb ih =>
    rcases List.mem_cons.1 hpart with rfl | hpart
    · rcases List.mem_cons.1 ha with rfl | ha
      · simpa using hb
      · have hfirst : (b, bs) ∈ cut leads rest := hcut ▸ List.mem_cons_self
        exact ih hfirst ha
    · exact ih (hcut ▸ List.mem_cons_of_mem _ hpart) ha

/-! ## §3. Neighbours and borders. -/

/-- Neighbours inside a part are neighbours in the list, and the second does not lead. -/
theorem follows_of_part (hpart : part ∈ cut leads xs) (h : Follows (partElements part) a b) :
    Follows xs a b ∧ leads b = false := by
  obtain ⟨front, back, hxs⟩ := exists_eq_append_of_mem_cut hpart
  obtain ⟨first, rest⟩ := part
  have hb : b ∈ rest := by
    cases h with
    | here => exact List.mem_cons_self
    | there h => exact h.mem_right
  exact ⟨hxs ▸ h.stretch front back, leads_eq_false_of_mem_rest hpart hb⟩

/-- Across a border stand the last element of a part and the first of the next, which leads. -/
theorem follows_of_border {i : Nat} (hi : (cut leads xs)[i]? = some part)
    (hnext : (cut leads xs)[i + 1]? = some next) :
    Follows xs (partLast part) next.1 ∧ leads next.1 = true := by
  fun_induction cut leads xs generalizing i part next with
  | case1 => simp at hi
  | case2 c rest hcut ih => simp at hnext
  | case3 c rest b bs parts hcut hb ih =>
    cases i with
    | succ i =>
      rw [← hcut] at hi hnext
      obtain ⟨hfollows, hleads⟩ := ih (i := i) (by simpa using hi) (by simpa using hnext)
      exact ⟨.there hfollows, hleads⟩
    | zero =>
      simp only [List.getElem?_cons_zero, Option.some.injEq] at hi
      simp only [Nat.zero_add, List.getElem?_cons_succ, List.getElem?_cons_zero,
        Option.some.injEq] at hnext
      subst hi hnext
      obtain ⟨tail, rfl⟩ := head?_of_cut hcut
      exact ⟨.here, hb⟩
  | case4 c rest b bs parts hcut hb ih =>
    -- joining an element to the first part moves neither the borders nor the last elements
    cases i with
    | succ i =>
      have hi' : (cut leads rest)[i + 1]? = some part := by rw [hcut]; simpa using hi
      have hnext' : (cut leads rest)[i + 1 + 1]? = some next := by rw [hcut]; simpa using hnext
      obtain ⟨hfollows, hleads⟩ := ih hi' hnext'
      exact ⟨.there hfollows, hleads⟩
    | zero =>
      simp only [List.getElem?_cons_zero, Option.some.injEq] at hi
      subst hi
      have hi' : (cut leads rest)[0]? = some (b, bs) := by rw [hcut]; rfl
      have hnext' : (cut leads rest)[0 + 1]? = some next := by rw [hcut]; simpa using hnext
      obtain ⟨hfollows, hleads⟩ := ih hi' hnext'
      rw [partLast_cons]
      exact ⟨.there hfollows, hleads⟩

/-- Neighbours in the list are neighbours in a part or stand across a border. -/
theorem part_or_border_of_follows (leads : α → Bool) (h : Follows xs a b) :
    (∃ part ∈ cut leads xs, Follows (partElements part) a b)
      ∨ ∃ (i : Nat) (part next : α × List α), (cut leads xs)[i]? = some part
          ∧ (cut leads xs)[i + 1]? = some next ∧ partLast part = a ∧ next.1 = b := by
  fun_induction cut leads xs generalizing a b with
  | case1 => cases h
  | case2 c rest hcut ih =>
    have hrest := flatten_cut leads rest
    rw [hcut] at hrest
    subst hrest
    cases h with
    | there h => cases h
  | case3 c rest d ds parts hcut hd ih =>
    obtain ⟨tail, rfl⟩ := head?_of_cut hcut
    cases h with
    | here => exact .inr ⟨0, (c, []), (d, ds), rfl, rfl, rfl, rfl⟩
    | there h =>
      rcases ih h with ⟨part, hpart, hin⟩ | ⟨i, part, next, hi, hnext, hlast, hfirst⟩
      · exact .inl ⟨part, List.mem_cons_of_mem _ (hcut ▸ hpart), hin⟩
      · rw [hcut] at hi hnext
        exact .inr ⟨i + 1, part, next, by simpa using hi, by simpa using hnext, hlast, hfirst⟩
  | case4 c rest d ds parts hcut hd ih =>
    obtain ⟨tail, rfl⟩ := head?_of_cut hcut
    cases h with
    | here => exact .inl ⟨(c, d :: ds), List.mem_cons_self, .here⟩
    | there h =>
      rcases ih h with ⟨part, hpart, hin⟩ | ⟨i, part, next, hi, hnext, hlast, hfirst⟩
      · rw [hcut] at hpart
        rcases List.mem_cons.1 hpart with rfl | hpart
        · exact .inl ⟨(c, d :: ds), List.mem_cons_self, .there hin⟩
        · exact .inl ⟨part, List.mem_cons_of_mem _ hpart, hin⟩
      · rw [hcut] at hi hnext
        cases i with
        | succ i =>
          exact .inr ⟨i + 1, part, next, by simpa using hi, by simpa using hnext, hlast, hfirst⟩
        | zero =>
          simp only [List.getElem?_cons_zero, Option.some.injEq] at hi
          subst hi
          exact .inr ⟨0, (c, d :: ds), next, rfl, by simpa using hnext,
            by rw [partLast_cons]; exact hlast, hfirst⟩

end Graph

end PatchPresence
