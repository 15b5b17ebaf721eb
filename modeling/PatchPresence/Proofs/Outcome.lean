/-
  PatchPresence.Proofs.Outcome — taking apart computations that can fail.

  A success of a chain or a loop is a success of every link: each lemma hands out the values in between.
  A failure of a chain or a loop is a failure of some link, behind links that succeed. A change of the errors
  alone passes through chains and loops.
-/
import PatchPresence.Error

namespace PatchPresence

variable {α β : Type}

/-- A success can be decided by its value alone. -/
theorem eq_ok_of_toOption {ε : Type} {x : Except ε α} {a : α} (h : x.toOption = some a) : x = .ok a := by
  cases x with
  | error e => cases h
  | ok b => exact congrArg Except.ok (Option.some.inj h)

/-- A chain succeeds when its first part does and the rest does on its value. -/
theorem bind_eq_ok_iff {ε : Type} {x : Except ε α} {f : α → Except ε β} {b : β} :
    (x >>= f) = .ok b ↔ ∃ a, x = .ok a ∧ f a = .ok b := by
  cases x with
  | error e => simp [bind, Except.bind]
  | ok a => simp [bind, Except.bind]

/-- A loop of checks passes when every check does. -/
theorem forM_eq_ok_iff {f : α → Outcome Unit} (xs : List α) :
    xs.forM f = .ok () ↔ ∀ x ∈ xs, f x = .ok () := by
  induction xs with
  | nil => simp [pure, Except.pure]
  | cons x xs ih =>
    rw [List.forM_eq_forM, List.forM_cons, bind_eq_ok_iff]
    rw [List.forM_eq_forM] at ih
    rw [List.forall_mem_cons, ← ih]
    constructor
    · rintro ⟨⟨⟩, hx, hxs⟩
      exact ⟨hx, hxs⟩
    · rintro ⟨hx, hxs⟩
      exact ⟨(), hx, hxs⟩

/-- A loop that maps succeeds when its first step and the rest of it do. -/
theorem mapM_cons_eq_ok_iff {f : α → Outcome β} {x : α} {xs : List α} {ys : List β} :
    (x :: xs).mapM f = .ok ys ↔ ∃ y zs, f x = .ok y ∧ xs.mapM f = .ok zs ∧ ys = y :: zs := by
  rw [List.mapM_cons, bind_eq_ok_iff]
  constructor
  · rintro ⟨y, hy, hrest⟩
    obtain ⟨zs, hzs, hcons⟩ := bind_eq_ok_iff.1 hrest
    simp only [pure, Except.pure, Except.ok.injEq] at hcons
    exact ⟨y, zs, hy, hzs, hcons.symm⟩
  · rintro ⟨y, zs, hy, hzs, rfl⟩
    exact ⟨y, hy, bind_eq_ok_iff.2 ⟨zs, hzs, rfl⟩⟩

/-- A loop that maps succeeds with one value for each element, in order. -/
theorem getElem?_of_mapM_eq_ok {f : α → Outcome β} {xs : List α} {ys : List β}
    (h : xs.mapM f = .ok ys) :
    ys.length = xs.length
      ∧ ∀ (i : Nat) (y : β), ys[i]? = some y → ∃ x, xs[i]? = some x ∧ f x = .ok y := by
  induction xs generalizing ys with
  | nil =>
    simp only [List.mapM_nil, pure, Except.pure, Except.ok.injEq] at h
    subst h
    simp
  | cons x xs ih =>
    obtain ⟨y, zs, hy, hzs, rfl⟩ := mapM_cons_eq_ok_iff.1 h
    obtain ⟨hlen, hat⟩ := ih hzs
    refine ⟨by simp [hlen], fun i z hz => ?_⟩
    cases i with
    | zero => exact ⟨x, rfl, by simpa using (Option.some.inj hz) ▸ hy⟩
    | succ i => exact hat i z (by simpa using hz)

/-- A loop over mapped elements succeeds when each step that succeeded does so on the mapped element. -/
theorem mapM_map_eq_ok {γ δ : Type} {f : α → Outcome β} {g : γ → Outcome δ} (inner : α → γ)
    (outer : β → δ) {xs : List α} {ys : List β}
    (hstep : ∀ x ∈ xs, ∀ y, f x = .ok y → g (inner x) = .ok (outer y)) (h : xs.mapM f = .ok ys) :
    (xs.map inner).mapM g = .ok (ys.map outer) := by
  induction xs generalizing ys with
  | nil =>
    simp only [List.mapM_nil, pure, Except.pure, Except.ok.injEq] at h
    subst h
    rfl
  | cons x xs ih =>
    obtain ⟨y, zs, hy, hzs, rfl⟩ := mapM_cons_eq_ok_iff.1 h
    obtain ⟨hfirst, hlater⟩ := List.forall_mem_cons.1 hstep
    exact mapM_cons_eq_ok_iff.2 ⟨outer y, zs.map outer, hfirst y hy, ih hlater hzs, rfl⟩

/-- What each step keeps of its element, the whole loop keeps. -/
theorem map_of_mapM_eq_ok {γ : Type} {f : α → Outcome β} {before : α → γ} {after : β → γ}
    (hstep : ∀ x y, f x = .ok y → after y = before x) {xs : List α} {ys : List β}
    (h : xs.mapM f = .ok ys) : ys.map after = xs.map before := by
  induction xs generalizing ys with
  | nil =>
    simp only [List.mapM_nil, pure, Except.pure, Except.ok.injEq] at h
    subst h
    rfl
  | cons x xs ih =>
    obtain ⟨y, zs, hy, hzs, rfl⟩ := mapM_cons_eq_ok_iff.1 h
    rw [List.map_cons, List.map_cons, hstep x y hy, ih hzs]

/-- A loop succeeds when every step does. -/
theorem exists_mapM_eq_ok {f : α → Outcome β} {xs : List α} (h : ∀ x ∈ xs, ∃ y, f x = .ok y) :
    ∃ ys, xs.mapM f = .ok ys := by
  induction xs with
  | nil => exact ⟨[], rfl⟩
  | cons x xs ih =>
    obtain ⟨hfirst, hlater⟩ := List.forall_mem_cons.1 h
    obtain ⟨y, hy⟩ := hfirst
    obtain ⟨ys, hys⟩ := ih hlater
    exact ⟨y :: ys, mapM_cons_eq_ok_iff.2 ⟨y, ys, hy, hys, rfl⟩⟩

/-- What a loop that maps yields is what it yields on some element. -/
theorem mem_of_mapM_eq_ok {f : α → Outcome β} {xs : List α} {ys : List β}
    (h : xs.mapM f = .ok ys) (y : β) : y ∈ ys ↔ ∃ x ∈ xs, f x = .ok y := by
  obtain ⟨hlen, hat⟩ := getElem?_of_mapM_eq_ok h
  constructor
  · intro hy
    obtain ⟨i, hi⟩ := List.mem_iff_getElem?.1 hy
    obtain ⟨x, hx, hf⟩ := hat i y hi
    exact ⟨x, List.mem_of_getElem? hx, hf⟩
  · rintro ⟨x, hx, hf⟩
    obtain ⟨i, hi⟩ := List.mem_iff_getElem?.1 hx
    have hlt : i < ys.length := hlen ▸ (List.getElem?_eq_some_iff.1 hi).1
    obtain ⟨x', hx', hf'⟩ := hat i ys[i] (List.getElem?_eq_getElem hlt)
    rw [hi, Option.some.injEq] at hx'
    subst hx'
    rw [hf, Except.ok.injEq] at hf'
    exact hf' ▸ List.getElem_mem hlt

/-! Computations that fail in some ways only. -/

/-- Every failure of a computation is of a kind. -/
def FailsWith (kind : AnalysisError → Prop) (x : Outcome α) : Prop := ∀ error, x = .error error → kind error

namespace FailsWith

variable {kind : AnalysisError → Prop}

theorem ok (a : α) : FailsWith kind (.ok a) := fun _ h => nomatch h

theorem error {error : AnalysisError} (h : kind error) : FailsWith kind (.error error : Outcome α) := by
  intro other hother
  exact Except.error.inj hother ▸ h

/-- A chain fails in its first part, or in the rest on the value of the first part. -/
theorem bind {x : Outcome α} {f : α → Outcome β} (hx : FailsWith kind x)
    (hf : ∀ a, x = .ok a → FailsWith kind (f a)) : FailsWith kind (x >>= f) := by
  cases x with
  | error e => exact .error (hx e rfl)
  | ok a => exact hf a rfl

theorem forM {f : α → Outcome Unit} {xs : List α} (h : ∀ x ∈ xs, FailsWith kind (f x)) :
    FailsWith kind (xs.forM f) := by
  induction xs with
  | nil => exact .ok ()
  | cons x xs ih =>
    obtain ⟨hfirst, hlater⟩ := List.forall_mem_cons.1 h
    exact .bind hfirst fun _ _ => ih hlater

theorem mapM {f : α → Outcome β} {xs : List α} (h : ∀ x ∈ xs, FailsWith kind (f x)) :
    FailsWith kind (xs.mapM f) := by
  induction xs with
  | nil => exact .ok []
  | cons x xs ih =>
    obtain ⟨hfirst, hlater⟩ := List.forall_mem_cons.1 h
    rw [List.mapM_cons]
    exact .bind hfirst fun _ _ => .bind (ih hlater) fun _ _ => .ok _

end FailsWith

/-! Computations that differ in their errors. -/

variable (change : AnalysisError → AnalysisError)

theorem mapError_bind (x : Outcome α) (f : α → Outcome β) :
    (x >>= f).mapError change = x.mapError change >>= fun a => (f a).mapError change := by
  cases x with
  | error e => rfl
  | ok a => rfl

/-- A loop whose steps differ in their errors alone differs in its error alone. -/
theorem mapM_map_mapError {γ : Type} {f : α → Outcome β} {g : γ → Outcome β} {inner : α → γ}
    (h : ∀ x, g (inner x) = (f x).mapError change) (xs : List α) :
    (xs.map inner).mapM g = (xs.mapM f).mapError change := by
  induction xs with
  | nil => rfl
  | cons x xs ih =>
    rw [List.map_cons, List.mapM_cons, List.mapM_cons, mapError_bind, h, ih]
    congr 1
    funext y
    rw [mapError_bind]
    rfl

end PatchPresence
