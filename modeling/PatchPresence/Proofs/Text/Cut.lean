/-
  PatchPresence.Proofs.Text.Cut — what is read of a text that was put together from known parts.

  Main results:
    * `cut?_append` — a text is cut behind the part in which the separator cannot start.
    * `lines_unlines` — lines written with their ends are read back, up to a carriage return at the end.
    * `lines_append` — a part of a text that ends a line shares no line with what follows.
    * `natural?_numeral` — a number below 2^64 is read back from its decimal numeral.
-/
import PatchPresence.Text.Blank
import PatchPresence.Text.Cut

namespace PatchPresence.Text

/-! ## §1. Leading words and separators. -/

@[simp] theorem after?_append (word text : List Char) : after? word (word ++ text) = some text := by
  induction word with
  | nil => rfl
  | cons w word ih =>
    show (if w = w then after? word (word ++ text) else none) = some text
    rw [if_pos rfl, ih]

theorem after?_cons_of_ne {w c : Char} (h : w ≠ c) (word text : List Char) :
    after? (w :: word) (c :: text) = none :=
  if_neg h

theorem isPrefix_of_after? {word text rest : List Char} (h : after? word text = some rest) : word <+: text := by
  induction word generalizing text with
  | nil => exact List.nil_prefix
  | cons w word ih =>
    cases text with
    | nil => cases h
    | cons c text =>
      rw [after?] at h
      split at h
      · next hc => exact List.cons_prefix_cons.2 ⟨hc, ih h⟩
      · cases h

theorem cut?_cons_of_after?_eq_none {separator text : List Char} {c : Char}
    (h : after? separator (c :: text) = none) :
    cut? separator (c :: text) =
      (cut? separator text).map fun parts => (c :: parts.1, parts.2) := by
  rw [cut?, h]

/-- The separator is not found in a part without its first character. -/
theorem cut?_skip {w : Char} {front : List Char} (h : w ∉ front) (word rest : List Char) :
    cut? (w :: word) (front ++ rest) =
      (cut? (w :: word) rest).map fun parts => (front ++ parts.1, parts.2) := by
  induction front with
  | nil => simp
  | cons c front ih =>
    have hc : w ≠ c := fun heq => h (heq ▸ List.mem_cons_self)
    have hfront : w ∉ front := fun hmem => h (List.mem_cons_of_mem c hmem)
    rw [List.cons_append, cut?_cons_of_after?_eq_none (after?_cons_of_ne hc _ _), ih hfront,
      Option.map_map]
    rfl

theorem cut?_append {w : Char} {front : List Char} (h : w ∉ front) (word rest : List Char) :
    cut? (w :: word) (front ++ (w :: word ++ rest)) = some (front, rest) := by
  have hfound : cut? (w :: word) (w :: word ++ rest) = some ([], rest) := by
    rw [List.cons_append, cut?, ← List.cons_append, after?_append]
  rw [cut?_skip h, hfound, Option.map_some, List.append_nil]

/-- Text that does not end in white space is not trimmed. -/
theorem trimEnd_concat {last : Char} (h : isBlank last = false) (text : List Char) :
    trimEnd (text ++ [last]) = text ++ [last] := by
  simp [trimEnd, h]

/-! ## §2. Lines. -/

/-- A line as it is read: without a carriage return at its end. -/
def chomp (line : List Char) : List Char := (dropReturn line.reverse).reverse

/-- The text of lines, each with its end. -/
def unlines (lines : List (List Char)) : List Char := lines.flatMap (· ++ ['\n'])

theorem chomp_concat {last : Char} (h : last ≠ '\r') (line : List Char) :
    chomp (line ++ [last]) = line ++ [last] := by
  have hkept : dropReturn (last :: line.reverse) = last :: line.reverse := by
    unfold dropReturn
    split
    · rename_i heq
      exact absurd (List.cons.inj heq).1 h
    · rfl
  rw [chomp, List.reverse_concat, hkept, List.reverse_cons, List.reverse_reverse]

/-- The first character of a line stays, unless it is a carriage return. -/
theorem head?_chomp_cons {first : Char} (h : first ≠ '\r') (line : List Char) :
    (chomp (first :: line)).head? = some first := by
  -- only the last character can go, so the line is split at its end
  rcases List.eq_nil_or_concat line with rfl | ⟨front, last, rfl⟩
  · rw [show [first] = [] ++ [first] from rfl, chomp_concat h]
    rfl
  · by_cases hlast : last = '\r'
    · subst hlast
      simp [chomp, dropReturn]
    · rw [List.concat_eq_append, ← List.cons_append, chomp_concat hlast]
      rfl

theorem linesFrom_append {line : List Char} (h : '\n' ∉ line) (reversed rest : List Char) :
    linesFrom reversed (line ++ '\n' :: rest) =
      (dropReturn (line.reverse ++ reversed)).reverse :: linesFrom [] rest := by
  induction line generalizing reversed with
  | nil => rfl
  | cons c line ih =>
    have hc : c ≠ '\n' := fun heq => h (heq ▸ List.mem_cons_self)
    have hline : '\n' ∉ line := fun hmem => h (List.mem_cons_of_mem c hmem)
    rw [List.cons_append, linesFrom, ih hline]
    · simp
    · exact hc

theorem lines_unlines {written : List (List Char)} (h : ∀ line ∈ written, '\n' ∉ line) :
    lines (unlines written) = written.map chomp := by
  induction written with
  | nil => rfl
  | cons line written ih =>
    have hline : '\n' ∉ line := h line List.mem_cons_self
    have hwritten : lines (unlines written) = written.map chomp :=
      ih fun other hmem => h other (List.mem_cons_of_mem line hmem)
    rw [lines, unlines, List.flatMap_cons, List.append_assoc, List.singleton_append,
      linesFrom_append hline, List.append_nil, List.map_cons, ← hwritten]
    rfl

theorem linesFrom_append_newline (front reversed back : List Char) :
    linesFrom reversed (front ++ '\n' :: back) = linesFrom reversed (front ++ ['\n']) ++ linesFrom [] back := by
  induction front generalizing reversed with
  | nil => rfl
  | cons c front ih =>
    by_cases hc : c = '\n'
    · subst hc
      show _ :: linesFrom [] (front ++ '\n' :: back) = _ :: (linesFrom [] (front ++ ['\n']) ++ linesFrom [] back)
      rw [ih []]
    · rw [List.cons_append, List.cons_append, linesFrom, linesFrom]
      · exact ih (c :: reversed)
      · exact hc
      · exact hc

/-- A part that ends a line shares no line with what follows. -/
theorem lines_append {front : List Char} (h : front.getLast? = some '\n') (back : List Char) :
    lines (front ++ back) = lines front ++ lines back := by
  obtain ⟨start, rfl⟩ := List.getLast?_eq_some_iff.1 h
  rw [List.append_assoc]
  exact linesFrom_append_newline start [] back

/-! ## §3. Numerals. -/

/-- Decimal numeral of a number. -/
def numeral (n : Nat) : List Char := (toString n).toList

theorem numeral_eq_toDigits (n : Nat) : numeral n = Nat.toDigits 10 n := by
  show n.repr.toList = _
  rw [Nat.repr_eq_ofList_toDigits, String.toList_ofList]

theorem numeral_ne_nil (n : Nat) : numeral n ≠ [] :=
  numeral_eq_toDigits n ▸ Nat.toDigits_ne_nil

theorem isDigit_of_mem_numeral {n : Nat} {c : Char} (h : c ∈ numeral n) : c.isDigit = true :=
  Nat.isDigit_of_mem_toDigits (by decide) (by decide) (numeral_eq_toDigits n ▸ h)

theorem notMem_numeral {c : Char} (h : c.isDigit = false) (n : Nat) : c ∉ numeral n := by
  intro hmem
  rw [isDigit_of_mem_numeral hmem] at h
  exact Bool.noConfusion h

theorem digits?_append (value : Nat) (front back : List Char) :
    digits? value (front ++ back) = (digits? value front).bind (digits? · back) := by
  induction front generalizing value with
  | nil => rfl
  | cons c front ih =>
    rw [List.cons_append, digits?, digits?]
    split
    · exact ih _
    · rfl

theorem digits?_digitChar {d : Nat} (h : d < 10) (value : Nat) :
    digits? value [Nat.digitChar d] = some (10 * value + d) := by
  have hdigit : ∀ d < 10, ('0' ≤ Nat.digitChar d ∧ Nat.digitChar d ≤ '9') ∧
      (Nat.digitChar d).toNat - '0'.toNat = d := by decide
  obtain ⟨hrange, hvalue⟩ := hdigit d h
  rw [digits?, if_pos hrange, hvalue, digits?]

/-- The numeral of a number is its last digit behind the numeral of a tenth of it. -/
theorem digits?_numeral (n : Nat) : digits? 0 (numeral n) = some n := by
  rw [numeral_eq_toDigits]
  induction n using Nat.strongRecOn with
  | ind n ih =>
    rw [Nat.toDigits_eq_if (by decide)]
    split
    · rename_i hsmall
      rw [digits?_digitChar hsmall]
      simp
    · have hvalue : digits? 0 (Nat.toDigits 10 (n / 10)) = some (n / 10) := ih (n / 10) (by omega)
      rw [digits?_append, hvalue, Option.bind_some, digits?_digitChar (Nat.mod_lt n (by decide))]
      congr 1
      omega

theorem natural?_numeral {n : Nat} (h : n < UInt64.size) : natural? (numeral n) = some n := by
  obtain ⟨first, rest, hdigits⟩ := List.exists_cons_of_ne_nil (numeral_ne_nil n)
  -- no sign is dropped, since a numeral starts with a digit
  have hfirst : '+' ≠ first := by
    intro heq
    have hmem : '+' ∈ numeral n := by
      rw [hdigits, heq]
      exact List.mem_cons_self
    exact notMem_numeral (by decide) n hmem
  have hunsigned : dropWord ['+'] (numeral n) = numeral n := by
    rw [dropWord, hdigits, after?_cons_of_ne hfirst, Option.getD_none]
  have hfilled : (numeral n).isEmpty = false := by
    rw [hdigits]
    rfl
  rw [natural?, hunsigned, hfilled, digits?_numeral]
  simp [h]

end PatchPresence.Text
