/-
  PatchPresence.Proofs.Descriptor — descriptors and their texts.

  A descriptor has one text, and a reader takes exactly that text off the front of what it is given. So the types
  that a reader can return are those with at most 255 dimensions and no `;` in a class name, and what it leaves is
  all that stands behind the text of what it returns, whatever that is.

  Main results:
    * `BaseType.read?_eq_some_iff`, `TypeDescriptor.read?_eq_some_iff`, `MethodDescriptor.read?_eq_some_iff` — what
      is read, and what is left.
    * `MethodDescriptor.parse?_text` — the text of what is parsed is what the parser took, and is parsed again.
-/
import Mathlib.Data.List.TakeWhile
import PatchPresence.Descriptor

namespace PatchPresence

/-! ## §1. Front parts. -/

section

variable {keep : Char → Bool} {front rest : List Char}

/-- A front part ends where the first character is that does not belong to it. -/
theorem takeWhile_append_of_stop (hfront : ∀ c ∈ front, keep c = true)
    (hrest : ∀ c, rest.head? = some c → keep c = false) : (front ++ rest).takeWhile keep = front := by
  rw [List.takeWhile_append_of_pos hfront]
  cases rest with
  | nil => exact List.append_nil front
  | cons first rest => rw [List.takeWhile_cons_of_neg (by simp [hrest first rfl]), List.append_nil]

theorem dropWhile_append_of_stop (hfront : ∀ c ∈ front, keep c = true)
    (hrest : ∀ c, rest.head? = some c → keep c = false) : (front ++ rest).dropWhile keep = rest := by
  rw [List.dropWhile_append_of_pos hfront]
  cases rest with
  | nil => rfl
  | cons first rest => exact List.dropWhile_cons_of_neg (by simp [hrest first rfl])

end

/-- What stands behind a front part does not belong to it. -/
theorem stop_of_dropWhile_eq_cons {keep : Char → Bool} {text rest : List Char} {stop : Char}
    (h : text.dropWhile keep = stop :: rest) : keep stop = false := by
  have hhead := List.head?_dropWhile_not keep text
  rwa [h] at hhead

/-! ## §2. Base types. -/

namespace BaseType

/-- A type whose text ends where it should: the first `;` ends the name of a class. -/
def IsReadable : BaseType → Prop
  | .object name => ';' ∉ name.toList
  | _ => True

/-- The text of a base type starts with a letter. -/
theorem exists_chars_eq (base : BaseType) :
    ∃ first rest, base.chars = first :: rest ∧ first ≠ '[' ∧ first ≠ ')' := by
  cases base <;> exact ⟨_, _, rfl, by decide, by decide⟩

theorem read?_chars {base : BaseType} (h : base.IsReadable) (rest : List Char) :
    read? (base.chars ++ rest) = some (base, rest) := by
  cases base with
  | object name =>
    have hname : ∀ c ∈ name.toList, (c != ';') = true := by
      intro c hc
      exact bne_iff_ne.2 fun heq => h (heq ▸ hc)
    have hstop : ∀ c, (';' :: rest).head? = some c → (c != ';') = false := by simp
    have htext : (object name).chars ++ rest = 'L' :: (name.toList ++ ';' :: rest) := by simp [chars]
    rw [htext, read?, dropWhile_append_of_stop hname hstop, takeWhile_append_of_stop hname hstop,
      String.ofList_toList]
  | _ => rfl

theorem eq_chars_of_read? {text rest : List Char} {base : BaseType} (h : read? text = some (base, rest)) :
    base.IsReadable ∧ text = base.chars ++ rest := by
  unfold read? at h
  split at h
  case h_10 tail =>
    split at h
    · next stop after hdrop =>
      obtain ⟨rfl, rfl⟩ := Prod.mk.inj (Option.some.inj h)
      -- a name takes all up to the first `;`, which is what stands behind it
      obtain rfl : stop = ';' := by simpa using stop_of_dropWhile_eq_cons hdrop
      refine ⟨?_, ?_⟩
      · intro hmem
        rw [String.toList_ofList] at hmem
        simpa using List.mem_takeWhile_imp hmem
      · have hsplit : tail.takeWhile (· != ';') ++ tail.dropWhile (· != ';') = tail :=
          List.takeWhile_append_dropWhile
        rw [hdrop] at hsplit
        rw [chars, String.toList_ofList, List.cons_append, List.append_assoc, List.singleton_append, hsplit]
    · cases h
  case h_11 => cases h
  all_goals
    obtain ⟨rfl, rfl⟩ := Prod.mk.inj (Option.some.inj h)
    exact ⟨trivial, rfl⟩

theorem read?_eq_some_iff {text rest : List Char} {base : BaseType} :
    read? text = some (base, rest) ↔ base.IsReadable ∧ text = base.chars ++ rest := by
  refine ⟨eq_chars_of_read?, ?_⟩
  rintro ⟨h, rfl⟩
  exact read?_chars h rest

end BaseType

/-! ## §3. Types. -/

namespace TypeDescriptor

/-- A type that a reader can return. -/
def IsReadable (type : TypeDescriptor) : Prop := type.dimensions ≤ maxDimensions ∧ type.base.IsReadable

/-- No type is taken for the end of a list of parameters. -/
theorem head?_chars_append_ne (type : TypeDescriptor) (rest : List Char) :
    (type.chars ++ rest).head? ≠ some ')' := by
  obtain ⟨dimensions, base⟩ := type
  cases dimensions with
  | zero =>
    obtain ⟨first, others, hchars, -, hfirst⟩ := base.exists_chars_eq
    simpa [chars, hchars] using hfirst
  | succ dimensions => simp [chars, List.replicate_succ]

/-- The brackets of a text are counted, and its base type stands behind them. -/
theorem read?_replicate_append {count : Nat} {text : List Char} (h : text.head? ≠ some '[') :
    read? (List.replicate count '[' ++ text) =
      if count ≤ maxDimensions then (BaseType.read? text).map fun found => (⟨count, found.1⟩, found.2)
      else none := by
  have hbrackets : ∀ c ∈ List.replicate count '[', (c == '[') = true := by simp
  have hstop : ∀ c, text.head? = some c → (c == '[') = false := by
    intro c hc
    exact beq_eq_false_iff_ne.2 fun heq => h (heq ▸ hc)
  rw [read?, takeWhile_append_of_stop hbrackets hstop, dropWhile_append_of_stop hbrackets hstop,
    List.length_replicate]

/-- Every text is a number of brackets and a text that starts with none. -/
theorem exists_replicate_append (text : List Char) :
    ∃ count rest, text = List.replicate count '[' ++ rest ∧ rest.head? ≠ some '[' := by
  refine ⟨(text.takeWhile (· == '[')).length, text.dropWhile (· == '['), ?_, ?_⟩
  · have hbrackets : text.takeWhile (· == '[') = List.replicate (text.takeWhile (· == '[')).length '[' := by
      rw [List.eq_replicate_iff]
      exact ⟨rfl, fun c hc => by simpa using List.mem_takeWhile_imp hc⟩
    rw [← hbrackets, List.takeWhile_append_dropWhile]
  · intro hhead
    obtain ⟨rest, hrest⟩ := List.head?_eq_some_iff.1 hhead
    exact absurd (stop_of_dropWhile_eq_cons hrest) (by decide)

theorem read?_eq_some_iff {text rest : List Char} {type : TypeDescriptor} :
    read? text = some (type, rest) ↔ type.IsReadable ∧ text = type.chars ++ rest := by
  constructor
  · intro h
    obtain ⟨count, tail, rfl, hhead⟩ := exists_replicate_append text
    rw [read?_replicate_append hhead] at h
    split at h
    · next hcount =>
      obtain ⟨⟨base, after⟩, hbase, hpair⟩ := Option.map_eq_some_iff.1 h
      obtain ⟨rfl, rfl⟩ := Prod.mk.inj hpair
      obtain ⟨hreadable, rfl⟩ := BaseType.read?_eq_some_iff.1 hbase
      exact ⟨⟨hcount, hreadable⟩, (List.append_assoc ..).symm⟩
    · cases h
  · rintro ⟨⟨hcount, hreadable⟩, rfl⟩
    have hhead : (type.base.chars ++ rest).head? ≠ some '[' := by
      obtain ⟨first, others, hchars, hfirst, -⟩ := type.base.exists_chars_eq
      simpa [hchars] using hfirst
    rw [chars, List.append_assoc, read?_replicate_append hhead, if_pos hcount, BaseType.read?_chars hreadable]
    rfl

end TypeDescriptor

/-! ## §4. Methods. -/

namespace MethodDescriptor

/-- A method that a reader can return. -/
def IsReadable (method : MethodDescriptor) : Prop :=
  (∀ type ∈ method.parameters, type.IsReadable) ∧ method.result.IsReadable

theorem readParameters?_chars {types : List TypeDescriptor} (h : ∀ type ∈ types, type.IsReadable)
    (rest : List Char) :
    readParameters? (types.flatMap TypeDescriptor.chars ++ ')' :: rest) = some (types, rest) := by
  induction types with
  | nil =>
    rw [readParameters?]
    rfl
  | cons type types ih =>
    obtain ⟨hfirst, hothers⟩ := List.forall_mem_cons.1 h
    have hread := TypeDescriptor.read?_eq_some_iff.2
      ⟨hfirst, (rfl : type.chars ++ (types.flatMap TypeDescriptor.chars ++ ')' :: rest) = _)⟩
    rw [List.flatMap_cons, List.append_assoc, readParameters?, if_neg (type.head?_chars_append_ne _)]
    -- the reader keeps the equation that its end is shown by, so the result is not rewritten but compared
    split
    · next hnone =>
      rw [hread] at hnone
      cases hnone
    · next found after hfound =>
      rw [hread] at hfound
      obtain ⟨rfl, rfl⟩ := Prod.mk.inj (Option.some.inj hfound)
      rw [ih hothers]
      rfl

theorem eq_chars_of_readParameters? {text rest : List Char} {types : List TypeDescriptor}
    (h : readParameters? text = some (types, rest)) :
    (∀ type ∈ types, type.IsReadable) ∧ text = types.flatMap TypeDescriptor.chars ++ ')' :: rest := by
  fun_induction readParameters? text generalizing types rest with
  | case1 text hhead =>
    obtain ⟨tail, rfl⟩ := List.head?_eq_some_iff.1 hhead
    obtain ⟨rfl, rfl⟩ := Prod.mk.inj (Option.some.inj h)
    exact ⟨List.forall_mem_nil _, rfl⟩
  | case2 => cases h
  | case3 text hhead type after hread ih =>
    obtain ⟨⟨others, behind⟩, hothers, hpair⟩ := Option.map_eq_some_iff.1 h
    obtain ⟨rfl, rfl⟩ := Prod.mk.inj hpair
    obtain ⟨hreadable, hafter⟩ := ih hothers
    obtain ⟨htype, htext⟩ := TypeDescriptor.read?_eq_some_iff.1 hread
    refine ⟨List.forall_mem_cons.2 ⟨htype, hreadable⟩, ?_⟩
    rw [htext, hafter, List.flatMap_cons, List.append_assoc]

theorem read?_eq_some_iff {text rest : List Char} {method : MethodDescriptor} :
    read? text = some (method, rest) ↔ method.IsReadable ∧ text = method.chars ++ rest := by
  constructor
  · intro h
    unfold read? at h
    split at h
    · next tail =>
      obtain ⟨⟨parameters, behind⟩, hparameters, h⟩ := Option.bind_eq_some_iff.1 h
      obtain ⟨⟨result, after⟩, hresult, h⟩ := Option.bind_eq_some_iff.1 h
      obtain ⟨rfl, rfl⟩ := Prod.mk.inj (Option.some.inj h)
      obtain ⟨hall, rfl⟩ := eq_chars_of_readParameters? hparameters
      obtain ⟨hreadable, rfl⟩ := TypeDescriptor.read?_eq_some_iff.1 hresult
      exact ⟨⟨hall, hreadable⟩, by simp [chars]⟩
    · cases h
  · rintro ⟨⟨hall, hreadable⟩, rfl⟩
    have htext : method.chars ++ rest
        = '(' :: (method.parameters.flatMap TypeDescriptor.chars ++ ')' :: (method.result.chars ++ rest)) := by
      simp [chars]
    rw [htext, read?, readParameters?_chars hall]
    show (TypeDescriptor.read? (method.result.chars ++ rest)).bind _ = _
    rw [TypeDescriptor.read?_eq_some_iff.2 ⟨hreadable, rfl⟩]
    rfl

end MethodDescriptor

/-! ## §5. Texts. -/

theorem TypeDescriptor.toList_text (type : TypeDescriptor) : type.text.toList = type.chars :=
  String.toList_ofList

/-- Descriptor text of a method: the texts of the parameters between parentheses, then that of the result. -/
def MethodDescriptor.text (method : MethodDescriptor) : String :=
  "(" ++ String.join (method.parameters.map TypeDescriptor.text) ++ ")" ++ method.result.text

theorem MethodDescriptor.toList_text (method : MethodDescriptor) : method.text.toList = method.chars := by
  have hparameters : (String.join (method.parameters.map TypeDescriptor.text)).toList
      = method.parameters.flatMap TypeDescriptor.chars := by
    rw [String.toList_join, List.flatMap_map]
    simp only [TypeDescriptor.toList_text]
  unfold text chars
  simp only [String.toList_append, hparameters, TypeDescriptor.toList_text]
  simp

/-- What a reader finds in a text is found by its own text, which is the part that was taken. -/
theorem exists_rest_of_read? {α : Type} {read? : List Char → Option (α × List Char)} {write : α → String}
    {isReadable : α → Prop}
    (hread : ∀ a text rest, read? text = some (a, rest) ↔ isReadable a ∧ text = (write a).toList ++ rest)
    {text : String} {a : α} (h : (read? text.toList).map Prod.fst = some a) :
    ∃ rest : String, text = write a ++ rest ∧ read? text.toList = some (a, rest.toList)
      ∧ (read? (write a).toList).map Prod.fst = some a := by
  obtain ⟨⟨found, behind⟩, hfound, rfl⟩ := Option.map_eq_some_iff.1 h
  obtain ⟨hreadable, htext⟩ := (hread _ _ _).1 hfound
  refine ⟨String.ofList behind, ?_, ?_, ?_⟩
  · rw [← String.toList_inj, String.toList_append, String.toList_ofList, htext]
  · rw [String.toList_ofList, hfound]
  · rw [(hread found _ []).2 ⟨hreadable, (List.append_nil _).symm⟩]
    rfl

/-- What is parsed of a text has as its own text the part that was taken off the front, and is parsed again from
    that part. Every type with at most 255 dimensions and no `;` in its name, and every method of such types, is
    parsed from its text, whatever stands behind it. -/
theorem parse?_descriptorText (text : String) :
    (∀ type, TypeDescriptor.parse? text = some type →
        ∃ rest : String, text = type.text ++ rest ∧ TypeDescriptor.read? text.toList = some (type, rest.toList)
          ∧ TypeDescriptor.parse? type.text = some type)
      ∧ (∀ method, MethodDescriptor.parse? text = some method →
        ∃ rest : String, text = method.text ++ rest
          ∧ MethodDescriptor.read? text.toList = some (method, rest.toList)
          ∧ MethodDescriptor.parse? method.text = some method)
      ∧ (∀ type : TypeDescriptor, type.IsReadable → TypeDescriptor.parse? (type.text ++ text) = some type)
      ∧ ∀ method : MethodDescriptor, method.IsReadable →
        MethodDescriptor.parse? (method.text ++ text) = some method := by
  refine ⟨fun type => ?_, fun method => ?_, fun type htype => ?_, fun method hmethod => ?_⟩
  · have hread : ∀ (type : TypeDescriptor) (text rest : List Char), TypeDescriptor.read? text = some (type, rest)
        ↔ type.IsReadable ∧ text = type.text.toList ++ rest := by
      intro type text rest
      rw [TypeDescriptor.read?_eq_some_iff, type.toList_text]
    exact exists_rest_of_read? hread
  · have hread : ∀ (method : MethodDescriptor) (text rest : List Char),
        MethodDescriptor.read? text = some (method, rest)
          ↔ method.IsReadable ∧ text = method.text.toList ++ rest := by
      intro method text rest
      rw [MethodDescriptor.read?_eq_some_iff, method.toList_text]
    exact exists_rest_of_read? hread
  · rw [TypeDescriptor.parse?, String.toList_append, type.toList_text,
      TypeDescriptor.read?_eq_some_iff.2 ⟨htype, rfl⟩]
    rfl
  · rw [MethodDescriptor.parse?, String.toList_append, method.toList_text,
      MethodDescriptor.read?_eq_some_iff.2 ⟨hmethod, rfl⟩]
    rfl

theorem parse?_descriptorText_trailing :
    (TypeDescriptor.parse? "[[La;I" = some ⟨2, .object "a"⟩
        ∧ ∃ rest : String, "[[La;I" = (TypeDescriptor.mk 2 (.object "a")).text ++ rest)
      ∧ MethodDescriptor.parse? "(I[L;V)[Vx" = some ⟨[⟨0, .int⟩, ⟨1, .object ""⟩, ⟨0, .void⟩], ⟨1, .void⟩⟩
      ∧ MethodDescriptor.parse? (MethodDescriptor.mk [⟨0, .int⟩, ⟨1, .object ""⟩, ⟨0, .void⟩] ⟨1, .void⟩).text
        = some ⟨[⟨0, .int⟩, ⟨1, .object ""⟩, ⟨0, .void⟩], ⟨1, .void⟩⟩ := by
  have htype : TypeDescriptor.parse? "[[La;I" = some ⟨2, .object "a"⟩ := by decide +kernel
  have hmethod : MethodDescriptor.parse? "(I[L;V)[Vx"
      = some ⟨[⟨0, .int⟩, ⟨1, .object ""⟩, ⟨0, .void⟩], ⟨1, .void⟩⟩ := by decide +kernel
  obtain ⟨rest, hrest, -⟩ := (parse?_descriptorText _).1 _ htype
  obtain ⟨-, -, -, hagain⟩ := (parse?_descriptorText _).2.1 _ hmethod
  exact ⟨⟨htype, rest, hrest⟩, hmethod, hagain⟩

end PatchPresence
