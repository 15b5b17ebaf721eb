/-
  PatchPresence.Descriptor — JVM descriptors of types and methods.

  A reader takes the longest descriptor at the front of the text and leaves the rest; what follows a
  complete descriptor is not looked at. The readers follow the grammar of the package for class files that
  descriptors are left to, which is not part of this program.
-/
namespace PatchPresence

/-! ## §1. Types. -/

/-- A type that is no array. -/
inductive BaseType
  | byte
  | char
  | double
  | float
  | int
  | long
  | short
  | boolean
  | void
  /-- A class by its internal name. -/
  | object (name : String)
deriving DecidableEq, Repr

/-- A type: a base type under a number of array dimensions. -/
structure TypeDescriptor where
  /-- Number of array dimensions, zero for a base type. -/
  dimensions : Nat
  base : BaseType
deriving DecidableEq, Repr

/-- Parameter types and return type of a method. -/
structure MethodDescriptor where
  parameters : List TypeDescriptor
  result : TypeDescriptor
deriving DecidableEq, Repr

/-- Arrays have at most 255 dimensions. -/
def maxDimensions : Nat := 255

/-! ## §2. Text. -/

/-- Characters of a base type. -/
def BaseType.chars : BaseType → List Char
  | .byte => ['B']
  | .char => ['C']
  | .double => ['D']
  | .float => ['F']
  | .int => ['I']
  | .long => ['J']
  | .short => ['S']
  | .boolean => ['Z']
  | .void => ['V']
  | .object name => 'L' :: (name.toList ++ [';'])

/-- Characters of a type: one bracket per dimension, then the base type. -/
def TypeDescriptor.chars (type : TypeDescriptor) : List Char :=
  List.replicate type.dimensions '[' ++ type.base.chars

/-- Descriptor text of a type. -/
def TypeDescriptor.text (type : TypeDescriptor) : String := String.ofList type.chars

/-- Characters of a method descriptor. -/
def MethodDescriptor.chars (method : MethodDescriptor) : List Char :=
  '(' :: (method.parameters.flatMap TypeDescriptor.chars ++ ')' :: method.result.chars)

/-! ## §3. Reading. -/

/-- The base type at the front of the text, with the rest. A class name ends at the first `;` and
    may hold anything else. -/
def BaseType.read? : List Char → Option (BaseType × List Char)
  | 'B' :: rest => some (.byte, rest)
  | 'C' :: rest => some (.char, rest)
  | 'D' :: rest => some (.double, rest)
  | 'F' :: rest => some (.float, rest)
  | 'I' :: rest => some (.int, rest)
  | 'J' :: rest => some (.long, rest)
  | 'S' :: rest => some (.short, rest)
  | 'Z' :: rest => some (.boolean, rest)
  | 'V' :: rest => some (.void, rest)
  | 'L' :: rest =>
    match rest.dropWhile (· != ';') with
    | _ :: after => some (.object (String.ofList (rest.takeWhile (· != ';'))), after)
    | [] => none
  | _ => none

/-- The type at the front of the text, with the rest. -/
def TypeDescriptor.read? (text : List Char) : Option (TypeDescriptor × List Char) :=
  let dimensions := (text.takeWhile (· == '[')).length
  if dimensions ≤ maxDimensions then
    (BaseType.read? (text.dropWhile (· == '['))).map fun (base, rest) => (⟨dimensions, base⟩, rest)
  else
    none

/-- Dropping a front part never makes a text longer. -/
theorem length_dropWhile_le {α : Type} (keep : α → Bool) (text : List α) :
    (text.dropWhile keep).length ≤ text.length := by
  induction text with
  | nil => simp
  | cons a rest ih =>
    simp only [List.dropWhile]
    split
    · simp only [List.length_cons]; omega
    · simp

/-- A base type takes at least one character. -/
theorem BaseType.length_lt_of_read? {text rest : List Char} {base : BaseType}
    (h : BaseType.read? text = some (base, rest)) : rest.length < text.length := by
  unfold BaseType.read? at h
  split at h
  case h_10 tail =>
    have hle := length_dropWhile_le (· != ';') tail
    split at h
    · rename_i after heq
      rw [heq] at hle
      simp only [Option.some.injEq, Prod.mk.injEq] at h
      obtain ⟨_, rfl⟩ := h
      simp only [List.length_cons] at hle ⊢
      omega
    · simp at h
  all_goals
    first
      | (simp only [Option.some.injEq, Prod.mk.injEq] at h
         obtain ⟨_, rfl⟩ := h
         simp)
      | simp at h

/-- A type takes at least one character. -/
theorem TypeDescriptor.length_lt_of_read? {text rest : List Char} {type : TypeDescriptor}
    (h : TypeDescriptor.read? text = some (type, rest)) : rest.length < text.length := by
  unfold TypeDescriptor.read? at h
  dsimp only at h
  split at h
  · obtain ⟨⟨base, after⟩, hread, hpair⟩ := Option.map_eq_some_iff.1 h
    simp only [Prod.mk.injEq] at hpair
    obtain ⟨_, rfl⟩ := hpair
    have hlt := BaseType.length_lt_of_read? hread
    have hle := length_dropWhile_le (· == '[') text
    omega
  · simp at h

/-- The types up to the closing parenthesis, with the text behind it. -/
def MethodDescriptor.readParameters? (text : List Char) :
    Option (List TypeDescriptor × List Char) :=
  if text.head? = some ')' then
    some ([], text.tail)
  else
    match _h : TypeDescriptor.read? text with
    | none => none
    | some (type, rest) =>
      (readParameters? rest).map fun (types, after) => (type :: types, after)
termination_by text.length
decreasing_by exact TypeDescriptor.length_lt_of_read? _h

/-- The method descriptor at the front of the text, with the rest. -/
def MethodDescriptor.read? : List Char → Option (MethodDescriptor × List Char)
  | '(' :: text => do
    let (parameters, afterParameters) ← readParameters? text
    let (result, rest) ← TypeDescriptor.read? afterParameters
    return (⟨parameters, result⟩, rest)
  | _ => none

/-- The type that a text starts with. -/
def TypeDescriptor.parse? (text : String) : Option TypeDescriptor :=
  (TypeDescriptor.read? text.toList).map Prod.fst

/-- The method descriptor that a text starts with. -/
def MethodDescriptor.parse? (text : String) : Option MethodDescriptor :=
  (MethodDescriptor.read? text.toList).map Prod.fst

end PatchPresence
