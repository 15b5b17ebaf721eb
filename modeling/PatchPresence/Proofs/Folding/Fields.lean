/-
  PatchPresence.Proofs.Folding.Fields — values of final fields as a least fixed point.

  A final field may be initialised from others, in any order and over any number of steps. The rounds start
  from nothing known, fold every initialiser with what was known when the round began, and stop at a round
  that adds nothing. Since folding is monotone, a table that the rounds reach is below every closed one and
  every value in it is supported by the table itself, so that there are at most as many rounds as fields
  before nothing is left to add.

  Main results:
    * `FieldsReached.resolveFields` — the rounds end where nothing is left to add.
    * `SyntaxTree.constantFields_isLeast` — they end at the least closed table, whatever the order of the fields.
-/
import Mathlib.Logic.Relation
import PatchPresence.Proofs.Folding.Faithful
import PatchPresence.Proofs.Folding.Values

namespace PatchPresence

/-! ## §1. Closed tables. -/

/-- Every initialiser that folds to a compile-time constant, with what is known of fields and without local
    variables, has its value known at the type of its field. -/
def ClosedFields (library : LibraryConstants) (fields : List FinalField) (known : Table String Constant) :
    Prop :=
  ∀ field ∈ fields, ∀ folded value,
    (field.initializer.visit ⟨library, known⟩ .evaluate .empty).value = some folded →
      folded.compileTime = true → Constant.coerce field.type folded.value = some value →
        known.get? field.key = some value

/-- Every value that is known is that of an initialiser, with no more known than this. -/
def SupportedFields (library : LibraryConstants) (fields : List FinalField)
    (known : Table String Constant) : Prop :=
  ∀ key value, known.get? key = some value →
    ∃ field ∈ fields, field.key = key ∧ field.value? ⟨library, known⟩ = some value

/-- A field is initialised from another one that the library says nothing of. -/
def Refers (library : LibraryConstants) (fields : List FinalField) (key other : String) : Prop :=
  ∃ field ∈ fields, field.key = key ∧ field.initializer.Reads other ∧ library.get? other = none

section Rounds

variable {library : LibraryConstants} {fields : List FinalField} {known : Table String Constant}

theorem FinalField.value?_mono {more : Table String Constant} (h : known.Included more)
    {field : FinalField} {value : Constant}
    (hvalue : field.value? ⟨library, known⟩ = some value) :
    field.value? ⟨library, more⟩ = some value := by
  obtain ⟨folded, hfolded, hcoerce⟩ := Option.bind_eq_some_iff.1 hvalue
  exact Option.bind_eq_some_iff.2 ⟨folded, field.initializer.value_mono h .empty folded hfolded, hcoerce⟩

theorem FinalField.value?_eq_some_iff {field : FinalField} {context : FoldContext} {value : Constant} :
    field.value? context = some value
      ↔ ∃ folded, (field.initializer.visit context .evaluate .empty).value = some folded
          ∧ folded.compileTime = true ∧ Constant.coerce field.type folded.value = some value := by
  unfold FinalField.value?
  rw [Option.bind_eq_bind, Option.bind_eq_some_iff]
  refine exists_congr fun folded => and_congr_right fun _ => ?_
  split
  · next hconstant => simp [hconstant]
  · next hvariable => simp [hvariable]

theorem closedFields_iff :
    ClosedFields library fields known
      ↔ ∀ field ∈ fields, ∀ value, field.value? ⟨library, known⟩ = some value →
          known.get? field.key = some value := by
  simp only [FinalField.value?_eq_some_iff]
  constructor
  · rintro h field hfield value ⟨folded, hfolded, hconstant, hcoerce⟩
    exact h field hfield folded value hfolded hconstant hcoerce
  · intro h field hfield folded value hfolded hconstant hcoerce
    exact h field hfield value ⟨folded, hfolded, hconstant, hcoerce⟩

/-! ## §2. Rounds. -/

/-- What a round makes of one field. -/
def offer (context : FoldContext) (known : Table String Constant) (field : FinalField) :
    Table String Constant :=
  if known.contains field.key then known
  else
    match field.value? context with
    | some value => known.insert field.key value
    | none => known

theorem resolveRound_eq_foldl :
    resolveRound library fields known = fields.foldl (offer ⟨library, known⟩) known := rfl

theorem get?_offer (context : FoldContext) (field : FinalField) (key : String) :
    (offer context known field).get? key
      = (known.get? key).or (if field.key = key then field.value? context else none) := by
  unfold offer Table.contains
  split
  · next hheld =>
    split
    · next hkey =>
      subst hkey
      exact (Option.or_of_isSome hheld).symm
    · rw [Option.or_none]
  · next hnone =>
    rw [Option.not_isSome_iff_eq_none] at hnone
    split
    · next value hvalue =>
      rw [Table.get?_insert, hvalue]
      by_cases hkey : field.key = key
      · subst hkey
        rw [if_pos rfl, if_pos rfl, hnone]
        rfl
      · rw [if_neg (Ne.symm hkey), if_neg hkey, Option.or_none]
    · next hvalue => rw [hvalue, ite_self, Option.or_none]

theorem sorted_offer (hsorted : known.Sorted) (context : FoldContext) (field : FinalField) :
    (offer context known field).Sorted := by
  unfold offer
  split
  · exact hsorted
  · split
    · exact hsorted.upsert _ _
    · exact hsorted

theorem sorted_resolveRound (hsorted : known.Sorted) : (resolveRound library fields known).Sorted := by
  rw [resolveRound_eq_foldl]
  generalize (⟨library, known⟩ : FoldContext) = context
  induction fields generalizing known with
  | nil => exact hsorted
  | cons field rest ih => exact ih (sorted_offer hsorted context field)

/-- With one field for each key, a round adds exactly the values that fold and are not known yet. -/
theorem get?_resolveRound (hkeys : (fields.map FinalField.key).Nodup) {key : String} {value : Constant} :
    (resolveRound library fields known).get? key = some value
      ↔ known.get? key = some value ∨ known.get? key = none
          ∧ ∃ field ∈ fields, field.key = key ∧ field.value? ⟨library, known⟩ = some value := by
  rw [resolveRound_eq_foldl]
  generalize (⟨library, known⟩ : FoldContext) = context
  induction fields generalizing known with
  | nil => simp
  | cons field rest ih =>
    obtain ⟨hfield, hrest⟩ := List.nodup_cons.1 hkeys
    rw [List.foldl_cons, ih hrest, get?_offer]
    by_cases hkey : field.key = key
    · -- no other field has this key
      have hothers : ¬∃ other ∈ rest, other.key = key ∧ other.value? context = some value := by
        rintro ⟨other, hother, heq, -⟩
        exact hfield (hkey ▸ heq ▸ List.mem_map_of_mem hother)
      rw [if_pos hkey]
      cases known.get? key <;> simp [hkey, hothers]
    · rw [if_neg hkey, Option.or_none]
      simp [hkey]

theorem included_resolveRound (hkeys : (fields.map FinalField.key).Nodup) :
    known.Included (resolveRound library fields known) :=
  fun _ _ hknown => (get?_resolveRound hkeys).2 (.inl hknown)

theorem supported_resolveRound (hkeys : (fields.map FinalField.key).Nodup)
    (h : SupportedFields library fields known) :
    SupportedFields library fields (resolveRound library fields known) := by
  intro key value hvalue
  obtain ⟨field, hfield, hkey, hold⟩ :
      ∃ field ∈ fields, field.key = key ∧ field.value? ⟨library, known⟩ = some value := by
    rcases (get?_resolveRound hkeys).1 hvalue with hknown | ⟨-, hnew⟩
    · exact h key value hknown
    · exact hnew
  exact ⟨field, hfield, hkey, FinalField.value?_mono (included_resolveRound hkeys) hold⟩

/-- A round stays below every closed table that what was known is below. -/
theorem resolveRound_included (hkeys : (fields.map FinalField.key).Nodup) {closed : Table String Constant}
    (hclosed : ClosedFields library fields closed) (h : known.Included closed) :
    (resolveRound library fields known).Included closed := by
  intro key value hvalue
  rcases (get?_resolveRound hkeys).1 hvalue with hknown | ⟨-, field, hfield, rfl, hnew⟩
  · exact h key value hknown
  · exact closedFields_iff.1 hclosed field hfield value (FinalField.value?_mono h hnew)

theorem FinalField.eq_of_key_eq (hkeys : (fields.map FinalField.key).Nodup) {field other : FinalField}
    (hfield : field ∈ fields) (hother : other ∈ fields) (h : field.key = other.key) : field = other :=
  List.inj_on_of_nodup_map hkeys hfield hother h

/-- Where a round adds no entry, nothing that folds is left out. -/
theorem closed_of_size_eq (hkeys : (fields.map FinalField.key).Nodup)
    (hsorted : known.Sorted) (hsupported : SupportedFields library fields known)
    (hsize : (resolveRound library fields known).size = known.size) :
    ClosedFields library fields (resolveRound library fields known) := by
  -- the round says nothing new, so initialisers fold with it as they did before it
  have hsame : (resolveRound library fields known).Included known :=
    hsorted.included_of_size_eq (included_resolveRound hkeys) hsize
  rw [closedFields_iff]
  intro field hfield value hvalue
  have hold : field.value? ⟨library, known⟩ = some value := FinalField.value?_mono hsame hvalue
  rw [get?_resolveRound hkeys]
  cases hknown : known.get? field.key with
  | none => exact .inr ⟨rfl, field, hfield, rfl, hold⟩
  | some other =>
    obtain ⟨source, hsource, hkey, hother⟩ := hsupported _ _ hknown
    rw [FinalField.eq_of_key_eq hkeys hsource hfield hkey, hold] at hother
    exact .inl hother.symm

theorem size_le_of_supported (hsorted : known.Sorted) (hsupported : SupportedFields library fields known) :
    known.size ≤ fields.length := by
  have hsubset : known.keys ⊆ fields.map FinalField.key := by
    intro key hkey
    obtain ⟨entry, hentry, rfl⟩ := List.mem_map.1 hkey
    obtain ⟨field, hfield, hkey, -⟩ := hsupported _ _ (hsorted.get?_of_mem hentry)
    exact hkey ▸ List.mem_map_of_mem hfield
  have hle := (List.Nodup.subperm (Ascending.Strict.nodup hsorted) hsubset).length_le
  rwa [List.length_map, Table.keys, List.length_map] at hle

/-- A field whose initialiser is constant with what is known refers to known fields only. -/
theorem known_of_refers (hkeys : (fields.map FinalField.key).Nodup) {field : FinalField}
    (hfield : field ∈ fields) {value : Constant} (hvalue : field.value? ⟨library, known⟩ = some value)
    {other : String} (h : Refers library fields field.key other) :
    ∃ value, known.get? other = some value := by
  obtain ⟨same, hsame, hkey, hreads, hlibrary⟩ := h
  obtain rfl := FinalField.eq_of_key_eq hkeys hsame hfield hkey
  obtain ⟨folded, hfolded, hconstant, -⟩ := FinalField.value?_eq_some_iff.1 hvalue
  exact hreads.known hlibrary hfolded hconstant

/-- What the rounds keep, whatever their number. -/
structure FieldsReached (library : LibraryConstants) (fields : List FinalField) (known : Table String Constant) :
    Prop where
  sorted : known.Sorted
  supported : SupportedFields library fields known
  least : ∀ closed, ClosedFields library fields closed → known.Included closed
  /-- From a known field references lead to an end. -/
  grounded : ∀ key value, known.get? key = some value →
    Acc (fun other key => Refers library fields key other) key

theorem fieldsReached_empty : FieldsReached library fields .empty where
  sorted := List.Pairwise.nil
  supported := fun _ _ h => by cases h
  least := fun _ _ _ _ h => by cases h
  grounded := fun _ _ h => by cases h

theorem FieldsReached.resolveRound (hkeys : (fields.map FinalField.key).Nodup)
    (h : FieldsReached library fields known) :
    FieldsReached library fields (resolveRound library fields known) where
  sorted := sorted_resolveRound h.sorted
  supported := supported_resolveRound hkeys h.supported
  least := fun closed hclosed => resolveRound_included hkeys hclosed (h.least closed hclosed)
  grounded := by
    intro key value hvalue
    rcases (get?_resolveRound hkeys).1 hvalue with hknown | ⟨-, field, hfield, rfl, hnew⟩
    · exact h.grounded key value hknown
    · refine ⟨_, fun other hother => ?_⟩
      obtain ⟨otherValue, hotherValue⟩ := known_of_refers hkeys hfield hnew hother
      exact h.grounded other otherValue hotherValue

/-- With more rounds than fields that are still unknown, the rounds end where nothing is left to add. -/
theorem FieldsReached.resolveFields (hkeys : (fields.map FinalField.key).Nodup) {fuel : Nat}
    (h : FieldsReached library fields known) (hfuel : fields.length < known.size + fuel) :
    FieldsReached library fields (resolveFields library fields fuel known)
      ∧ ClosedFields library fields (resolveFields library fields fuel known) := by
  induction fuel generalizing known with
  | zero =>
    -- all rounds used up would mean more known fields than there are
    have hle := size_le_of_supported h.sorted h.supported
    omega
  | succ fuel ih =>
    unfold PatchPresence.resolveFields
    dsimp only
    split
    · next hsize => exact ⟨h.resolveRound hkeys, closed_of_size_eq hkeys h.sorted h.supported hsize⟩
    · next hsize =>
      refine ih (h.resolveRound hkeys) ?_
      -- a round that is not the last adds an entry
      have hle : known.size ≤ (PatchPresence.resolveRound library fields known).size :=
        (h.sorted.subperm_entries (included_resolveRound hkeys)).length_le
      omega

/-- References lead from a known field to no cycle. -/
theorem FieldsReached.not_cyclic (h : FieldsReached library fields known) {key : String} {value : Constant}
    (hvalue : known.get? key = some value) : ¬ Relation.TransGen (Refers library fields) key key := by
  have hacc := h.grounded key value hvalue
  clear hvalue
  induction hacc with
  | intro key _ ih =>
    intro hcycle
    -- the next field on the cycle is on a cycle too
    obtain ⟨next, hstep, hback⟩ := Relation.TransGen.head'_iff.1 hcycle
    exact ih next hstep (.tail' hback hstep)

end Rounds

/-! ## §3. Other orders of declaration. -/

namespace FinalField

/-- A field without the positions in its initialiser. -/
def shape (field : FinalField) : FinalField := { field with initializer := field.initializer.shape }

theorem value?_shape (field : FinalField) (context : FoldContext) :
    field.shape.value? context = field.value? context := by
  unfold value?
  rw [shape, Term.value_shape]

end FinalField

theorem closedFields_shape {library : LibraryConstants} {fields : List FinalField}
    {known : Table String Constant} :
    ClosedFields library (fields.map FinalField.shape) known ↔ ClosedFields library fields known := by
  rw [closedFields_iff, closedFields_iff, List.forall_mem_map]
  simp only [FinalField.value?_shape]
  rfl

/-- What is closed hangs on the shapes of the fields and not on their order. -/
theorem closedFields_congr {library : LibraryConstants} {fields others : List FinalField}
    (h : (fields.map FinalField.shape).Perm (others.map FinalField.shape)) {known : Table String Constant} :
    ClosedFields library fields known ↔ ClosedFields library others known := by
  rw [← closedFields_shape, ← @closedFields_shape _ others]
  unfold ClosedFields
  simp only [h.mem_iff]

namespace SyntaxTree

/-- The final field that a node declares in a class. -/
def finalFieldIn? (tree : SyntaxTree) (owner? : Option String) (id : Nat) : Option FinalField := do
  match ← tree.kind? id with
  | .fieldDecl name type _ true =>
    let initializer ← tree.term? (← (tree.children id).head?)
    let owner ← owner?
    return ⟨LibraryConstants.fieldKey owner name, type, initializer⟩
  | _ => none

theorem finalFields_eq (tree : SyntaxTree) :
    tree.finalFields = (List.range tree.size).filterMap fun id => tree.finalFieldIn? (tree.className? id) id :=
  rfl

variable {tree other : SyntaxTree} {place : Nat → Nat}

theorem Rearrangement.shape_finalFieldIn? (h : Rearrangement place tree other) (htree : tree.IsForest)
    (owner? : Option String) {id : Nat} (hid : id < tree.size) :
    (other.finalFieldIn? owner? (place id)).map FinalField.shape
      = (tree.finalFieldIn? owner? id).map FinalField.shape := by
  unfold finalFieldIn?
  rw [h.kind_eq id hid]
  -- of all kinds only a final field looks further, at its first child and at its class
  cases hkind : tree.kind? id with
  | none => rfl
  | some kind =>
    cases kind with
    | fieldDecl name type isStatic isFinal =>
      cases isFinal with
      | false => rfl
      | true =>
        have hplain : tree.has NodeKind.isClass id = false := by
          rw [has, hkind]
          rfl
        rw [h.children_eq id hid hplain, List.head?_map]
        cases hhead : (tree.children id).head? with
        | none => rfl
        | some first =>
          have hterm := h.shape_term? htree (htree.lt_of_child (List.mem_of_mem_head? hhead))
          simp only [Option.map_some, Option.bind_eq_bind, Option.bind_some]
          generalize other.term? (place first) = moved at hterm
          generalize tree.term? first = initializer at hterm
          cases moved with
          | none =>
            cases initializer with
            | none => rfl
            | some term => cases hterm
          | some moved =>
            cases initializer with
            | none => cases hterm
            | some term =>
              have hshape : moved.shape = term.shape := Option.some.inj hterm
              cases owner? with
              | none => rfl
              | some owner =>
                show some (FinalField.shape _) = some (FinalField.shape _)
                unfold FinalField.shape
                rw [hshape]
    | _ => rfl

theorem Rearrangement.perm_finalFields (h : Rearrangement place tree other) (htree : tree.IsForest)
    (hother : other.IsForest) :
    (other.finalFields.map FinalField.shape).Perm (tree.finalFields.map FinalField.shape) := by
  rw [finalFields_eq, finalFields_eq, List.map_filterMap, List.map_filterMap]
  refine (h.perm_map_place.symm.filterMap _).trans (List.Perm.of_eq ?_)
  rw [List.filterMap_map]
  refine List.filterMap_congr fun id hid => ?_
  have hid : id < tree.size := List.mem_range.1 hid
  show (other.finalFieldIn? (other.className? (place id)) (place id)).map FinalField.shape = _
  rw [h.className?_place htree hother hid]
  exact h.shape_finalFieldIn? htree _ hid

/-- With one field for each key, there are rounds enough for all fields. -/
theorem fieldsReached_constantFields (library : LibraryConstants)
    (hkeys : (tree.finalFields.map FinalField.key).Nodup) :
    FieldsReached library tree.finalFields (tree.constantFields library)
      ∧ ClosedFields library tree.finalFields (tree.constantFields library) := by
  refine fieldsReached_empty.resolveFields hkeys ?_
  show tree.finalFields.length < 0 + (tree.finalFields.length + 1)
  omega

/-- The values of final fields are the least table that is closed under folding: nothing that folds is left out,
    nothing else is in, fields on a cycle of references have no value, and the order of the declarations does
    not matter. -/
theorem constantFields_isLeast {tree : SyntaxTree} (hvalid : tree.validate = .ok ())
    (library : LibraryConstants) (hkeys : (tree.finalFields.map FinalField.key).Nodup) :
    ClosedFields library tree.finalFields (tree.constantFields library)
      ∧ (∀ known, ClosedFields library tree.finalFields known →
          (tree.constantFields library).Included known)
      ∧ (∀ key, Relation.TransGen (Refers library tree.finalFields) key key →
          (tree.constantFields library).get? key = none)
      ∧ ∀ place other, other.validate = .ok () → Rearrangement place tree other →
          other.constantFields library = tree.constantFields library := by
  obtain ⟨hreached, hclosed⟩ := fieldsReached_constantFields library hkeys
  refine ⟨hclosed, hreached.least, fun key hcycle => ?_, fun place other hother h => ?_⟩
  · cases hvalue : (tree.constantFields library).get? key with
    | none => rfl
    | some value => exact absurd hcycle (hreached.not_cyclic hvalue)
  · have hperm := h.perm_finalFields (validate_eq_ok_iff.1 hvalid) (validate_eq_ok_iff.1 hother)
    have hotherKeys : (other.finalFields.map FinalField.key).Nodup := by
      have hsame : (other.finalFields.map FinalField.key).Perm (tree.finalFields.map FinalField.key) := by
        have hmapped := hperm.map FinalField.key
        rwa [List.map_map, List.map_map] at hmapped
      exact hsame.nodup_iff.2 hkeys
    obtain ⟨hotherReached, hotherClosed⟩ := fieldsReached_constantFields library hotherKeys
    -- both tables are below each other, since what is closed for one order is closed for the other
    exact hotherReached.sorted.eq_of_included hreached.sorted
      (hotherReached.least _ ((closedFields_congr hperm).2 hclosed))
      (hreached.least _ ((closedFields_congr hperm).1 hotherClosed))

/-- A class with `TOTAL = BASE + 1`, `BASE = 2`, `LEFT = RIGHT` and `RIGHT = LEFT`. -/
def limits : SyntaxTree := ofKinds [
  (none, .classDecl "Limits"), (some 0, .fieldDecl "TOTAL" "int" true true), (some 1, .binary .add),
  (some 2, .fieldRead "Limits" "BASE" true), (some 2, .literal (.int 1)),
  (some 0, .fieldDecl "BASE" "int" true true), (some 5, .literal (.int 2)),
  (some 0, .fieldDecl "LEFT" "int" true true), (some 7, .fieldRead "Limits" "RIGHT" true),
  (some 0, .fieldDecl "RIGHT" "int" true true), (some 9, .fieldRead "Limits" "LEFT" true)]

/-- The same class with its fields from the last to the first. -/
def reversedLimits : SyntaxTree := ofKinds [
  (none, .classDecl "Limits"), (some 0, .fieldDecl "RIGHT" "int" true true),
  (some 1, .fieldRead "Limits" "LEFT" true), (some 0, .fieldDecl "LEFT" "int" true true),
  (some 3, .fieldRead "Limits" "RIGHT" true), (some 0, .fieldDecl "BASE" "int" true true),
  (some 5, .literal (.int 2)), (some 0, .fieldDecl "TOTAL" "int" true true), (some 7, .binary .add),
  (some 8, .fieldRead "Limits" "BASE" true), (some 8, .literal (.int 1))]

/-- Where the nodes of the class go when its fields are reversed. -/
def reversedPlace (id : Nat) : Nat := [0, 7, 8, 9, 10, 5, 6, 3, 4, 1, 2].getD id 0

theorem rearrangement_limits : Rearrangement reversedPlace limits reversedLimits where
  size_eq := by decide +kernel
  place_lt := by decide +kernel
  injective := by decide +kernel
  kind_eq := by decide +kernel
  members := by decide +kernel
  children_eq := by decide +kernel
  roots := by decide +kernel

/-- In a tree with one class every node is in that class. -/
theorem IsForest.className?_eq (h : tree.IsForest) {root : Nat} (hroots : tree.roots = [root]) {name : String}
    (hkind : tree.kind? root = some (.classDecl name))
    (honly : ∀ id < tree.size, tree.has NodeKind.isClass id = true → id = root) {id : Nat}
    (hid : id < tree.size) : tree.className? id = some name := by
  obtain ⟨-, last, hlast, hend⟩ := h.parentChain_ancestors hid
  have hroot : tree.Below root id := by
    rw [hroots, List.mem_singleton] at hlast
    exact (h.mem_ancestors_iff hid).1 (hlast ▸ List.mem_of_getLast? hend)
  have hclass : tree.enclosingClass? id = some root := by
    obtain ⟨owner, howner⟩ := h.exists_ancestor? hid hroot (has_of_kind hkind rfl : tree.has NodeKind.isClass root)
    have hisClass := (h.nearest_of_ancestor? howner).2.1
    rw [enclosingClass?, howner, honly owner (lt_size_of_has hisClass) hisClass]
  simp only [className?, hclass, Option.bind_eq_bind, Option.bind_some, hkind]

theorem finalFields_limits (hforest : limits.IsForest) :
    limits.finalFields = (List.range limits.size).filterMap (limits.finalFieldIn? (some "Limits")) := by
  have hname : ∀ id < limits.size, limits.className? id = some "Limits" := fun id =>
    hforest.className?_eq (by decide +kernel : limits.roots = [0]) (by decide +kernel) (by decide +kernel)
  rw [finalFields_eq]
  refine List.filterMap_congr fun id hid => ?_
  rw [hname id (List.mem_range.1 hid)]

theorem refers_limits (hforest : limits.IsForest) {id child : Nat} {name other : String}
    (hid : id < limits.size)
    (hfield : limits.finalFieldIn? (some "Limits") id
      = some ⟨LibraryConstants.fieldKey "Limits" name, "int", .node child (.fieldRead "Limits" other true) []⟩) :
    Refers .empty limits.finalFields (LibraryConstants.fieldKey "Limits" name)
      (LibraryConstants.fieldKey "Limits" other) := by
  have hmem := List.mem_filterMap.2 ⟨id, List.mem_range.2 hid, hfield⟩
  rw [← finalFields_limits hforest] at hmem
  exact ⟨_, hmem, rfl, .own, ite_self none⟩

/-- Sums over other fields are folded, fields that stand for each other are not, and both in any order. -/
theorem constantFields_isLeast_limits :
    limits.validate = .ok () ∧ (limits.finalFields.map FinalField.key).Nodup
      ∧ reversedLimits.validate = .ok ()
      ∧ (limits.constantFields .empty).get? "Limits#TOTAL" = some (.int 3)
      ∧ (limits.constantFields .empty).get? "Limits#LEFT" = none
      ∧ reversedLimits.constantFields .empty = limits.constantFields .empty := by
  have hvalid : limits.validate = .ok () := eq_ok_of_toOption (by decide +kernel)
  have hreversed : reversedLimits.validate = .ok () := eq_ok_of_toOption (by decide +kernel)
  have hforest : limits.IsForest := validate_eq_ok_iff.1 hvalid
  have hfields := finalFields_limits hforest
  have hkeys : (limits.finalFields.map FinalField.key).Nodup := by
    rw [hfields]
    decide +kernel
  have htotal : (limits.constantFields .empty).get? "Limits#TOTAL" = some (.int 3) := by
    unfold constantFields
    rw [hfields]
    decide +kernel
  obtain ⟨-, -, hcycles, hplaces⟩ := constantFields_isLeast hvalid .empty hkeys
  refine ⟨hvalid, hkeys, hreversed, htotal, hcycles _ ?_, hplaces _ _ hreversed rearrangement_limits⟩
  have hleft := @refers_limits hforest 7 8 "LEFT" "RIGHT" (by decide +kernel) rfl
  have hright := @refers_limits hforest 9 10 "RIGHT" "LEFT" (by decide +kernel) rfl
  exact .tail (.single hleft) hright

end SyntaxTree

end PatchPresence
