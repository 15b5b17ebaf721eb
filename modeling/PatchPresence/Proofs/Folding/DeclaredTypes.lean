/-
  PatchPresence.Proofs.Folding.DeclaredTypes — constants of local variables, against their declared types.

  A declaration converts its initialiser to the declared type. A compound assignment converts to the type of the known
  value, which is the declared one except for short and byte variables, and except that a string can be added to a
  boolean. A plain assignment does not convert. Where the assignments that do not convert give constants of the declared
  type, all reads find such constants.

  Main results:
    * `Constant.coerce_coerce`, `Constant.coerce_of_compound` — what conversions keep.
    * `SyntaxTree.coerce_value?_of_declared` — reads find constants of the declared type.
    * `SyntaxTree.value?_plainAssignment` — a plain assignment behind which they do not.
-/
import PatchPresence.Proofs.Folding.Assignments

namespace PatchPresence

/-! ## §1. Conversions. -/

namespace Constant

/-- Conversion to a numeric type goes through the number that a constant stands for. -/
theorem coerce_numeric {type : String} (h : type ∈ numericTypes) (value : Constant) :
    coerce type value = (Number.ofConstant? value).bind (castNumber type) := by
  have hcontains : numericTypes.contains type = true := List.contains_iff_mem.2 h
  have hcast : cast type value = (Number.ofConstant? value).bind (castNumber type) := by
    have hplain : ¬ (type = "String" || type = "java.lang.String") ∧ type ≠ "boolean" := by
      simp only [numericTypes, List.mem_cons, List.not_mem_nil, or_false] at h
      rcases h with rfl | rfl | rfl | rfl | rfl | rfl | rfl <;> decide
    unfold cast
    rw [if_neg hplain.1, if_neg hplain.2]
    rfl
  unfold coerce
  rw [if_pos hcontains]
  cases value with
  | str | bool | null => rfl
  | _ => exact hcast

/-- Types other than the numeric ones and boolean take every constant as it is. -/
theorem coerce_other {type : String} (h : type ∉ numericTypes) (hboolean : type ≠ "boolean") (value : Constant) :
    coerce type value = some value := by
  unfold coerce
  rw [if_neg (by simpa using h), if_neg hboolean]

theorem coerce_boolean_eq_some {value result : Constant} (h : coerce "boolean" value = some result) :
    ∃ flag, value = .bool flag ∧ result = .bool flag := by
  cases value with
  | bool flag => exact ⟨flag, rfl, (Option.some.inj h).symm⟩
  | _ => cases h

theorem char_ofNat_toNat (unit : UInt16) : (Int32.ofNat unit.toNat).toUInt32.toUInt16 = unit := by
  apply UInt16.toNat.inj
  simp

/-- A number of a type is not changed by a second conversion to it. -/
theorem castNumber_castNumber {type : String} {number : Number} {result : Constant}
    (h : castNumber type number = some result) :
    (Number.ofConstant? result).bind (castNumber type) = some result := by
  unfold castNumber at h
  split at h
  case h_8 => cases h
  all_goals obtain rfl := Option.some.inj h
  -- an int, a long, a float and a double are taken as they are
  case h_1 | h_2 | h_3 | h_4 => rfl
  -- the low bits of a short, a byte and a character are all there is of it
  case h_5 =>
    show some (Constant.int number.toInt.toInt16.toInt32.toInt16.toInt32) = _
    rw [Int16.toInt16_toInt32]
  case h_6 =>
    show some (Constant.int number.toInt.toInt8.toInt32.toInt8.toInt32) = _
    rw [Int8.toInt8_toInt32]
  case h_7 =>
    show some (Constant.char (Int32.ofNat number.toInt.toUInt32.toUInt16.toNat).toUInt32.toUInt16) = _
    rw [char_ofNat_toNat]

/-- What was converted to a type is of that type. -/
theorem coerce_coerce {type : String} {value result : Constant} (h : coerce type value = some result) :
    coerce type result = some result := by
  by_cases hnumeric : type ∈ numericTypes
  · rw [coerce_numeric hnumeric] at h ⊢
    obtain ⟨number, -, h⟩ := Option.bind_eq_some_iff.1 h
    exact castNumber_castNumber h
  · by_cases hboolean : type = "boolean"
    · subst hboolean
      obtain ⟨flag, rfl, rfl⟩ := coerce_boolean_eq_some h
      exact h
    · exact coerce_other hnumeric hboolean result

/-- Whether an assignment with an operator brings its result to the type of its variable, given that the known value
    is of that type. -/
def keepsType (type : String) : Option BinaryOp → Bool
  | none => false
  | some op => type != "short" && type != "byte" && (type != "boolean" || op != .add)

/-- Where no two types share a sort of constants, the known value gives the type away. -/
theorem coerceLike_eq_coerce {type : String} (h : type ∈ numericTypes) (hshort : type ≠ "short")
    (hbyte : type ≠ "byte") {known : Constant} (hknown : coerce type known = some known) (value : Constant) :
    coerceLike known value = coerce type value := by
  rw [coerce_numeric h] at hknown ⊢
  obtain ⟨number, -, hnumber⟩ := Option.bind_eq_some_iff.1 hknown
  unfold castNumber at hnumber
  split at hnumber
  case h_5 => exact absurd rfl hshort
  case h_6 => exact absurd rfl hbyte
  case h_8 => cases hnumber
  -- of the others each has its own sort of constants
  all_goals
    obtain rfl := Option.some.inj hnumber
    rfl

/-- Operators on truth values give truth values, concatenation apart. -/
theorem exists_bool_of_binary {op : BinaryOp} (hop : op ≠ .add) {flag : Bool} {value result : Constant}
    (h : binary op (.bool flag) value = some result) : ∃ flag, result = .bool flag := by
  unfold binary at h
  rw [if_neg (by simp [hop])] at h
  cases value with
  | bool other =>
    obtain ⟨flag, -, rfl⟩ := Option.map_eq_some_iff.1 h
    exact ⟨flag, rfl⟩
  | _ => cases h

/-- A compound assignment keeps the declared type, a few combinations apart. -/
theorem coerce_of_compound {type : String} {op : BinaryOp} (hkeeps : keepsType type (some op) = true)
    {known value raw result : Constant} (hknown : coerce type known = some known)
    (hraw : binary op known value = some raw) (hresult : coerceLike known raw = some result) :
    coerce type result = some result := by
  simp only [keepsType, Bool.and_eq_true, bne_iff_ne, Bool.or_eq_true] at hkeeps
  obtain ⟨⟨hshort, hbyte⟩, hboolean⟩ := hkeeps
  by_cases hnumeric : type ∈ numericTypes
  · rw [coerceLike_eq_coerce hnumeric hshort hbyte hknown] at hresult
    exact coerce_coerce hresult
  · by_cases htype : type = "boolean"
    · subst htype
      obtain ⟨flag, rfl, -⟩ := coerce_boolean_eq_some hknown
      obtain ⟨other, rfl⟩ := exists_bool_of_binary (hboolean.resolve_left (· rfl)) hraw
      obtain rfl := Option.some.inj hresult
      rfl
    · exact coerce_other hnumeric htype result

end Constant

/-! ## §2. Stores. -/

namespace Station

variable {context : FoldContext} {name type : String}

/-- Behind a declaration the variable is known to be of the declared type. -/
theorem meets_behind_localDecl {node : Term} {isFinal : Bool} (hkind : node.kind = .localDecl name type isFinal)
    (env : Env) : (node.visit context .execute env).env.Meets
      (fun known => Constant.coerce type known.value = some known.value) name := by
  have hrole : Mode.execute.role node.kind = .statement := by
    rw [hkind]
    rfl
  intro known hknown
  rw [Term.visit_eq, Visit.env_finish_of_statement hrole, if_neg nofun, hkind] at hknown
  unfold statementEnv at hknown
  dsimp only at hknown
  rw [Env.get?_assign, if_pos rfl] at hknown
  obtain ⟨value, hvalue, rfl⟩ := Option.map_eq_some_iff.1 hknown
  obtain ⟨folded, -, hcoerce⟩ := Option.bind_eq_some_iff.1 hvalue
  exact Constant.coerce_coerce hcoerce

/-- A compound assignment that keeps the type stores a constant of the type when one was known. -/
theorem Stores.coerce_of_compound {station : Station} {known : LocalValue}
    (h : station.Stores context name known) {op : BinaryOp} (hkind : station.node.kind = .assign name (some op))
    (hkeeps : Constant.keepsType type (some op) = true)
    (hmeets : station.env.Meets (fun known => Constant.coerce type known.value = some known.value) name) :
    Constant.coerce type known.value = some known.value := by
  -- the operand may forget the variable, but stores nothing
  have hparts : (station.parts context).env.Meets
      (fun known => Constant.coerce type known.value = some known.value) name := by
    unfold parts
    rw [Term.visitParts_of_target h.target h.runs]
    cases station.node.children with
    | nil =>
      rw [visitAll]
      exact hmeets
    | cons operand rest =>
      rw [Term.visitAll_one]
      exact hmeets.forget _
  have hstored := h.stored
  unfold stored? at hstored
  rw [hkind] at hstored
  obtain ⟨value, hvalue, rfl⟩ := Option.map_eq_some_iff.1 hstored
  obtain ⟨folded, -, hvalue⟩ := Option.bind_eq_some_iff.1 hvalue
  obtain ⟨old, hold, hvalue⟩ := Option.bind_eq_some_iff.1 hvalue
  obtain ⟨raw, hraw, hvalue⟩ := Option.bind_eq_some_iff.1 hvalue
  exact Constant.coerce_of_compound hkeeps (hparts old hold) hraw hvalue

end Station

/-! ## §3. Trees. -/

/-- Whether a node declares a variable of a name. -/
def NodeKind.declares (name : String) : NodeKind → Bool
  | .localDecl target _ _ => target == name
  | _ => false

namespace SyntaxTree

variable {tree : SyntaxTree} {library : LibraryConstants}

/-- What a statement stores by an assignment is what is found for it. -/
theorem Visited.value?_of_stores (hvalid : tree.validate = .ok ()) {station : Station}
    (h : tree.Visited library station) {name : String} {known : LocalValue}
    (hstores : station.Stores (tree.foldContext library) name known) {op : Option BinaryOp}
    (hkind : station.node.kind = .assign name op) :
    (tree.propagate library).value? station.node.id = some known.value := by
  have hstored := hstores.stored
  unfold Station.stored? at hstored
  rw [hkind] at hstored
  obtain ⟨value, hvalue, rfl⟩ := Option.map_eq_some_iff.1 hstored
  exact (h.value?_eq_assignedValue hvalid hstores.runs hkind).trans hvalue

/-- In a block, a variable that is declared with a type and not declared again is found to have constants of that type
    only, provided that assignments which do not bring their result to the type are found to give such constants. -/
theorem coerce_value?_of_declared {tree : SyntaxTree} (hvalid : tree.validate = .ok ()) (library : LibraryConstants)
    {block declaration part : Nat} {front between behind : List Nat} {name type : String} {isFinal : Bool}
    (hblock : tree.kind? block = some .block)
    (hchildren : tree.children block = front ++ declaration :: (between ++ part :: behind))
    (hdeclaration : tree.kind? declaration = some (.localDecl name type isFinal))
    (honce : ∀ later ∈ between ++ [part], ∀ id ∈ tree.descendants later,
      tree.has (NodeKind.declares name) id = false)
    (hassigned : ∀ later ∈ between ++ [part], ∀ id ∈ tree.descendants later, ∀ op,
      tree.kind? id = some (.assign name op) → Constant.keepsType type op = false →
      ∀ value ∈ (tree.propagate library).value? id, Constant.coerce type value = some value) :
    ∀ id ∈ tree.descendants part, tree.kind? id = some (.localRead name) →
      ∀ value ∈ (tree.propagate library).value? id, Constant.coerce type value = some value := by
  intro id hid hread value hvalue
  have hforest : tree.IsForest := validate_eq_ok_iff.1 hvalid
  have hmem : declaration ∈ tree.children block := by simp [hchildren]
  obtain ⟨node, hnode⟩ := hforest.exists_term? (lt_size_of_mem_children hmem)
  obtain ⟨view, hview⟩ := hforest.exists_term? (hforest.lt_of_child hmem)
  have hbody : node.kind = .block := hforest.kind_of_term? hnode hblock
  have hsplit : tree.children block = (front ++ [declaration]) ++ (between ++ part :: behind) := by
    rw [hchildren, List.append_assoc, List.singleton_append]
  have hfound : ∃ known : LocalValue, Constant.coerce type known.value = some known.value ∧ known.value = value := by
    refine meets_of_value? hvalid hnode hsplit (Term.plan_of_block (.inl hbody)) (fun env => ?_)
      (fun later hlater station known hvisited hbelow hmeets hstores => ?_) id hid hread value hvalue
    · -- the declaration is the last of the statements in front
      have hkind : view.kind = .localDecl name type isFinal := hforest.kind_of_term? hview hdeclaration
      rw [List.filterMap_append, List.filterMap_cons_some hview, List.filterMap_nil, List.length_append,
        Execution.visitAll_append, List.length_singleton]
      dsimp only
      rw [Term.visitAll_one]
      exact Station.meets_behind_localDecl hkind _
    · have hstation := (hforest.of_term? (hvisited.term? hforest)).2.1
      rcases Term.kind_of_target hstores.target with ⟨other, final, hkind⟩ | ⟨op, hkind⟩
      -- there is no second declaration, and an assignment converts or was asked about
      · have hnone := honce later hlater _ hbelow
        rw [has, hstation, hkind] at hnone
        simp [NodeKind.declares] at hnone
      · rw [hkind] at hstation
        cases hkeeps : Constant.keepsType type op with
        | false =>
          exact hassigned later hlater _ hbelow op hstation hkeeps _ (hvisited.value?_of_stores hvalid hstores hkind)
        | true =>
          cases op with
          | none => cases hkeeps
          | some op => exact hstores.coerce_of_compound hkind hkeeps hmeets
  obtain ⟨known, hcoerce, rfl⟩ := hfound
  exact hcoerce

/-- A method with `long x = 1; x = 7L; x += 3; return x;`. -/
def longVariable : SyntaxTree := ofKinds [
  (none, .classDecl "Sample"), (some 0, .method "run" "()J" true), (some 1, .block),
  (some 2, .localDecl "x" "long" false), (some 3, .literal (.int 1)),
  (some 2, .exprStmt), (some 5, .assign "x" none), (some 6, .literal (.long 7)),
  (some 2, .exprStmt), (some 8, .assign "x" (some .add)), (some 9, .literal (.int 3)),
  (some 2, .returnStmt), (some 11, .localRead "x")]

/-- The plain assignment is of a long, and the sum is brought back to one. -/
theorem coerce_value?_of_declared_longVariable :
    longVariable.children 2 = [] ++ 3 :: ([5, 8] ++ 11 :: [])
      ∧ (longVariable.propagate .empty).value? 12 = some (.long 10)
      ∧ Constant.coerce "long" (.long 10) = some (.long 10) := by
  have hvalid : longVariable.validate = .ok () := eq_ok_of_toOption (by decide +kernel)
  have hforest := validate_eq_ok_iff.1 hvalid
  have hchildren : longVariable.children 2 = [] ++ 3 :: ([5, 8] ++ 11 :: []) := by decide +kernel
  have hdeclaration : longVariable.kind? 3 = some (.localDecl "x" "long" false) := by decide +kernel
  have hvalue : (longVariable.propagate .empty).value? 12 = some (.long 10) := by decide +kernel
  have hbelow : ∀ later ∈ [5, 8] ++ [11], ∀ id ∈ longVariable.descendants later,
      id ∈ [5, 6, 7, 8, 9, 10, 11, 12] := by
    intro later hlater
    have hsize : later < longVariable.size ∧ later ∈ [5, 6, 7, 8, 9, 10, 11, 12] := by
      revert later
      decide +kernel
    exact hforest.descendants_subset hsize.1 hsize.2 (by decide +kernel)
  have hread : 12 ∈ longVariable.descendants 11 :=
    (hforest.mem_descendants_iff (by decide +kernel) 12).2 (.child .self (by decide +kernel))
  refine ⟨hchildren, hvalue, coerce_value?_of_declared hvalid .empty (by decide +kernel) hchildren hdeclaration
    (fun later hlater id hid => ?_) (fun later hlater id hid op hassign hkeeps value hfound => ?_) 12 hread
    (by decide +kernel) _ hvalue⟩
  · have hnone : ∀ id ∈ [5, 6, 7, 8, 9, 10, 11, 12],
        longVariable.has (NodeKind.declares "x") id = false := by decide +kernel
    exact hnone id (hbelow later hlater id hid)
  · have hplain : ∀ id ∈ [5, 6, 7, 8, 9, 10, 11, 12], longVariable.has NodeKind.isAssign id = true →
        id = 6 ∨ longVariable.kind? id = some (.assign "x" (some .add)) := by decide +kernel
    have his : longVariable.has NodeKind.isAssign id = true := by
      rw [has, hassign]
      rfl
    rcases hplain id (hbelow later hlater id hid) his with rfl | hsum
    · have hlong : (longVariable.propagate .empty).value? 6 = some (.long 7) := by decide +kernel
      rw [hlong] at hfound
      obtain rfl := Option.some.inj hfound
      decide
    · rw [hsum] at hassign
      cases hassign
      exact absurd hkeeps (by decide)

/-- A method with `long x = 1; x = 2; return x;`. -/
def plainAssignment : SyntaxTree := ofKinds [
  (none, .classDecl "Sample"), (some 0, .method "run" "()J" true), (some 1, .block),
  (some 2, .localDecl "x" "long" false), (some 3, .literal (.int 1)),
  (some 2, .exprStmt), (some 5, .assign "x" none), (some 6, .literal (.int 2)),
  (some 2, .returnStmt), (some 8, .localRead "x")]

/-- A long variable is found to hold an int behind a plain assignment of one. -/
theorem value?_plainAssignment :
    plainAssignment.validate = .ok () ∧ plainAssignment.kind? 2 = some .block
      ∧ plainAssignment.children 2 = [3, 5, 8] ∧ plainAssignment.kind? 3 = some (.localDecl "x" "long" false)
      ∧ plainAssignment.kind? 5 = some .exprStmt ∧ plainAssignment.children 5 = [6]
      ∧ plainAssignment.kind? 6 = some (.assign "x" none) ∧ 9 ∈ plainAssignment.descendants 8
      ∧ plainAssignment.kind? 9 = some (.localRead "x")
      ∧ (plainAssignment.propagate .empty).value? 9 = some (.int 2)
      ∧ Constant.coerce "long" (.int 2) ≠ some (.int 2) := by
  have hvalid : plainAssignment.validate = .ok () := eq_ok_of_toOption (by decide +kernel)
  have hread : 9 ∈ plainAssignment.descendants 8 :=
    ((validate_eq_ok_iff.1 hvalid).mem_descendants_iff (by decide +kernel) 9).2 (.child .self (by decide +kernel))
  exact ⟨hvalid, by decide +kernel, by decide +kernel, by decide +kernel, by decide +kernel, by decide +kernel,
    by decide +kernel, hread, by decide +kernel, by decide +kernel, by decide⟩

end SyntaxTree

end PatchPresence
