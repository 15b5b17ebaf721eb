/-
  PatchPresence.Proofs.Folding.Loops — variables that a loop assigns, in the parts of the loop.

  What a loop assigns is forgotten before the loop starts. Its parts are then visited in sequence, so that what an
  initialiser stores is known in the condition, though the rounds of the loop may change it. Nothing else is: a
  constant that is found for a variable of the loop was stored in the loop, by a part up to the one with the read.

  Main results:
    * `SyntaxTree.value?_in_loop` — constants of the variables that a loop assigns come from stores in the loop.
    * `SyntaxTree.value?_condition_countingLoop` — a loop whose condition is folded for its first round only.
-/
import PatchPresence.Proofs.Folding.Forgotten

namespace PatchPresence

/-- The parts of a loop run in turn, from where nothing is known of what the loop assigns. -/
theorem Term.plan_loop {loop : Term} (hloop : loop.kind.isLoop = true) (mode : Mode) (env : Env) :
    loop.plan mode env = ⟨.sequence .nest, none, env.forget loop.assigned⟩ := by
  unfold plan
  generalize loop.kind = kind at hloop
  cases kind with
  | loop => cases mode <;> rfl
  | _ => cases hloop

namespace SyntaxTree

variable {tree : SyntaxTree} {library : LibraryConstants}

/-- A declaration or assignment at or below one of several nodes makes a constant known of a variable. -/
def StoredIn (tree : SyntaxTree) (library : LibraryConstants) (nodes : List Nat) (name : String)
    (value : Constant) : Prop :=
  ∃ node ∈ nodes, ∃ store ∈ tree.descendants node, tree.Stores library store name value

/-- Only declarations and assignments store. -/
theorem Stores.sets (hforest : tree.IsForest) {id : Nat} {name : String} {value : Constant}
    (h : tree.Stores library id name value) : tree.has (NodeKind.sets name) id = true := by
  obtain ⟨station, known, hvisited, rfl, hstores, -⟩ := h
  rw [has, (hforest.of_term? (hvisited.term? hforest)).2.1]
  rcases Term.kind_of_target hstores.target with ⟨type, isFinal, hkind⟩ | ⟨op, hkind⟩
  · simp [hkind, NodeKind.sets]
  · simp [hkind, NodeKind.sets]

theorem not_storedIn_of_unset (hforest : tree.IsForest) {nodes : List Nat} {name : String}
    (h : ∀ node ∈ nodes, tree.Unset name node) (value : Constant) :
    ¬ tree.StoredIn library nodes name value := by
  rintro ⟨node, hnode, store, hstore, hstores⟩
  have hsets := hstores.sets hforest
  rw [h node hnode store hstore] at hsets
  cases hsets

/-- In a part of a loop, its condition for instance, a read of a variable that the loop assigns is not constant,
    unless that constant is stored in the part itself or in a part in front of it. -/
theorem value?_in_loop {tree : SyntaxTree} (hvalid : tree.validate = .ok ()) (library : LibraryConstants)
    {loop part : Nat} {front behind : List Nat} (hloop : tree.has NodeKind.isLoop loop = true)
    (hchildren : tree.children loop = front ++ part :: behind) {name : String}
    (hassigned : name ∈ tree.assignedLocals loop) :
    ∀ id ∈ tree.descendants part, tree.kind? id = some (.localRead name) →
      (tree.propagate library).value? id = none
        ∨ ∃ value, (tree.propagate library).value? id = some value
            ∧ tree.StoredIn library (front ++ [part]) name value := by
  intro id hid hread
  have hforest : tree.IsForest := validate_eq_ok_iff.1 hvalid
  have hpart : part ∈ tree.children loop := by simp [hchildren]
  obtain ⟨node, hnode⟩ := hforest.exists_term? (lt_size_of_mem_children hpart)
  rw [has, (hforest.of_term? hnode).2.1] at hloop
  -- where the loop starts the variable is not known
  have hstart : ∀ env : Env, (env.forget node.assigned).get? name = none := by
    intro env
    have hmem : name ∈ node.assigned := by
      rw [assignedLocals, hnode] at hassigned
      exact (Ascending.mem_ofList _ _).1 hassigned
    rw [Env.get?_forget, if_pos hmem]
  cases hvalue : (tree.propagate library).value? id with
  | none => exact .inl rfl
  | some value =>
    refine .inr ⟨value, rfl, ?_⟩
    have hsplit : tree.children loop = [] ++ (front ++ part :: behind) := hchildren
    -- from there on, what is known of it was stored in the parts up to this one
    have hfound : ∃ known : LocalValue, tree.StoredIn library (front ++ [part]) name known.value
        ∧ known.value = value := by
      refine meets_of_value? hvalid hnode hsplit (Term.plan_loop hloop) (fun env => ?_)
        (fun child hchild station known hvisited hbelow _ hstores => ?_) id hid hread value hvalue
      · rw [List.filterMap_nil, List.length_nil, visitAll]
        exact .of_none (hstart env)
      · exact ⟨child, hchild, _, hbelow, station, known, hvisited, rfl, hstores, rfl⟩
    obtain ⟨known, hstored, rfl⟩ := hfound
    exact hstored

/-- A method with `int i = 0; for (int limit = 10; i < limit; i++) { }`. -/
def knownLimit : SyntaxTree := ofKinds [
  (none, .classDecl "Sample"), (some 0, .method "run" "()V" true), (some 1, .block),
  (some 2, .localDecl "i" "int" false), (some 3, .literal (.int 0)),
  (some 2, .loop .forLoop), (some 5, .localDecl "limit" "int" false), (some 6, .literal (.int 10)),
  (some 5, .condition), (some 8, .binary .lt), (some 9, .localRead "i"), (some 9, .localRead "limit"),
  (some 5, .exprStmt), (some 12, .unary .postIncrement), (some 13, .localRead "i"), (some 5, .block)]

/-- The condition knows the limit, which the initialiser stores, and not the counter, which is declared in front of
    the loop. -/
theorem value?_in_loop_knownLimit :
    knownLimit.validate = .ok () ∧ knownLimit.children 5 = [6] ++ 8 :: [12, 15]
      ∧ "i" ∈ knownLimit.assignedLocals 5 ∧ (knownLimit.propagate .empty).value? 11 = some (.int 10)
      ∧ (knownLimit.propagate .empty).value? 10 = none := by
  have hvalid : knownLimit.validate = .ok () := eq_ok_of_toOption (by decide +kernel)
  have hforest : knownLimit.IsForest := validate_eq_ok_iff.1 hvalid
  have hchildren : knownLimit.children 5 = [6] ++ 8 :: [12, 15] := by decide +kernel
  have hassigned : "i" ∈ knownLimit.assignedLocals 5 := by decide +kernel
  have hunset : ∀ node ∈ [6] ++ [8], knownLimit.Unset "i" node := by
    have hlimit : knownLimit.Unset "i" 6 := hforest.unset_of_closed (by decide +kernel)
      (by decide : 6 ∈ [6, 7]) (by decide +kernel) (by decide +kernel)
    have hcondition : knownLimit.Unset "i" 8 := hforest.unset_of_closed (by decide +kernel)
      (by decide : 8 ∈ [8, 9, 10, 11]) (by decide +kernel) (by decide +kernel)
    simpa using ⟨hlimit, hcondition⟩
  have hread : 10 ∈ knownLimit.descendants 8 := (hforest.mem_descendants_iff (by decide +kernel) 10).2
    (.child (.child .self (by decide +kernel : 9 ∈ knownLimit.children 8)) (by decide +kernel))
  refine ⟨hvalid, hchildren, hassigned, by decide +kernel, ?_⟩
  rcases value?_in_loop hvalid .empty (by decide +kernel) hchildren hassigned 10 hread (by decide +kernel) with
    hnone | ⟨value, -, hstored⟩
  · exact hnone
  · exact absurd hstored (not_storedIn_of_unset hforest hunset value)

/-- The counter of a loop is constant in its condition, though the loop assigns it. -/
theorem value?_condition_countingLoop :
    countingLoop.validate = .ok () ∧ countingLoop.kind? 3 = some (.loop .forLoop)
      ∧ "i" ∈ countingLoop.assignedLocals 3 ∧ 6 ∈ countingLoop.children 3
      ∧ countingLoop.kind? 6 = some .condition ∧ 8 ∈ countingLoop.descendants 6
      ∧ countingLoop.kind? 8 = some (.localRead "i")
      ∧ (countingLoop.propagate .empty).value? 8 = some (.int 0) := by
  have hvalid : countingLoop.validate = .ok () := eq_ok_of_toOption (by decide +kernel)
  have hread : 8 ∈ countingLoop.descendants 6 :=
    ((validate_eq_ok_iff.1 hvalid).mem_descendants_iff (by decide +kernel) 8).2
      (.child (.child .self (by decide +kernel : 7 ∈ countingLoop.children 6)) (by decide +kernel))
  exact ⟨hvalid, by decide +kernel, by decide +kernel, by decide +kernel, by decide +kernel, hread,
    by decide +kernel, by decide +kernel⟩

end SyntaxTree

end PatchPresence
