/-
  PatchPresence.Proofs.Folding.Faithful — constants on record against the executions of a tree.

  A tree is faithful when a constant on record for a read of a local variable is what the latest write of
  the variable stored, whichever body is executed and however it runs. Not every tree is: the environment
  behind the initialisers of a loop is that of every round, so that the counter of a loop is taken for a
  constant. Nor are those where an assignment converts to the declared type and folding does not. A tree is
  faithful when no variable is used that is both known and stale and none is known to hold what is not
  stored, and the audit says whether that is so.

  Main results:
    * `SyntaxTree.faithful_of_isCurrent` — a valid tree that passes the audit is faithful.
    * `SyntaxTree.not_faithful_countingLoop` — a valid tree that is not.
-/
import PatchPresence.Proofs.Folding.Soundness

namespace PatchPresence

namespace Execution

variable {runtime : Runtime} {past history : History}

/-! ## §1. Reads of an execution. -/

/-- An execution reads at its own nodes only. -/
theorem mem_ids_of_read {task : Task} {ending : Ending} {id : Nat} {name : String}
    (h : Exec runtime task past ending history) (hread : .read id name ∈ history) :
    .read id name ∈ past ∨ id ∈ Term.idsAll task.nodes := by
  refine keeps_of_exec
    (P := fun h => .read id name ∈ h → .read id name ∈ past ∨ id ∈ Term.idsAll task.nodes) h ?_ .inl hread
  intro node hnode part hpart event hevent between hbetween hmem
  rcases List.mem_cons.1 hmem with heq | hmem
  · cases hevent with
    | read =>
      obtain ⟨rfl, -⟩ := Event.read.inj heq
      exact .inr (Term.mem_idsAll.2 ⟨node, hnode, hpart.ids_subset _ part.id_mem_ids⟩)
    | store | step => cases heq
  · exact hbetween hmem

/-! ## §2. Bodies. -/

/-- Nothing is known before a body starts that is not stale. -/
theorem agrees_keys (env : Env) (history : History) : Agrees env env.keys history := by
  intro name known hname hget
  exact absurd (Table.mem_keys_of_get? hget) hname

/-- All children of a body are visited, in step where it is declared and from one environment elsewhere. -/
theorem plan_of_isBody {node : Term} (hkind : node.kind.isBody = true) (mode : Mode) (env : Env) :
    (node.plan mode env).count = none
      ∧ ∃ inner, (node.plan mode env).discipline = .sequence inner
          ∨ (node.plan mode env).discipline = .each inner := by
  unfold Term.plan
  generalize node.kind = kind at hkind
  cases kind with
  | method =>
    cases mode with
    | declare | execute => exact ⟨rfl, .execute, .inl rfl⟩
    | nest | evaluate => exact ⟨rfl, .evaluate, .inr rfl⟩
  | lambda => cases mode <;> exact ⟨rfl, .nest, .inr rfl⟩
  | _ => cases hkind

theorem exposure_of_isBody {node : Term} (hkind : node.kind.isBody = true) (inner : Mode)
    (earlier : List Term) (child : Term) :
    node.exposure (.sequence inner) earlier child = []
      ∧ node.exposure (.each inner) earlier child = Term.writtenAll earlier := by
  unfold Term.exposure
  generalize node.kind = kind at hkind
  cases kind with
  | method | lambda => exact ⟨rfl, rfl⟩
  | _ => cases hkind

/-- A body that is executed is tracked by the records of its visit. -/
theorem tracked_of_isBody {mode : Mode} {env : Env} {stale : List String} {node : Term} {ending : Ending}
    (hkind : node.kind.isBody = true) (hsound : (node.audit runtime mode env stale).sound = true)
    (hexec : Exec (runtime.within node) (.turns node.children) [] ending history) :
    Tracked (node.visitParts runtime.context mode env).records [] history := by
  obtain ⟨hcount, inner, hdiscipline⟩ := plan_of_isBody hkind mode env
  have hwithin : ∀ start, node.staleWithin start stale = start.keys := by
    intro start
    unfold Term.staleWithin
    generalize node.kind = kind at hkind
    cases kind <;> first | rfl | cases hkind
  have hall : node.visitCount mode env = node.children.length := by
    rw [Term.visitCount, hcount]
    rfl
  have hparts := (Term.sound_audit_iff.1 hsound).2
  unfold Term.auditParts at hparts
  unfold Term.visitParts
  rw [hwithin, hall] at hparts
  rw [hall]
  have hstart := agrees_keys (node.plan mode env).start []
  have ih : ∀ child ∈ node.children, Sound (runtime.within node) child :=
    fun child _ => sound_of_term (runtime.within node) child
  rcases hdiscipline with hdiscipline | hdiscipline
  · rw [hdiscipline] at hparts ⊢
    exact (tracked_sequence ih (fun _ _ _ _ => (exposure_of_isBody hkind inner _ _).1) hparts hexec
      hstart).1
  · rw [hdiscipline] at hparts ⊢
    refine (@tracked_turns (runtime.within node) _ (node.plan mode env).start
      (node.plan mode env).start.keys [] _ (fun _ => none) true (fun front _ => Term.writtenAll front) ending []
      history ?_ ?_ hexec (by rwa [List.append_nil])).1
    · intro front child back hsplit
      have hlength := congrArg List.length hsplit
      rw [List.length_append, List.length_cons] at hlength
      have hfollowed := followed_of_auditAll ih hparts (fun hcarry => by cases hcarry)
        (fun _ _ _ _ => Restricts.refl _ _ _) hsplit (by omega)
      rw [List.nil_append, (exposure_of_isBody hkind inner _ _).2] at hfollowed
      exact hfollowed.unvalued
    · intro front child back _ _ name hname
      exact hname

end Execution

namespace SyntaxTree

open Execution

/-! ## §3. Trees. -/

/-- What fields and invocations of a tree resolve to. -/
def foldContext (tree : SyntaxTree) (library : LibraryConstants) : FoldContext :=
  ⟨library, tree.constantFields library⟩

/-- What is given when a body of the tree with variables of some types runs. Of the fields of the tree those
    are read as constants that a compiler inlines. -/
def runtime (tree : SyntaxTree) (library : LibraryConstants) (types : String → Option String) : Runtime where
  context := tree.foldContext library
  inlined := fun key => tree.finalFields.all fun field => field.key ≠ key || Runtime.inlines field.type
  types := types

/-- A method or lambda of the tree. -/
def HasBody (tree : SyntaxTree) (body : Term) : Prop :=
  body.kind.isBody = true ∧ ∃ root ∈ tree.forest, body.Within root

/-- Whenever a body is executed and a variable read whose node has a constant on record, the latest write of
    the variable stored that constant. -/
def Faithful (tree : SyntaxTree) (library : LibraryConstants) : Prop :=
  ∀ body, tree.HasBody body → ∀ ending history,
    Exec (tree.runtime library body.declaredType?) (.turns body.children) [] ending history →
    ∀ later id name past value, history = later ++ .read id name :: past →
      (tree.propagate library).value? id = some value → latest name past = some (.constant value)

/-- No known variable of the tree is used while it is stale, and none is known to hold what running does
    not store. -/
def isCurrent (tree : SyntaxTree) (library : LibraryConstants) : Bool :=
  tree.forest.all fun root => (root.audit (tree.runtime library fun _ => none) .declare .empty []).sound

/-! ## §4. Roots as children that start from nothing. -/

theorem records_visitAll_each (context : FoldContext) (mode : Mode) (env : Env) (roots : List Term) :
    (visitAll context (.each mode) roots.length env roots).records
      = roots.flatMap fun root => (root.visit context mode env).records := by
  induction roots with
  | nil => rw [visitAll]; rfl
  | cons root rest ih =>
    rw [List.length_cons, visitAll, List.flatMap_cons, ← ih]
    rfl

theorem sound_auditAll_each {runtime : Runtime} {mode : Mode} {env : Env} {stale : List String}
    {roots : List Term} (h : ∀ root ∈ roots, (root.audit runtime mode env stale).sound = true)
    (earlier : List Term) :
    (auditAll runtime (fun _ _ => []) (.each mode) roots.length env stale earlier roots).sound = true := by
  induction roots generalizing earlier with
  | nil => rw [auditAll]
  | cons root rest ih =>
    rw [List.length_cons, auditAll]
    dsimp only
    rw [Bool.and_eq_true, List.append_nil]
    exact ⟨h root List.mem_cons_self, ih (fun other hother => h other (List.mem_cons_of_mem _ hother)) _⟩

/-- Where every position stands once, a record is what is found for its node. -/
theorem propagate_eq_iff {tree : SyntaxTree} {library : LibraryConstants} (hvalid : tree.validate = .ok ())
    (id : Nat) (result : Option Folded) :
    (tree.propagate library).values.get? id = some result
      ↔ (id, result) ∈ (visitAll (tree.foldContext library) (.each .declare) tree.forest.length .empty
          tree.forest).records := by
  have hkeys : ((visitAll (tree.foldContext library) (.each .declare) tree.forest.length .empty
      tree.forest).records.map Prod.fst).Nodup :=
    Term.nodup_records_visitAll (fun child _ => Term.nodup_records (tree.foldContext library) child)
      (tree.nodup_ids_forest hvalid)
  rw [← Table.get?_ofList _ _ _ hkeys, records_visitAll_each]
  rfl

/-! ## §5. Faithful trees. -/

/-- A valid tree that passes the audit is faithful. -/
theorem faithful_of_isCurrent {tree : SyntaxTree} {library : LibraryConstants}
    (hvalid : tree.validate = .ok ()) (hcurrent : tree.isCurrent library = true) :
    tree.Faithful library := by
  intro body hbody ending history hexec later id name past value hhistory hvalue
  obtain ⟨hkind, root, hroot, hwithin⟩ := hbody
  obtain ⟨folded, hfolded, rfl⟩ := Option.map_eq_some_iff.1 hvalue
  have hget : (tree.propagate library).values.get? id = some (some folded) := by
    simpa [Option.join_eq_some_iff] using hfolded
  have hrecord := (propagate_eq_iff hvalid id _).1 hget
  have hroots : ∀ root ∈ tree.forest,
      (root.audit (tree.runtime library fun _ => none) .declare .empty []).sound = true :=
    List.all_eq_true.1 hcurrent
  rcases Term.placed_visitAll hroot hwithin (Term.placed_of_within hwithin _)
    (tree.nodup_ids_forest hvalid) (sound_auditAll_each hroots []) with
    ⟨types, mode, env, stale, hsound, hrecords⟩ | hnone
  · -- the body was visited: its records are right about every read
    have hgiven : (tree.runtime library types).within body = tree.runtime library body.declaredType? := by
      simp [Runtime.within, hkind, runtime]
    have htracked := (tracked_of_isBody hkind hsound (hgiven.symm ▸ hexec)).mono fun record hrecord =>
      hrecords record (Term.mem_records_visit hrecord)
    rw [hhistory] at htracked
    obtain ⟨result, hresult, hlatest⟩ := htracked.exists_record
    have hfound := (propagate_eq_iff hvalid id result).2 hresult
    rw [hget] at hfound
    exact hlatest folded (Option.some.inj hfound).symm
  · -- it was not: nothing in it has a record
    have hread : .read id name ∈ history := by simp [hhistory]
    rcases mem_ids_of_read hexec hread with hpast | hid
    · cases hpast
    · exact absurd (Term.mem_ids_of_mem_children hid) (hnone _ hrecord)

/-- A tree of nodes of the given kinds, each below its parent. -/
def ofKinds (kinds : List (Option Nat × NodeKind)) : SyntaxTree :=
  kinds.foldl (fun tree item => tree.push item.1 item.2 ⟨1, 1⟩) (.new "Sample.java" 1)

/-- A method with `int limit = 10; int i = 0; while (i < limit) { i++; }`. -/
def fixedLimit : SyntaxTree := ofKinds [
  (none, .classDecl "Sample"), (some 0, .method "run" "()V" true), (some 1, .block),
  (some 2, .localDecl "limit" "int" false), (some 3, .literal (.int 10)),
  (some 2, .localDecl "i" "int" false), (some 5, .literal (.int 0)),
  (some 2, .loop .whileLoop), (some 7, .condition), (some 8, .binary .lt), (some 9, .localRead "i"),
  (some 9, .localRead "limit"), (some 7, .block), (some 12, .exprStmt),
  (some 13, .unary .postIncrement), (some 14, .localRead "i")]

/-- A method with `byte b = 10; b += 300; return b;`. -/
def narrowing : SyntaxTree := ofKinds [
  (none, .classDecl "Sample"), (some 0, .method "run" "()V" true), (some 1, .block),
  (some 2, .localDecl "b" "byte" false), (some 3, .literal (.int 10)), (some 2, .exprStmt),
  (some 5, .assign "b" (some .add)), (some 6, .literal (.int 300)), (some 2, .returnStmt),
  (some 8, .localRead "b")]

/-- In every round the limit is known and the counter is not. A byte that is taken to hold 310 does not pass. -/
theorem faithful_of_isCurrent_fixedLimit :
    fixedLimit.validate = .ok () ∧ fixedLimit.isCurrent .empty = true
      ∧ (fixedLimit.propagate .empty).value? 11 = some (.int 10)
      ∧ (fixedLimit.propagate .empty).value? 10 = none ∧ fixedLimit.Faithful .empty
      ∧ (narrowing.propagate .empty).value? 9 = some (.int 310) ∧ narrowing.isCurrent .empty = false := by
  have hvalid : fixedLimit.validate = .ok () := eq_ok_of_toOption (by decide +kernel)
  have hcurrent : fixedLimit.isCurrent .empty = true := by decide +kernel
  exact ⟨hvalid, hcurrent, by decide +kernel, by decide +kernel, faithful_of_isCurrent hvalid hcurrent,
    by decide +kernel, by decide +kernel⟩

/-! ## §6. A counter that is taken for a constant. -/

/-- A method with `for (int i = 0; i < 10; i++) { }`. -/
def countingLoop : SyntaxTree := ofKinds [
  (none, .classDecl "Sample"), (some 0, .method "run" "()V" true), (some 1, .block),
  (some 2, .loop .forLoop), (some 3, .localDecl "i" "int" false), (some 4, .literal (.int 0)),
  (some 3, .condition), (some 6, .binary .lt), (some 7, .localRead "i"), (some 7, .literal (.int 10)),
  (some 3, .exprStmt), (some 10, .unary .postIncrement), (some 11, .localRead "i"), (some 3, .block)]

namespace CountingLoop

/-- A read of the counter. -/
def counter (id : Nat) : Term := .node id (.localRead "i") []

/-- `int i = 0` -/
def initialiser : Term := .node 4 (.localDecl "i" "int" false) [.node 5 (.literal (.int 0)) []]

/-- `i < 10` -/
def comparison : Term := .node 7 (.binary .lt) [counter 8, .node 9 (.literal (.int 10)) []]

/-- `i++` -/
def step : Term := .node 11 (.unary .postIncrement) [counter 12]

/-- What is done in every round. -/
def round : List Term := [.node 6 .condition [comparison], .node 10 .exprStmt [step], .node 13 .block []]

/-- The whole loop. -/
def loop : Term := .node 3 (.loop .forLoop) (initialiser :: round)

/-- The method around the loop. -/
def method : Term := .node 1 (.method "run" "()V" true) [.node 2 .block [loop]]

variable {runtime : Runtime} {h h₁ h₂ : History} {value : Value}

theorem exec_turns {node : Term} {nodes : List Term} {values : List Value}
    (hfirst : Exec runtime (.term node) h (.done value) h₁)
    (hothers : Exec runtime (.turns nodes) h₁ (.all values) h₂) :
    Exec runtime (.turns (node :: nodes)) h (.all (value :: values)) h₂ :=
  .turnsCons hfirst hothers

/-- A plain node comes to some value behind its leading children. -/
theorem exec_plain {node : Term} {values : List Value} (hplain : node.isPlain = true)
    (hlead : Exec runtime (.turns node.leading) h (.all values) h₁) :
    ∃ value, Exec runtime (.term node) h (.done value) h₁ := by
  cases hfixed : runtime.operate node (contents values) with
  | none => exact ⟨.other, .term hlead (.plain hplain fun _ h => by rw [hfixed] at h; cases h)⟩
  | some constant =>
    refine ⟨.constant constant, .term hlead (.plain hplain fun found hfound => ?_)⟩
    rw [hfixed] at hfound
    rw [Option.some.inj hfound]

theorem exec_counter (id : Nat) (hlatest : latest "i" h = some value) :
    Exec runtime (.term (counter id)) h (.done value) (.read id "i" :: h) := by
  refine .term .turnsNil (.read rfl fun last hlast => ?_)
  exact Option.some.inj (hlatest.symm.trans hlast)

theorem exec_literal (id : Nat) (constant : Constant) :
    Exec runtime (.term (.node id (.literal constant) [])) h (.done (.constant constant)) h := by
  refine .term .turnsNil (.plain rfl fun found hfound => ?_)
  exact congrArg Value.constant (Option.some.inj hfound)

theorem exec_initialiser :
    Exec runtime (.term initialiser) h (.done (.constant (.int 0)))
      (.write "i" (.constant (.int 0)) :: h) := by
  refine .term (exec_turns (exec_literal 5 (.int 0)) .turnsNil) (.store rfl fun found hfound => ?_)
  exact congrArg Value.constant (Option.some.inj hfound)

theorem exec_condition (h : History) (hlatest : latest "i" h = some value) :
    ∃ result, Exec runtime (.term (.node 6 .condition [comparison])) h (.done result)
      (.read 8 "i" :: h) := by
  obtain ⟨result, hcompare⟩ : ∃ result, Exec runtime (.term comparison) h (.done result)
      (.read 8 "i" :: h) :=
    exec_plain rfl (exec_turns (exec_counter 8 hlatest)
      (exec_turns (exec_literal 9 (.int 10)) .turnsNil))
  exact exec_plain rfl (exec_turns hcompare .turnsNil)

theorem exec_update (htype : runtime.types "i" = some "int") (h : History)
    (hlatest : latest "i" h = some (.constant (.int 0))) :
    ∃ result, Exec runtime (.term (.node 10 .exprStmt [step])) h (.done result)
      (.write "i" (.constant (.int 1)) :: .read 12 "i" :: h) := by
  have hnext : runtime.next "i" .postIncrement (some (.int 0)) = some (.int 1) := by
    unfold Runtime.next
    rw [htype]
    decide
  have hrest : Exec runtime (.rest h step [.constant (.int 0)]) (.read 12 "i" :: h)
      (.done (stepValue .postIncrement (.constant (.int 0)) (.constant (.int 1))))
      (.write "i" (.constant (.int 1)) :: .read 12 "i" :: h) :=
    .step rfl fun found hfound => congrArg Value.constant (Option.some.inj (hnext.symm.trans hfound))
  have hstep : Exec runtime (.term step) h (.done (.constant (.int 0)))
      (.write "i" (.constant (.int 1)) :: .read 12 "i" :: h) :=
    .term (exec_turns (exec_counter 12 hlatest) .turnsNil) hrest
  exact exec_plain rfl (exec_turns hstep .turnsNil)

/-- The condition of the loop is evaluated a second time, behind one round and the update. -/
def secondRound : History :=
  [.read 8 "i", .write "i" (.constant (.int 1)), .read 12 "i", .read 8 "i",
    .write "i" (.constant (.int 0))]

theorem exec_loop (htype : runtime.types "i" = some "int") :
    Exec runtime (.term loop) [] (.done .other) secondRound := by
  obtain ⟨_, hfirst⟩ := @exec_condition runtime _ [.write "i" (.constant (.int 0))] rfl
  obtain ⟨_, hbody⟩ : ∃ result, Exec runtime (.term (.node 13 .block []))
      [.read 8 "i", .write "i" (.constant (.int 0))] (.done result) _ := exec_plain rfl .turnsNil
  obtain ⟨_, hupdate⟩ := exec_update htype [.read 8 "i", .write "i" (.constant (.int 0))] rfl
  obtain ⟨_, hsecond⟩ := @exec_condition runtime _
    [.write "i" (.constant (.int 1)), .read 12 "i", .read 8 "i", .write "i" (.constant (.int 0))] rfl
  have hrounds : Exec runtime (.rounds round) [.write "i" (.constant (.int 0))] (.all []) secondRound :=
    .roundsNext (by simp [round]) hfirst rfl (.roundsNext (by simp [round]) hbody rfl
      (.roundsNext (by simp [round]) hupdate rfl (.roundsNext (by simp [round]) hsecond rfl .roundsEnd)))
  have hrest : Exec runtime (.rest [] loop [.constant (.int 0)]) [.write "i" (.constant (.int 0))]
      (Ending.all []).settled secondRound := .loop rfl hrounds
  exact .term (exec_turns exec_initialiser .turnsNil) hrest

theorem exec_method (htype : runtime.types "i" = some "int") :
    ∃ ending, Exec runtime (.turns method.children) [] ending secondRound := by
  obtain ⟨_, hblock⟩ : ∃ result, Exec runtime (.term (.node 2 .block [loop])) [] (.done result)
      secondRound := exec_plain rfl (exec_turns (exec_loop htype) .turnsNil)
  exact ⟨_, exec_turns hblock .turnsNil⟩

end CountingLoop

/-- The counter of a loop is taken for its first value in every round. -/
theorem not_faithful_countingLoop :
    countingLoop.validate = .ok () ∧ ¬ countingLoop.Faithful .empty := by
  have hforest : countingLoop.forest = [.node 0 (.classDecl "Sample") [CountingLoop.method]] := by rfl
  refine ⟨eq_ok_of_toOption (by decide +kernel), fun hfaithful => ?_⟩
  have hbody : countingLoop.HasBody CountingLoop.method := by
    refine ⟨rfl, _, hforest ▸ List.mem_singleton_self _, ?_⟩
    exact .deeper List.mem_cons_self .self
  obtain ⟨ending, hexec⟩ := @CountingLoop.exec_method
    (countingLoop.runtime .empty CountingLoop.method.declaredType?) (by decide +kernel)
  have hlatest := hfaithful _ hbody ending _ hexec [] 8 "i" CountingLoop.secondRound.tail (.int 0) rfl
    (by decide +kernel)
  revert hlatest
  decide

end SyntaxTree

end PatchPresence
