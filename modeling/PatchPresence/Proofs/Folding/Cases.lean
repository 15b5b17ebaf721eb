/-
  PatchPresence.Proofs.Folding.Cases — statements of a switch case, against the same statements in a block.

  The statements of a block start where the one before them ended. Those of a case all start where the case does, so
  that what one of them writes is not seen by the next. A visit depends on the variables that a node uses and on no
  others: a statement of a case is folded as in a block when no earlier one writes what it uses.

  Main results:
    * `Term.sameOn_visit` — a visit depends on the variables that the node uses.
    * `SyntaxTree.get?_case_as_block` — statements of a case that use nothing an earlier one writes.
    * `SyntaxTree.value?_case_caseSetting` — a case in which a read is found to have an old value.
-/
import PatchPresence.Proofs.Folding.Forgotten
import PatchPresence.Proofs.Folding.Rekinding

namespace PatchPresence

/-! ## §1. Used variables. -/

/-- Variable whose value a node itself needs. -/
def ownUsed : NodeKind → List String
  | .localRead name => [name]
  | .assign target (some _) => [target]
  | _ => []

namespace Term

mutual

/-- Variables whose values are needed at or below a node. -/
def used : Term → List String
  | .node _ kind children => ownUsed kind ++ usedAll children

/-- Variables whose values are needed in one of several nodes. -/
def usedAll : List Term → List String
  | [] => []
  | term :: rest => term.used ++ usedAll rest

end

theorem used_subset_usedAll {terms : List Term} {term : Term} (hterm : term ∈ terms) :
    term.used ⊆ usedAll terms := by
  induction terms with
  | nil => cases hterm
  | cons first rest ih =>
    intro name hname
    unfold usedAll
    rcases List.mem_cons.1 hterm with rfl | hrest
    · exact List.mem_append_left _ hname
    · exact List.mem_append_right _ (ih hrest hname)

theorem used_subset_of_child {node child : Term} (hchild : child ∈ node.children) : child.used ⊆ node.used := by
  cases node with
  | node id kind children =>
    intro name hname
    rw [used]
    exact List.mem_append_right _ (used_subset_usedAll hchild hname)

theorem ownUsed_subset (node : Term) : ownUsed node.kind ⊆ node.used := by
  cases node with
  | node id kind children =>
    unfold used
    exact List.subset_append_left _ _

end Term

/-! ## §2. Environments that agree. -/

/-- The same is known of some variables. -/
def Env.SameOn (names : List String) (left right : Env) : Prop :=
  ∀ name ∈ names, left.get? name = right.get? name

namespace Env.SameOn

variable {names : List String} {left right : Env}

theorem refl (env : Env) : SameOn names env env := fun _ _ => rfl

theorem forget (h : SameOn names left right) (forgotten : List String) :
    SameOn names (left.forget forgotten) (right.forget forgotten) := by
  intro name hname
  rw [Env.get?_forget, Env.get?_forget, h name hname]

theorem assign (h : SameOn names left right) (target : String) (isFinal : Bool) (value : Option Constant) :
    SameOn names (left.assign target isFinal value) (right.assign target isFinal value) := by
  intro name hname
  rw [Env.get?_assign, Env.get?_assign, h name hname]

theorem start (h : SameOn names left right) (role : Role) (assigned : List String) (kind : NodeKind) :
    SameOn names (Plan.of role left assigned kind).start (Plan.of role right assigned kind).start := by
  cases role with
  | declaration => cases kind <;> exact refl _
  | condition => exact h
  | expression => cases kind <;> first | exact h | exact refl _
  | statement => cases kind <;> first | exact h | exact h.forget assigned

theorem after (discipline : Discipline) (child : Term) {leftBehind rightBehind : Env}
    (h : SameOn names left right) (hbehind : SameOn names leftBehind rightBehind) :
    SameOn names (discipline.after child left leftBehind) (discipline.after child right rightBehind) := by
  cases discipline with
  | each => exact h
  | sequence => exact hbehind
  | operands => exact h.forget _
  | branches leading carry =>
    unfold Discipline.after
    dsimp only
    split
    · exact hbehind
    · exact h

theorem assignedValue_eq (h : SameOn names left right) {target : String} {op : Option BinaryOp}
    (hused : ownUsed (.assign target op) ⊆ names) (value : Option Folded) :
    assignedValue left target op value = assignedValue right target op value := by
  unfold assignedValue
  cases op with
  | none => rfl
  | some op => rw [h target (hused List.mem_cons_self)]

theorem foldKind_eq (h : SameOn names left right) {kind : NodeKind} (hused : ownUsed kind ⊆ names)
    (context : FoldContext) (children : List Term) (values : List (Option Folded)) :
    foldKind context left kind children values = foldKind context right kind children values := by
  cases kind with
  | localRead name =>
    unfold foldKind
    dsimp only
    rw [h name (hused List.mem_cons_self)]
  | _ => rfl

/-- Behind a statement the same is known when that is so in front of it and behind its children. -/
theorem statementEnv {leftBehind rightBehind : Env} (h : SameOn names left right)
    (hbehind : SameOn names leftBehind rightBehind) {kind : NodeKind} (hused : ownUsed kind ⊆ names)
    (assigned : List String) (values : List (Option Folded)) :
    SameOn names (statementEnv kind assigned left leftBehind values)
      (statementEnv kind assigned right rightBehind values) := by
  cases kind with
  | localDecl target type isFinal => exact hbehind.assign target isFinal _
  | assign target op =>
    unfold PatchPresence.statementEnv
    dsimp only
    rw [hbehind.assignedValue_eq hused]
    exact hbehind.assign target false _
  | loop | ifStmt | switch | switchCase | tryStmt | catchClause | synchronizedStmt => exact h.forget assigned
  | _ => exact hbehind

end Env.SameOn

/-! ## §3. Visits that agree. -/

/-- Two visits put the same on record, and the same is known of some variables behind them. -/
structure Visit.SameOn (names : List String) (left right : Visit) : Prop where
  records : left.records = right.records
  env : left.env.SameOn names right.env
  value : left.value = right.value

/-- Visits of several nodes put the same on record, and the same is known of some variables behind them. -/
structure Visits.SameOn (names : List String) (left right : Visits) : Prop where
  records : left.records = right.records
  env : left.env.SameOn names right.env
  values : left.values = right.values

namespace Term

variable {context : FoldContext} {names : List String}

theorem sameOn_finish (node : Term) {mode : Mode} {left right : Env} {leftParts rightParts : Visits}
    (h : left.SameOn names right) (hparts : leftParts.SameOn names rightParts) (hused : node.used ⊆ names) :
    (Visit.finish context mode left node.assigned node.id node.kind node.children leftParts).SameOn names
      (Visit.finish context mode right node.assigned node.id node.kind node.children rightParts) := by
  have hown : ownUsed node.kind ⊆ names := List.Subset.trans node.ownUsed_subset hused
  unfold Visit.finish
  rw [hparts.records, hparts.values]
  split
  · exact ⟨rfl, h, rfl⟩
  · exact ⟨rfl, h, rfl⟩
  -- a statement
  · have hbehind : Env.SameOn names
        (if mode = .evaluate then left
          else statementEnv node.kind node.assigned left leftParts.env rightParts.values)
        (if mode = .evaluate then right
          else statementEnv node.kind node.assigned right rightParts.env rightParts.values) := by
      split
      · exact h
      · exact h.statementEnv hparts.env hown _ _
    dsimp only
    split
    · next target op hkind =>
      rw [hkind] at hown
      rw [hparts.env.assignedValue_eq hown]
      exact ⟨rfl, hkind ▸ hbehind, rfl⟩
    · exact ⟨rfl, hbehind, rfl⟩
  -- an expression
  · rw [h.foldKind_eq hown]
    refine ⟨rfl, ?_, rfl⟩
    dsimp only
    split
    · exact h.forget _
    · exact h

theorem sameOn_visitAll {children : List Term}
    (ih : ∀ child ∈ children, ∀ mode left right, Env.SameOn names left right →
      (child.visit context mode left).SameOn names (child.visit context mode right))
    (discipline : Discipline) (count : Nat) {left right : Env} (h : left.SameOn names right) :
    (visitAll context discipline count left children).SameOn names
      (visitAll context discipline count right children) := by
  induction children generalizing discipline count left right with
  | nil =>
    rw [visitAll, visitAll]
    exact ⟨rfl, h, rfl⟩
  | cons child rest ihrest =>
    cases count with
    | zero =>
      rw [visitAll, visitAll]
      exact ⟨rfl, h, rfl⟩
    | succ count =>
      have hfirst := ih child List.mem_cons_self (discipline.mode child.kind) left right h
      have hothers := ihrest (fun other hother => ih other (List.mem_cons_of_mem _ hother)) discipline.next count
        (h.after discipline child hfirst.env)
      rw [visitAll, visitAll, hfirst.records, hfirst.value, hothers.records, hothers.values]
      exact ⟨rfl, hothers.env, rfl⟩

/-- A visit depends on the variables that the node uses, and on no others. -/
theorem sameOn_visit (node : Term) :
    node.used ⊆ names → ∀ mode left right, Env.SameOn names left right →
      (node.visit context mode left).SameOn names (node.visit context mode right) := by
  induction node using induct with
  | hnode id kind children ih =>
    intro hused mode left right h
    -- how the children are visited does not depend on what is known
    have hplan : ∀ env : Env, (Plan.of (mode.role kind) left (Term.node id kind children).assigned kind).discipline
        = (Plan.of (mode.role kind) env (Term.node id kind children).assigned kind).discipline
        ∧ (Plan.of (mode.role kind) left (Term.node id kind children).assigned kind).count
          = (Plan.of (mode.role kind) env (Term.node id kind children).assigned kind).count := by
      intro env
      cases mode.role kind <;> cases kind <;> exact ⟨rfl, rfl⟩
    rw [visit_node, visit_node]
    dsimp only
    rw [(hplan right).1, (hplan right).2]
    refine sameOn_finish (.node id kind children) h (sameOn_visitAll (fun child hchild => ?_) _ _ ?_) hused
    · have hchildUsed : child.used ⊆ (Term.node id kind children).used := used_subset_of_child hchild
      exact ih child hchild (List.Subset.trans hchildUsed hused)
    · exact h.start _ _ _

/-! ## §4. Statements of a case. -/

/-- A statement is visited in one way, among others or under control flow. -/
theorem visit_nest_of_isStatement {node : Term} (h : node.kind.isStatement = true) (env : Env) :
    node.visit context .nest env = node.visit context .execute env := by
  obtain ⟨id, kind, children⟩ := node
  replace h : kind.isStatement = true := h
  rw [visit_node, visit_node]
  cases kind <;> first | rfl | cases h

theorem records_visitAll_branches {children : List Term} (h : ∀ child ∈ children, child.kind.isStatement = true)
    (env : Env) (leading : Bool) :
    (visitAll context (.branches leading false) children.length env children).records
      = children.flatMap fun child => (child.visit context .execute env).records := by
  induction children generalizing leading with
  | nil =>
    rw [visitAll]
    rfl
  | cons child rest ih =>
    have hchild := h child List.mem_cons_self
    have hmode : (Discipline.branches leading false).mode child.kind = .nest := by
      simp [Discipline.mode, Discipline.leads, hchild]
    rw [List.length_cons, visitAll, List.flatMap_cons, hmode, visit_nest_of_isStatement hchild]
    dsimp only
    rw [← ih (fun other hother => h other (List.mem_cons_of_mem _ hother)) false]
    rfl

/-- The statements of a case all start where the case does, whatever is wanted from it. -/
theorem records_visit_case {body : Term} {labels : List Constant} (hcase : body.kind = .switchCase labels)
    (h : ∀ child ∈ body.children, child.kind.isStatement = true) (mode : Mode) (env : Env) :
    (body.visit context mode env).records
      = body.children.flatMap fun child => (child.visit context .execute env).records := by
  rw [← records_visitAll_branches h env true]
  obtain ⟨id, kind, children⟩ := body
  obtain rfl : kind = .switchCase labels := hcase
  rw [visit_node]
  cases mode <;> rfl

/-- A statement of a case that uses nothing an earlier one writes has the same records as in a block. -/
theorem mem_records_case_iff {body block part : Term} {labels : List Constant} {front behind : List Term}
    (hcase : body.kind = .switchCase labels) (hblock : block.kind = .block)
    (hsame : block.children = body.children) (hchildren : body.children = front ++ part :: behind)
    (hstatements : ∀ child ∈ body.children, child.kind.isStatement = true) (hnodup : body.ids.Nodup)
    (hapart : ∀ name ∈ part.used, name ∉ writtenAll front) {mode : Mode} {env : Env}
    {record : Nat × Option Folded} (hid : record.1 ∈ part.ids) :
    record ∈ (block.visit context mode env).records ↔ record ∈ (body.visit context mode env).records := by
  have hbelow : (idsAll body.children).Nodup := nodup_idsAll_children hnodup
  have hpart : part ∈ body.children := by simp [hchildren]
  -- in front of the statement the block and the case know the same of what it uses
  have hknown : Env.SameOn part.used (visitAll context (.sequence .execute) front.length env front).env env := by
    intro name hname
    refine get?_env_visitAll (fun child _ => get?_env_visit context child) ?_
    rw [List.take_length]
    exact hapart name hname
  have hrecords := (sameOn_visit part (List.Subset.refl _) .execute _ _ hknown :
    (part.visit context .execute _).SameOn _ _).records
  rw [records_visit_block hblock, records_visit_case hcase hstatements, hsame]
  constructor
  · intro hrecord
    rw [hchildren] at hrecord hbelow
    -- in the block, the record is made behind the statements in front
    have hown := mem_records_of_sequence hbelow hid hrecord
    rw [hrecords] at hown
    exact List.mem_flatMap.2 ⟨part, hpart, hown⟩
  · intro hrecord
    obtain ⟨other, hother, hown⟩ := List.mem_flatMap.1 hrecord
    -- in the case, it is made by the only statement with that position
    obtain rfl : other = part :=
      eq_of_mem_ids hbelow hother hpart (mem_ids_of_record context other _ _ _ hown) hid
    rw [← hrecords] at hown
    rw [hchildren, List.length_append]
    exact (Station.Turn.behind .first).mem_records record hown

end Term

/-! ## §5. Trees. -/

namespace SyntaxTree

/-- Variables that are declared, assigned or stepped at or below a node. -/
def writtenLocals (tree : SyntaxTree) (id : Nat) : List String := ((tree.term? id).map Term.written).getD []

/-- Variables whose values are needed at or below a node. -/
def usedLocals (tree : SyntaxTree) (id : Nat) : List String := ((tree.term? id).map Term.used).getD []

/-- In a switch case that consists of statements, what is found in a statement that uses no variable an earlier one
    writes is what is found there when the case is made a block. -/
theorem get?_case_as_block {tree : SyntaxTree} (hvalid : tree.validate = .ok ()) (library : LibraryConstants)
    {body part : Nat} {labels : List Constant} {front behind : List Nat}
    (hcase : tree.kind? body = some (.switchCase labels))
    (hstatements : ∀ child ∈ tree.children body, tree.has NodeKind.isStatement child = true)
    (hchildren : tree.children body = front ++ part :: behind)
    (hapart : ∀ earlier ∈ front, ∀ name ∈ tree.writtenLocals earlier, name ∉ tree.usedLocals part) :
    ∀ id ∈ tree.descendants part,
      ((tree.withKind body .block).propagate library).values.get? id
        = (tree.propagate library).values.get? id := by
  intro id hid
  have hforest : tree.IsForest := validate_eq_ok_iff.1 hvalid
  have hpart : part ∈ tree.children body := by simp [hchildren]
  have hpartLt : part < tree.size := hforest.lt_of_child hpart
  obtain ⟨node, hnode⟩ := hforest.exists_term? (lt_size_of_mem_children hpart)
  obtain ⟨last, hlast⟩ := hforest.exists_term? hpartLt
  have hbelow : tree.Below part id := (hforest.mem_descendants_iff hpartLt id).1 hid
  obtain ⟨hnodeId, -, hnodeChildren⟩ := hforest.of_term? hnode
  have hparts : node.children = front.filterMap tree.term? ++ last :: behind.filterMap tree.term? := by
    rw [hnodeChildren, hchildren, List.filterMap_append, List.filterMap_cons_some hlast]
  have hviews : ∀ child ∈ node.children, child.kind.isStatement = true := by
    intro child hchild
    rw [hnodeChildren] at hchild
    obtain ⟨inner, hinner, hview⟩ := List.mem_filterMap.1 hchild
    have hstatement := hstatements inner hinner
    rwa [has, (hforest.of_term? hview).2.1] at hstatement
  have hapartViews : ∀ name ∈ last.used, name ∉ Term.writtenAll (front.filterMap tree.term?) := by
    intro name hused hwritten
    obtain ⟨earlier, hearlier, hname⟩ := Term.mem_writtenAll.1 hwritten
    obtain ⟨inner, hinner, hview⟩ := List.mem_filterMap.1 hearlier
    refine hapart inner hinner name ?_ ?_
    · rw [writtenLocals, hview]
      exact hname
    · rw [usedLocals, hlast]
      exact hused
  have hnodup : node.ids.Nodup := nodup_ids_of_term? hvalid hnode
  have hsame : (node.withKind body .block).children = node.children :=
    Term.children_withKind_of_nodup hnodup hnodeId
  have hidLast : id ∈ last.ids := hforest.mem_ids_term? hbelow hlast
  refine get?_withKind hvalid hcase rfl rfl hnode (hforest.mem_ids_term? (hbelow.of_child hpart) hnode) ?_
  intro mode env result
  have hbody : node.kind = .switchCase labels := hforest.kind_of_term? hnode hcase
  have hblock : (node.withKind body .block).kind = .block := by rw [Term.kind_withKind, if_pos hnodeId]
  exact Term.mem_records_case_iff hbody hblock hsame hparts hviews hnodup hapartViews hidLast

/-- A method with `int x = 1; switch (k) { case 0: x = 2; return x; }`, or with another variable that is set in the
    case. -/
def caseSetting (name : String) : SyntaxTree := ofKinds [
  (none, .classDecl "Sample"), (some 0, .method "run" "()I" true), (some 1, .block),
  (some 2, .localDecl "x" "int" false), (some 3, .literal (.int 1)),
  (some 2, .switch), (some 5, .localRead "k"), (some 5, .switchCase [.int 0]),
  (some 7, .exprStmt), (some 8, .assign name none), (some 9, .literal (.int 2)),
  (some 7, .returnStmt), (some 11, .localRead "x")]

/-- Where another variable is set, the read finds what is known in front of the switch, in a case and in a block. -/
theorem get?_case_as_block_caseSetting :
    (caseSetting "y").validate = .ok () ∧ (caseSetting "y").children 7 = [8] ++ 11 :: []
      ∧ ((caseSetting "y").propagate .empty).values.get? 12 = some (some ⟨.int 1, false⟩)
      ∧ (((caseSetting "y").withKind 7 .block).propagate .empty).values.get? 12
          = ((caseSetting "y").propagate .empty).values.get? 12 := by
  have hvalid : (caseSetting "y").validate = .ok () := eq_ok_of_toOption (by decide +kernel)
  have hchildren : (caseSetting "y").children 7 = [8] ++ 11 :: [] := by decide +kernel
  have hread : 12 ∈ (caseSetting "y").descendants 11 :=
    ((validate_eq_ok_iff.1 hvalid).mem_descendants_iff (by decide +kernel) 12).2
      (.child .self (by decide +kernel))
  have hcase : (caseSetting "y").kind? 7 = some (.switchCase [.int 0]) := by decide +kernel
  exact ⟨hvalid, hchildren, by decide +kernel, get?_case_as_block hvalid .empty hcase (by decide +kernel) hchildren
    (by decide +kernel) 12 hread⟩

/-- The read behind an assignment in a case is found to have the value from in front of the switch; in a block it has
    the one that was assigned. -/
theorem value?_case_caseSetting :
    (caseSetting "x").validate = .ok () ∧ (caseSetting "x").kind? 7 = some (.switchCase [.int 0])
      ∧ (∀ child ∈ (caseSetting "x").children 7, (caseSetting "x").has NodeKind.isStatement child = true)
      ∧ 12 ∈ (caseSetting "x").descendants 7
      ∧ ((caseSetting "x").propagate .empty).value? 12 = some (.int 1)
      ∧ (((caseSetting "x").withKind 7 .block).propagate .empty).value? 12 = some (.int 2) := by
  have hvalid : (caseSetting "x").validate = .ok () := eq_ok_of_toOption (by decide +kernel)
  have hread : 12 ∈ (caseSetting "x").descendants 7 :=
    ((validate_eq_ok_iff.1 hvalid).mem_descendants_iff (by decide +kernel) 12).2
      (.child (.child .self (by decide +kernel : 11 ∈ (caseSetting "x").children 7)) (by decide +kernel))
  exact ⟨hvalid, by decide +kernel, by decide +kernel, hread, by decide +kernel, by decide +kernel⟩

end SyntaxTree

end PatchPresence
