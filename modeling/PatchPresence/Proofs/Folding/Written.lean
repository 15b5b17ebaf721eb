/-
  PatchPresence.Proofs.Folding.Written — variables that a node may change, and what leaves all others alone.

  A node writes the variables that are declared, assigned or stepped at or below it. Executions write no
  other variable, and a visit changes what is known of no other variable.

  Main results:
    * `Execution.latest_of_exec` — an execution keeps the latest write of every other variable.
    * `Term.get?_env_visit` — a visit keeps what is known of every other variable.
-/
import PatchPresence.Proofs.Collections
import PatchPresence.Proofs.Folding.Execution
import PatchPresence.Proofs.Source.Forest

namespace PatchPresence

/-! ## §1. Written variables. -/

/-- Variable that a node itself declares, assigns or steps. -/
def ownWritten (kind : NodeKind) (children : List Term) : List String :=
  match kind with
  | .localDecl name _ _ => [name]
  | _ => ownAssigned kind children

namespace Term

mutual

/-- Variables that are declared, assigned or stepped at or below a node. -/
def written : Term → List String
  | .node _ kind children => ownWritten kind children ++ writtenAll children

/-- Variables that are written in one of several nodes. -/
def writtenAll : List Term → List String
  | [] => []
  | term :: rest => term.written ++ writtenAll rest

end

theorem mem_writtenAll {terms : List Term} {name : String} :
    name ∈ writtenAll terms ↔ ∃ term ∈ terms, name ∈ term.written := by
  induction terms with
  | nil => simp [writtenAll]
  | cons term rest ih => simp [writtenAll, ih]

theorem mem_written_of_child {node child : Term} {name : String} (hchild : child ∈ node.children)
    (hname : name ∈ child.written) : name ∈ node.written := by
  cases node with
  | node id kind children =>
    unfold written
    exact List.mem_append_right _ (mem_writtenAll.2 ⟨child, hchild, hname⟩)

theorem Within.written_subset {part whole : Term} (h : Within part whole) :
    ∀ name ∈ part.written, name ∈ whole.written := by
  induction h with
  | self => exact fun _ hname => hname
  | deeper hmem _ ih => exact fun name hname => mem_written_of_child hmem (ih name hname)

theorem mem_written_of_target {node : Term} {name : String} (h : node.target? = some name) :
    name ∈ node.written := by
  have hkind := kind_of_target h
  cases node with
  | node id kind children =>
    unfold written
    refine List.mem_append_left _ ?_
    rcases hkind with ⟨type, isFinal, hkind⟩ | ⟨op, hkind⟩
    · obtain rfl : kind = .localDecl name type isFinal := hkind
      exact List.mem_cons_self
    · obtain rfl : kind = .assign name op := hkind
      exact List.mem_cons_self

theorem mem_written_of_stepped {node : Term} {op : UnaryOp} {name : String}
    (h : node.stepped? = some (op, name)) : name ∈ node.written := by
  obtain ⟨hkind, hstep, hhead⟩ := kind_of_stepped h
  cases node with
  | node id kind children =>
    obtain rfl : kind = .unary op := hkind
    replace hhead : children.head?.map Term.kind = some (.localRead name) := hhead
    unfold written
    refine List.mem_append_left _ ?_
    simp only [ownWritten, ownAssigned, hstep, if_true, hhead]
    exact List.mem_cons_self

/-- What is assigned is written. -/
theorem assigned_subset_written (term : Term) : ∀ name ∈ term.assigned, name ∈ term.written := by
  induction term using induct with
  | hnode id kind children ih =>
    intro name hname
    unfold assigned at hname
    unfold written
    rcases List.mem_append.1 hname with hown | hbelow
    · refine List.mem_append_left _ ?_
      cases kind <;> simp_all [ownWritten, ownAssigned]
    · refine List.mem_append_right _ ?_
      clear hname
      induction children with
      | nil => simp [assignedAll] at hbelow
      | cons child rest ihrest =>
        unfold assignedAll at hbelow
        unfold writtenAll
        rcases List.mem_append.1 hbelow with hchild | hrest
        · exact List.mem_append_left _ (ih child List.mem_cons_self name hchild)
        · exact List.mem_append_right _
            (ihrest (fun other hother => ih other (List.mem_cons_of_mem _ hother)) hrest)

theorem mem_children_of_mem_leading {node child : Term} (h : child ∈ node.leading) :
    child ∈ node.children :=
  List.mem_of_mem_take h

theorem mem_children_of_mem_repeated {node child : Term} (h : child ∈ node.repeated) :
    child ∈ node.children :=
  List.mem_of_mem_drop h

/-- The first child is no alternative. -/
theorem mem_drop_of_mem_alternatives {node choice : Term} {values : List Execution.Value}
    (h : choice ∈ node.alternatives values) : choice ∈ node.children.drop 1 := by
  unfold alternatives at h
  split at h
  · next hchildren =>
    rw [List.mem_singleton] at h
    rw [hchildren]
    split at h <;> simp [h]
  · exact h

end Term

namespace Execution

/-! ## §2. Executions. -/

/-- Nodes that a task executes. -/
def Task.nodes : Task → List Term
  | .term node => [node]
  | .turns nodes => nodes
  | .rounds nodes => nodes
  | .rest _ node _ => [node]

/-- What a node itself does to the history when it is evaluated. -/
inductive Causes (node : Term) : Event → Prop
  | read {name : String} (hkind : node.kind = .localRead name) : Causes node (.read node.id name)
  | store {name : String} {value : Value} (htarget : node.target? = some name) :
      Causes node (.write name value)
  | step {op : UnaryOp} {name : String} {value : Value} (hstep : node.stepped? = some (op, name)) :
      Causes node (.write name value)

/-- What no event at or below a node destroys. -/
def Keeps (P : History → Prop) (node : Term) : Prop :=
  ∀ part, part.Within node → ∀ event, Causes part event → ∀ h, P h → P (event :: h)

theorem Keeps.child {P : History → Prop} {node child : Term} (h : Keeps P node)
    (hchild : child ∈ node.children) : Keeps P child := by
  intro part hpart
  cases node with
  | node id kind children => exact h part (.deeper hchild hpart)

/-- What no event at or below its nodes destroys, an execution does not destroy. -/
theorem keeps_of_exec {P : History → Prop} {runtime : Runtime} {task : Task} {ending : Ending}
    {past history : History} (h : Exec runtime task past ending history)
    (hkeeps : ∀ node ∈ task.nodes, Keeps P node) (hpast : P past) : P history := by
  -- a node stands for all of its children, so the induction goes through their lists
  have hown : ∀ {node : Term}, (∀ other ∈ [node], Keeps P other) → Keeps P node :=
    fun hnode => hnode _ List.mem_cons_self
  have hone : ∀ {node : Term}, Keeps P node → ∀ other ∈ [node], Keeps P other :=
    fun hnode other hother => (List.mem_singleton.1 hother) ▸ hnode
  induction h with
  | abandon | turnsNil | roundsEnd | plain | leave | pass => exact hpast
  | term _ _ ihlead ihrest =>
    refine ihrest hkeeps (ihlead (fun child hchild => ?_) hpast)
    exact (hown hkeeps).child (Term.mem_children_of_mem_leading hchild)
  | stop _ _ ihlead =>
    exact ihlead (fun child hchild => (hown hkeeps).child (Term.mem_children_of_mem_leading hchild)) hpast
  | short _ _ _ ihlead =>
    exact ihlead (fun child hchild => (hown hkeeps).child (List.mem_of_mem_take hchild)) hpast
  | turnsCons _ _ ihfirst ihothers =>
    refine ihothers (fun node hnode => hkeeps node (List.mem_cons_of_mem _ hnode)) ?_
    exact ihfirst (hone (hkeeps _ List.mem_cons_self)) hpast
  | turnsStop _ _ ihfirst => exact ihfirst (hone (hkeeps _ List.mem_cons_self)) hpast
  | roundsNext hmem _ _ _ ihfirst ihothers =>
    exact ihothers hkeeps (ihfirst (hone (hkeeps _ hmem)) hpast)
  | roundsStop hmem _ _ _ ihfirst => exact ihfirst (hone (hkeeps _ hmem)) hpast
  | read hkind _ => exact hown hkeeps _ .self _ (.read hkind) _ hpast
  | store htarget _ => exact hown hkeeps _ .self _ (.store htarget) _ hpast
  | step hstep _ => exact hown hkeeps _ .self _ (.step hstep) _ hpast
  | choose _ hmem _ _ ihbranch =>
    refine ihbranch (hone ((hown hkeeps).child ?_)) hpast
    exact List.mem_of_mem_drop (Term.mem_drop_of_mem_alternatives hmem)
  | switch _ _ ihcases =>
    exact ihcases (fun child hchild => (hown hkeeps).child (List.mem_of_mem_drop hchild)) hpast
  | loop _ _ ihrounds =>
    refine ihrounds (fun child hchild => ?_) hpast
    exact (hown hkeeps).child (Term.mem_children_of_mem_repeated hchild)
  | guarded _ hchildren _ _ ihbody ihfinally =>
    refine ihfinally (fun child hchild => (hown hkeeps).child ?_)
      (ihbody (hone ((hown hkeeps).child ?_)) hpast)
    · exact hchildren ▸ List.mem_cons_of_mem _ (List.mem_filter.1 hchild).1
    · exact hchildren ▸ List.mem_cons_self
  | handled _ hchildren _ hmem _ _ _ ihbody ihhandler ihfinally =>
    refine ihfinally (fun child hchild => (hown hkeeps).child ?_)
      (ihhandler (hone ((hown hkeeps).child ?_)) (ihbody (hone ((hown hkeeps).child ?_)) hpast))
    · exact hchildren ▸ List.mem_cons_of_mem _ (List.mem_filter.1 hchild).1
    · exact hchildren ▸ List.mem_cons_of_mem _ hmem
    · exact hchildren ▸ List.mem_cons_self

/-- An execution keeps the latest write of every variable that its nodes do not write. -/
theorem latest_of_exec {runtime : Runtime} {task : Task} {ending : Ending} {past history : History}
    {name : String} (h : Exec runtime task past ending history)
    (hname : ∀ node ∈ task.nodes, name ∉ node.written) : latest name history = latest name past := by
  refine keeps_of_exec (P := fun h => latest name h = latest name past) h ?_ rfl
  intro node hnode part hpart event hevent between hbetween
  have hother : ∀ other, other ∈ part.written → other ≠ name := by
    rintro other hwritten rfl
    exact hname node hnode (hpart.written_subset other hwritten)
  cases hevent with
  | read => exact hbetween
  | store htarget => rw [latest_write, if_neg (hother _ (Term.mem_written_of_target htarget)), hbetween]
  | step hstep => rw [latest_write, if_neg (hother _ (Term.mem_written_of_stepped hstep)), hbetween]

end Execution

/-! ## §3. Environments. -/

namespace Env

theorem get?_forget (env : Env) (names : List String) (name : String) :
    (env.forget names).get? name = if name ∈ names then none else env.get? name := by
  unfold forget
  induction names generalizing env with
  | nil => simp
  | cons first rest ih =>
    rw [List.foldl_cons, ih, Table.get?_erase]
    by_cases hrest : name ∈ rest
    · simp [hrest]
    · by_cases hfirst : name = first <;> simp [hrest, hfirst]

theorem get?_assign (env : Env) (target : String) (isFinal : Bool) (value : Option Constant)
    (name : String) :
    (env.assign target isFinal value).get? name
      = if name = target then value.map (⟨·, isFinal⟩) else env.get? name := by
  unfold assign
  cases value with
  | none => exact Table.get?_erase env target name
  | some value => exact Table.get?_insert env target name ⟨value, isFinal⟩

end Env

namespace Visit

variable {context : FoldContext} {mode : Mode} {env : Env} {assigned : List String} {id : Nat}
variable {kind : NodeKind} {children : List Term} {parts : Visits}

/-- Environment behind a statement. -/
theorem env_finish_of_statement (hrole : mode.role kind = .statement) :
    (Visit.finish context mode env assigned id kind children parts).env
      = if mode = .evaluate then env else statementEnv kind assigned env parts.env parts.values := by
  unfold Visit.finish
  rw [hrole]
  dsimp only
  split <;> rfl

/-- Environment behind an expression. -/
theorem env_finish_of_expression (hrole : mode.role kind = .expression) :
    (Visit.finish context mode env assigned id kind children parts).env
      = if mode = .execute then env.forget assigned else env := by
  unfold Visit.finish
  rw [hrole]

end Visit

/-- Where the visit of the children of a statement starts, only assigned variables are less known. -/
theorem get?_start_statement (env : Env) (assigned : List String) (kind : NodeKind) {name : String}
    (hname : name ∉ assigned) :
    (Plan.statement env assigned kind).start.get? name = env.get? name := by
  cases kind with
  | loop =>
    show (env.forget assigned).get? name = _
    rw [Env.get?_forget, if_neg hname]
  | _ => rfl

/-- A statement with control flow forgets what it assigns; others change their own variable only. -/
theorem get?_statementEnv {kind : NodeKind} {children : List Term} {assigned : List String}
    {before behind : Env} {values : List (Option Folded)} {name : String}
    (hassigned : name ∉ assigned) (hown : name ∉ ownWritten kind children)
    (hbehind : behind.get? name = before.get? name) :
    (statementEnv kind assigned before behind values).get? name = before.get? name := by
  cases kind with
  | localDecl target type isFinal =>
    have hne : name ≠ target := fun h => hown (h ▸ List.mem_cons_self)
    show (behind.assign target isFinal _).get? name = _
    rw [Env.get?_assign, if_neg hne, hbehind]
  | assign target op =>
    have hne : name ≠ target := fun h => hown (h ▸ List.mem_cons_self)
    show (behind.assign target false _).get? name = _
    rw [Env.get?_assign, if_neg hne, hbehind]
  | loop | ifStmt | switch | switchCase | tryStmt | catchClause | synchronizedStmt =>
    show (before.forget assigned).get? name = _
    rw [Env.get?_forget, if_neg hassigned]
  | _ => exact hbehind

theorem get?_after (discipline : Discipline) (child : Term) {before behind : Env} {name : String}
    (hname : name ∉ child.written) (hbehind : behind.get? name = before.get? name) :
    (discipline.after child before behind).get? name = before.get? name := by
  cases discipline with
  | each => rfl
  | sequence => exact hbehind
  | operands =>
    show (before.forget child.assigned).get? name = _
    rw [Env.get?_forget, if_neg fun h => hname (child.assigned_subset_written name h)]
  | branches leading carry =>
    unfold Discipline.after
    dsimp only
    split
    · exact hbehind
    · rfl

namespace Term

theorem visit_node (context : FoldContext) (mode : Mode) (env : Env) (id : Nat) (kind : NodeKind)
    (children : List Term) :
    (Term.node id kind children).visit context mode env
      = let assigned := (Term.node id kind children).assigned
        let plan := Plan.of (mode.role kind) env assigned kind
        .finish context mode env assigned id kind children
          (visitAll context plan.discipline (plan.count.getD children.length) plan.start children) := by
  rw [Term.visit]

/-- How the children of a node are visited. -/
def plan (node : Term) (mode : Mode) (env : Env) : Plan :=
  Plan.of (mode.role node.kind) env node.assigned node.kind

/-- Greatest number of the children of a node that are visited. -/
def visitCount (node : Term) (mode : Mode) (env : Env) : Nat :=
  (node.plan mode env).count.getD node.children.length

/-- What the visit of a node yields of its children. -/
def visitParts (context : FoldContext) (mode : Mode) (env : Env) (node : Term) : Visits :=
  visitAll context (node.plan mode env).discipline (node.visitCount mode env)
    (node.plan mode env).start node.children

theorem visit_eq (context : FoldContext) (mode : Mode) (env : Env) (node : Term) :
    node.visit context mode env
      = .finish context mode env node.assigned node.id node.kind node.children
          (node.visitParts context mode env) := by
  cases node with
  | node id kind children => exact visit_node context mode env id kind children

theorem get?_env_visitAll {context : FoldContext} {name : String} {children : List Term}
    (ih : ∀ child ∈ children, ∀ mode env, name ∉ child.written →
      (child.visit context mode env).env.get? name = env.get? name)
    {discipline : Discipline} {count : Nat} {env : Env}
    (hname : name ∉ writtenAll (children.take count)) :
    (visitAll context discipline count env children).env.get? name = env.get? name := by
  induction children generalizing discipline count env with
  | nil => rw [visitAll]
  | cons child rest ihrest =>
    cases count with
    | zero => rw [visitAll]
    | succ count =>
      rw [List.take_succ_cons] at hname
      unfold writtenAll at hname
      rw [List.mem_append, not_or] at hname
      rw [visitAll]
      dsimp only
      rw [ihrest (fun other hother => ih other (List.mem_cons_of_mem _ hother)) hname.2]
      exact get?_after discipline child hname.1 (ih child List.mem_cons_self _ env hname.1)

/-- A visit keeps what is known of every variable that the node does not write. -/
theorem get?_env_visit (context : FoldContext) {name : String} (term : Term) :
    ∀ mode env, name ∉ term.written → (term.visit context mode env).env.get? name = env.get? name := by
  induction term using induct with
  | hnode id kind children ih =>
    intro mode env hname
    have hassigned := fun h => hname (assigned_subset_written _ name h)
    unfold written at hname
    rw [List.mem_append, not_or] at hname
    have hparts : ∀ count, name ∉ writtenAll (children.take count) := by
      intro count h
      obtain ⟨child, hchild, hwritten⟩ := mem_writtenAll.1 h
      exact hname.2 (mem_writtenAll.2 ⟨child, List.mem_of_mem_take hchild, hwritten⟩)
    rw [visit_node]
    dsimp only
    cases hrole : mode.role kind with
    | declaration =>
      unfold Visit.finish
      rw [hrole]
    | condition =>
      unfold Visit.finish
      rw [hrole]
    | expression =>
      rw [Visit.env_finish_of_expression hrole]
      split
      · rw [Env.get?_forget, if_neg hassigned]
      · rfl
    | statement =>
      rw [Visit.env_finish_of_statement hrole]
      split
      · rfl
      · refine get?_statementEnv hassigned hname.1 ?_
        rw [get?_env_visitAll ih (hparts _)]
        exact get?_start_statement env _ kind hassigned

end Term

end PatchPresence
