/-
  PatchPresence.Proofs.Folding.Audit — where the environments of a visit may be wrong about a variable.

  A visit hands environments on in its own way: operands and branches start from the same environment,
  whatever was executed before them, and the environment behind the initialisers of a loop is that of every
  round. The audit follows a visit and keeps the variables that are stale, which means that they may have
  been written since the environment at hand was formed. A stale variable does no harm while it is unknown.
  A read of a known one may get a value that is no longer there.

  Nor need folding be what running does. Whatever a visit makes known of a variable, the audit works out
  again by the rules of `Runtime`, from values that were worked out so themselves.

  Main definition:
    * `Term.audit` — whether no known variable is used at or below a node while it is stale, and whether what
      is known is what running stores.
-/
import PatchPresence.Proofs.Folding.Written

namespace PatchPresence

namespace Term

/-! ## §1. Nodes that control goes on behind. -/

mutual

/-- Whether control may go on behind a node. -/
def completes : Term → Bool
  | .node _ kind children =>
    match kind with
    | .breakStmt | .continueStmt | .returnStmt | .throwStmt => false
    | .block | .exprStmt | .switchCase _ | .catchClause _ | .synchronizedStmt => completesAll children
    | .ifStmt =>
      match children with
      | [_, yes, no] => yes.completes || no.completes
      | _ => true
    | _ => true

/-- Whether control may go on behind each of several nodes. -/
def completesAll : List Term → Bool
  | [] => true
  | term :: rest => term.completes && completesAll rest

end

/-- Cases that control may fall through to what is behind them. -/
def fallThrough (cases : List Term) : List Term :=
  cases.foldl (fun kept term => if term.completes then kept ++ [term] else []) []

theorem fallThrough_append {front back : List Term} (h : ∀ term ∈ back, term.completes = true) :
    fallThrough (front ++ back) = fallThrough front ++ back := by
  unfold fallThrough
  rw [List.foldl_append]
  generalize front.foldl _ [] = kept
  induction back generalizing kept with
  | nil => simp
  | cons term rest ih =>
    rw [List.foldl_cons, if_pos (h term List.mem_cons_self),
      ih (fun other hother => h other (List.mem_cons_of_mem _ hother)), List.append_assoc]
    rfl

/-! ## §2. Values that running gives as well. -/

/-- What a visit knows of the leading children of a node. -/
def leadContents (context : FoldContext) (mode : Mode) (env : Env) (node : Term) : List (Option Constant) :=
  ((node.visitParts context mode env).values.take node.leadCount).map (Option.map Folded.value)

/-- Whether running a node gives a value that it folds to, from what is known of its leading children. What
    a variable holds is not asked here. -/
def gives (runtime : Runtime) (known : List (Option Constant)) (value : Constant) (node : Term) : Bool :=
  match node.kind with
  | .localRead _ => true
  | .conditional => runtime.branch node value = some value
  | .assign .. => runtime.stored none node known = some value
  | _ => runtime.operate node known = some value

/-- Whether running a node gives the value that it folds to, when it does for its leading children. -/
def isMatched (runtime : Runtime) (mode : Mode) (env : Env) (node : Term) : Bool :=
  (node.visit runtime.context mode env).value.all fun folded =>
    node.gives runtime (node.leadContents runtime.context mode env) folded.value

/-! ## §3. The audit. -/

/-- Variables that may have been written without notice to the environment that a child is visited with,
    given the children before it. -/
def exposure (node : Term) (discipline : Discipline) (earlier : List Term) (child : Term) :
    List String :=
  match discipline with
  | .sequence _ =>
    match node.kind with
    | .loop _ => if earlier.length < node.initialCount then [] else writtenAll node.repeated
    | _ => []
  | _ =>
    match node.kind with
    | .ifStmt | .conditional => writtenAll (earlier.take 1)
    | .switch => writtenAll (earlier.take 1 ++ fallThrough (earlier.drop 1))
    | .tryStmt =>
      if earlier.isEmpty then []
      else if child.isCatch then writtenAll (earlier.take 1)
      else writtenAll (earlier ++ node.children.filter isCatch)
    | _ => writtenAll earlier

/-- Stale variables where the children of a node start. A body starts without any, so that all that
    its environment knows is stale; a class and a field run none of their children. -/
def staleWithin (node : Term) (start : Env) (stale : List String) : List String :=
  match node.kind with
  | .method .. | .lambda => start.keys
  | .classDecl _ | .fieldDecl .. => []
  | _ => stale

/-- Stale variables behind a node, given those behind its children. -/
def staleBehind (node : Term) (mode : Mode) (stale inner : List String) : List String :=
  if mode.role node.kind = .declaration then stale
  else if mode = .evaluate then stale ++ node.written
  else
    match node.kind with
    | .block | .exprStmt => inner
    | .localDecl name _ _ | .assign name _ =>
      (stale ++ writtenAll (node.children.take 1)).filter (· ≠ name)
    | _ => stale ++ node.written

/-- What is known of a variable where the operand of a declaration or assignment starts, unless it may have
    been written before the store. -/
def before? (node : Term) (env : Env) (stale : List String) (name : String) : Option Constant :=
  if (stale ++ writtenAll (node.children.take 1)).contains name then none
  else (env.get? name).map LocalValue.value

/-- Whether what a node itself does with known variables is up to date: what it reads, and what it makes
    known of the variable that it stores to. With `matched`, running the children gives what they fold to. The
    initializer of a final field has to be so, since it is what reads of the field give. -/
def isCurrent (runtime : Runtime) (mode : Mode) (env : Env) (stale : List String) (matched : Bool)
    (node : Term) : Bool :=
  match node.kind with
  | .localRead name => (env.get? name).isNone || !stale.contains name
  | .localDecl name _ _ | .assign name _ =>
    mode = .evaluate
      || match (node.visit runtime.context mode env).env.get? name with
        | none => true
        | some known =>
          matched && runtime.stored (node.before? env stale name) node
            (node.leadContents runtime.context mode env) = some known.value
  | .fieldDecl _ _ _ isFinal => !isFinal || matched
  | _ => true

end Term

/-- What an audit finds. -/
structure Audit where
  /-- No known variable is used while it is stale, and none is known to hold what running does not store. -/
  sound : Bool
  /-- Running gives every value that was folded. -/
  matched : Bool
  /-- Variables that are stale behind what was audited. -/
  stale : List String
deriving DecidableEq, Repr

/-- Stale variables for the next child, from those before and behind a child. -/
def Discipline.staleAfter (discipline : Discipline) (before behind : List String) : List String :=
  match discipline with
  | .sequence _ => behind
  | _ => before

mutual

/-- Audits the visit of a node. -/
def Term.audit (runtime : Runtime) (mode : Mode) (env : Env) (stale : List String) : Term → Audit
  | .node id kind children =>
    let node := Term.node id kind children
    let plan := node.plan mode env
    let parts := auditAll (runtime.within node) (node.exposure plan.discipline) plan.discipline
      (node.visitCount mode env) plan.start (node.staleWithin plan.start stale) [] children
    ⟨node.isCurrent runtime mode env stale parts.matched && parts.sound,
      node.isMatched runtime mode env && parts.matched, node.staleBehind mode stale parts.stale⟩

/-- Audits the visits of at most `count` nodes behind `earlier` ones. -/
def auditAll (runtime : Runtime) (exposed : List Term → Term → List String)
    (discipline : Discipline) (count : Nat) (env : Env) (stale : List String) (earlier : List Term) :
    List Term → Audit
  | [] => ⟨true, true, stale⟩
  | term :: rest =>
    match count with
    | 0 => ⟨true, true, stale⟩
    | count + 1 =>
      let mode := discipline.mode term.kind
      let first := term.audit runtime mode env (stale ++ exposed earlier term)
      let others := auditAll runtime exposed discipline.next count
        (discipline.after term env (term.visit runtime.context mode env).env)
        (discipline.staleAfter stale first.stale) (earlier ++ [term]) rest
      ⟨first.sound && others.sound, first.matched && others.matched, others.stale⟩

end

/-! ## §4. What is stale stays stale. -/

namespace Term

/-- What the audit of a node finds in its children. -/
def auditParts (runtime : Runtime) (mode : Mode) (env : Env) (stale : List String) (node : Term) : Audit :=
  auditAll (runtime.within node) (node.exposure (node.plan mode env).discipline)
    (node.plan mode env).discipline (node.visitCount mode env) (node.plan mode env).start
    (node.staleWithin (node.plan mode env).start stale) [] node.children

theorem audit_eq (runtime : Runtime) (mode : Mode) (env : Env) (stale : List String) (node : Term) :
    node.audit runtime mode env stale
      = let parts := node.auditParts runtime mode env stale
        ⟨node.isCurrent runtime mode env stale parts.matched && parts.sound,
          node.isMatched runtime mode env && parts.matched, node.staleBehind mode stale parts.stale⟩ := by
  cases node with
  | node id kind children =>
    rw [Term.audit]
    rfl

theorem mem_stale_auditAll {runtime : Runtime} {name : String} {children : List Term}
    (ih : ∀ child ∈ children, ∀ mode env stale, name ∉ child.written → name ∈ stale →
      name ∈ (child.audit runtime mode env stale).stale)
    (hname : name ∉ writtenAll children) {exposed : List Term → Term → List String}
    {discipline : Discipline} {count : Nat} {env : Env} {stale : List String} {earlier : List Term}
    (hstale : name ∈ stale) :
    name ∈ (auditAll runtime exposed discipline count env stale earlier children).stale := by
  induction children generalizing discipline count env stale earlier with
  | nil =>
    rw [auditAll]
    exact hstale
  | cons child rest ihrest =>
    unfold writtenAll at hname
    rw [List.mem_append, not_or] at hname
    cases count with
    | zero =>
      rw [auditAll]
      exact hstale
    | succ count =>
      rw [auditAll]
      refine ihrest (fun other hother => ih other (List.mem_cons_of_mem _ hother)) hname.2 ?_
      cases discipline with
      | sequence =>
        exact ih child List.mem_cons_self _ _ _ hname.1 (List.mem_append_left _ hstale)
      | _ => exact hstale

/-- Behind a node every variable is stale that was stale before it and is not written by it. -/
theorem mem_stale_audit (runtime : Runtime) {name : String} (term : Term) :
    ∀ mode env stale, name ∉ term.written → name ∈ stale →
      name ∈ (term.audit runtime mode env stale).stale := by
  induction term using induct with
  | hnode id kind children ih =>
    -- stale variables leave only at the store of the variable itself
    intro mode env stale hname hstale
    have hchildren : name ∉ writtenAll children := fun h => by
      unfold written at hname
      exact hname (List.mem_append_right _ h)
    rw [audit_eq]
    dsimp only
    unfold staleBehind
    split
    · exact hstale
    · split
      · exact List.mem_append_left _ hstale
      · cases kind with
        | block => exact mem_stale_auditAll ih hchildren hstale
        | exprStmt => exact mem_stale_auditAll ih hchildren hstale
        | localDecl target type isFinal =>
          have hne : name ≠ target := fun h => hname (h ▸ mem_written_of_target rfl)
          exact List.mem_filter.2 ⟨List.mem_append_left _ hstale, by simpa using hne⟩
        | assign target op =>
          have hne : name ≠ target := fun h => hname (h ▸ mem_written_of_target rfl)
          exact List.mem_filter.2 ⟨List.mem_append_left _ hstale, by simpa using hne⟩
        | _ => exact List.mem_append_left _ hstale

/-! ## §5. Completion. -/

/-- Whether control may go on behind one of two branches. -/
def branchesComplete : List Term → Bool
  | [_, yes, no] => yes.completes || no.completes
  | _ => true

/-- Whether control may go on behind a node once its leading children are evaluated. -/
def restCompletes (node : Term) : Bool :=
  node.exit?.isNone && (node.kind ≠ .ifStmt || branchesComplete node.children)

theorem restCompletes_of_kind {node : Term} (hkind : node.kind ≠ .ifStmt) (hexit : node.exit? = none) :
    node.restCompletes = true := by
  simp [restCompletes, hkind, hexit]

theorem restCompletes_of_choice {node : Term} (hchoice : node.isChoice = true)
    (hbranches : node.kind = .ifStmt → branchesComplete node.children = true) :
    node.restCompletes = true := by
  rcases kind_of_isChoice hchoice with hkind | hkind
  · simp [restCompletes, exit?, hkind, hbranches hkind]
  · exact restCompletes_of_kind (by simp [hkind]) (by simp [exit?, hkind])

theorem branchesComplete_of_mem {children : List Term} {choice : Term} (hmem : choice ∈ children.drop 1)
    (hchoice : choice.completes = true) : branchesComplete children = true := by
  unfold branchesComplete
  split
  · simp only [List.drop_succ_cons, List.drop_zero, List.mem_cons, List.not_mem_nil, or_false] at hmem
    rcases hmem with rfl | rfl <;> simp [hchoice]
  · rfl

theorem branchesComplete_of_lt {children : List Term} (h : children.length < 3) :
    branchesComplete children = true := by
  unfold branchesComplete
  split
  · simp at h
  · rfl

theorem isAbrupt_of_exit? {node : Term} {ending : Execution.Ending} (h : node.exit? = some ending) :
    ending.isAbrupt = true := by
  unfold exit? at h
  split at h <;> cases h <;> rfl

theorem exit?_of_isPlain {node : Term} (h : node.isPlain = true) :
    node.kind ≠ .ifStmt ∧ node.exit? = none := by
  cases node with
  | node id kind children =>
    cases kind <;> simp_all [isPlain, exit?, isChoice, target?, Term.kind]

theorem completes_of_rest {node : Term} (hlead : completesAll node.leading = true)
    (hrest : node.restCompletes = true) : node.completes = true := by
  cases node with
  | node id kind children =>
    cases kind with
    | block | exprStmt | switchCase | catchClause | synchronizedStmt =>
      show completesAll children = true
      simpa [leading, leadCount, Term.kind, Term.children] using hlead
    | breakStmt | continueStmt | returnStmt | throwStmt => cases hrest
    | ifStmt =>
      have hbranches : branchesComplete children = true := by
        simpa [restCompletes, Term.kind, Term.children, exit?] using hrest
      rcases children with _ | ⟨first, _ | ⟨yes, _ | ⟨no, _ | ⟨fourth, rest⟩⟩⟩⟩
      · rfl
      · rfl
      · rfl
      · exact hbranches
      · rfl
    | _ => rfl

end Term

namespace Execution

/-- Whether control may go on behind a task. -/
def Task.completes : Task → Bool
  | .term node => node.completes
  | .turns nodes => Term.completesAll nodes
  | .rounds _ => true
  | .rest _ node _ => node.restCompletes

/-- Control goes on behind nodes only that it may go on behind. -/
theorem completes_of_exec {runtime : Runtime} {task : Task} {ending : Ending} {past history : History}
    (h : Exec runtime task past ending history) (hending : ending.isAbrupt = false) :
    task.completes = true := by
  induction h with
  | abandon => cases hending
  | term _ _ ihlead ihrest => exact Term.completes_of_rest (ihlead rfl) (ihrest hending)
  | stop _ habrupt => rw [habrupt] at hending; cases hending
  | @short node op value past history hkind hlead hdecides ihlead =>
    cases node with
    | node id kind children =>
      obtain rfl : kind = .binary op := hkind
      rfl
  | turnsNil => rfl
  | @turnsCons node nodes value ending past between history hfirst hothers ihfirst ihothers =>
    have hnode : node.completes = true := ihfirst rfl
    have hnodes : Term.completesAll nodes = true := by
      apply ihothers
      cases ending <;> first | rfl | exact hending
    show (node.completes && Term.completesAll nodes) = true
    rw [hnode, hnodes]
    rfl
  | turnsStop _ habrupt => rw [habrupt] at hending; cases hending
  | roundsEnd => rfl
  | roundsNext => rfl
  | roundsStop => rfl
  | read hkind _ => exact Term.restCompletes_of_kind (by simp [hkind]) (by simp [Term.exit?, hkind])
  | store htarget _ =>
    rcases Term.kind_of_target htarget with ⟨type, isFinal, hkind⟩ | ⟨op, hkind⟩
    · exact Term.restCompletes_of_kind (by simp [hkind]) (by simp [Term.exit?, hkind])
    · exact Term.restCompletes_of_kind (by simp [hkind]) (by simp [Term.exit?, hkind])
  | step hstep _ =>
    have hkind := (Term.kind_of_stepped hstep).1
    exact Term.restCompletes_of_kind (by simp [hkind]) (by simp [Term.exit?, hkind])
  | plain hplain _ =>
    obtain ⟨hkind, hexit⟩ := Term.exit?_of_isPlain hplain
    exact Term.restCompletes_of_kind hkind hexit
  | leave hexit => rw [Term.isAbrupt_of_exit? hexit] at hending; cases hending
  | choose hchoice hmem _ hpasses ihbranch =>
    refine Term.restCompletes_of_choice hchoice fun _ => ?_
    refine Term.branchesComplete_of_mem (Term.mem_drop_of_mem_alternatives hmem) (ihbranch ?_)
    cases hpasses with
    | done => rfl
    | abrupt habrupt => rw [habrupt] at hending; cases hending
  | pass hchoice hfew =>
    exact Term.restCompletes_of_choice hchoice fun _ => Term.branchesComplete_of_lt hfew
  | switch hkind _ => exact Term.restCompletes_of_kind (by simp [hkind]) (by simp [Term.exit?, hkind])
  | loop hkind _ => exact Term.restCompletes_of_kind (by simp [hkind]) (by simp [Term.exit?, hkind])
  | guarded hkind _ => exact Term.restCompletes_of_kind (by simp [hkind]) (by simp [Term.exit?, hkind])
  | handled hkind _ => exact Term.restCompletes_of_kind (by simp [hkind]) (by simp [Term.exit?, hkind])

end Execution

end PatchPresence
