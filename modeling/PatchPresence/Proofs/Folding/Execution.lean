/-
  PatchPresence.Proofs.Folding.Execution — structured executions of the statements of a method.

  An execution turns one history of reads and writes of local variables into a longer one. Operands are
  evaluated from the left, and an assignment, a declaration or a step of a variable takes effect when it is
  evaluated. Either branch of an `if` may run, a loop goes round any number of times behind its
  initialisers, a switch is entered at any case and falls through until it is left, and any node may be
  abandoned at any point, which also stands for an exception.

  Values are those of `Runtime`. Conversions to declared types, equality of objects and the types of
  conditional expressions are Java's there, against what folding does; arithmetic, comparisons and casts are
  those of folding, which are Java's too; and what fields and library methods hold is what the tables of
  folding say. Where `Runtime` fixes nothing a value is arbitrary.

  Main definition:
    * `Exec` — the executions of a node, of nodes in turn, and of the rounds of a loop.
-/
import PatchPresence.Proofs.Folding.Runtime

namespace PatchPresence

namespace Execution

/-! ## §1. Values and histories. -/

/-- A value at run time. -/
inductive Value
  /-- A value of a primitive type, a box, a string or null, by its content. -/
  | constant (content : Constant)
  /-- Any other object. -/
  | other
deriving DecidableEq, Repr

/-- The content of a value. -/
def Value.constant? : Value → Option Constant
  | .constant content => some content
  | .other => none

/-- What happens to a local variable. -/
inductive Event
  /-- The node `id` reads a variable. -/
  | read (id : Nat) (name : String)
  /-- A declaration, an assignment or a step stores a value. -/
  | write (name : String) (value : Value)
deriving DecidableEq, Repr

/-- Events, the latest first. -/
abbrev History := List Event

/-- What the latest write of a variable stored. -/
def latest (name : String) : History → Option Value
  | [] => none
  | .read _ _ :: past => latest name past
  | .write other value :: past => if other = name then some value else latest name past

theorem latest_write (name other : String) (value : Value) (past : History) :
    latest name (.write other value :: past)
      = if other = name then some value else latest name past := rfl

/-- A value that an operation may give: the one that is fixed, or any when none is. -/
def Yields (fixed : Option Constant) (value : Value) : Prop :=
  ∀ constant, fixed = some constant → value = .constant constant

/-! ## §2. Endings. -/

/-- How an execution ends. -/
inductive Ending
  /-- One node is evaluated. -/
  | done (value : Value)
  /-- Several nodes are evaluated, or all rounds of a loop are over. -/
  | all (values : List Value)
  | broke
  | continued
  /-- The method returns. -/
  | left
  /-- An exception is raised, or no more of the execution is looked at. -/
  | abandoned
deriving DecidableEq, Repr

namespace Ending

/-- Control does not go on to what follows. -/
def isAbrupt : Ending → Bool
  | .done _ | .all _ => false
  | .broke | .continued | .left | .abandoned => true

/-- A loop goes on to its next round. -/
def goesRound : Ending → Bool
  | .done _ | .continued => true
  | _ => false

/-- What a node makes of the ending of its part: it may change a value and nothing else. -/
inductive Passes (change : Constant → Option Constant) : Ending → Ending → Prop
  | done {value result : Value} (h : Yields (value.constant?.bind change) result) :
      Passes change (.done value) (.done result)
  | abrupt {ending : Ending} (h : ending.isAbrupt = true) : Passes change ending ending

/-- Puts the value of a node before those of the nodes behind it. -/
def prepend (value : Value) : Ending → Ending
  | .all values => .all (value :: values)
  | other => other

/-- Ending of a loop or switch from that of its parts: a break leaves nothing else. -/
def settled : Ending → Ending
  | .all _ | .broke => .done .other
  | other => other

/-- Ending of a statement behind its `finally` part, which counts when it is abrupt itself. -/
def behind (ending : Ending) : Ending → Ending
  | .all _ => ending
  | other => other

end Ending

end Execution

/-! ## §3. Parts of a node. -/

namespace Term

/-- Number of the children of a loop that run once, before its rounds: those before the condition. -/
def initialCount (loop : Term) : Nat :=
  (loop.children.findIdx? fun child => child.kind = .condition).getD 0

/-- Children of a loop that run in every round. -/
def repeated (loop : Term) : List Term := loop.children.drop loop.initialCount

/-- Number of the children that are evaluated first. -/
def leadCount (node : Term) : Nat :=
  match node.kind with
  | .literal _ | .localRead _ | .tryStmt | .breakStmt | .continueStmt | .lambda | .classDecl _
  | .method .. | .fieldDecl .. => 0
  | .unary _ | .cast _ | .assign .. | .localDecl .. | .ifStmt | .conditional | .switch => 1
  | .binary _ => 2
  | .loop _ => node.initialCount
  | _ => node.children.length

/-- Children that are evaluated first, in turn. -/
def leading (node : Term) : List Term := node.children.take node.leadCount

/-- The variable that a declaration or assignment stores to. -/
def target? (node : Term) : Option String :=
  match node.kind with
  | .localDecl name _ _ => some name
  | .assign name _ => some name
  | _ => none

/-- Declarations and assignments store, and nothing else does. -/
theorem kind_of_target {node : Term} {name : String} (h : node.target? = some name) :
    (∃ type isFinal, node.kind = .localDecl name type isFinal) ∨ ∃ op, node.kind = .assign name op := by
  unfold target? at h
  split at h
  · next hkind =>
    obtain rfl := Option.some.inj h
    exact .inl ⟨_, _, hkind⟩
  · next hkind =>
    obtain rfl := Option.some.inj h
    exact .inr ⟨_, hkind⟩
  · cases h

/-- The variable that an increment or decrement changes. -/
def stepped? (node : Term) : Option (UnaryOp × String) :=
  match node.kind, node.children.head?.map Term.kind with
  | .unary op, some (.localRead name) => if op.isStep then some (op, name) else none
  | _, _ => none

theorem kind_of_stepped {node : Term} {op : UnaryOp} {name : String}
    (h : node.stepped? = some (op, name)) :
    node.kind = .unary op ∧ op.isStep = true
      ∧ node.children.head?.map Term.kind = some (.localRead name) := by
  unfold stepped? at h
  split at h
  · next hkind hhead =>
    split at h
    · next hstep =>
      obtain ⟨rfl, rfl⟩ := Prod.mk.inj (Option.some.inj h)
      exact ⟨hkind, hstep, hhead⟩
    · cases h
  · cases h

/-- How control leaves a node for good. -/
def exit? (node : Term) : Option Execution.Ending :=
  match node.kind with
  | .returnStmt => some .left
  | .throwStmt => some .abandoned
  | .breakStmt => some .broke
  | .continueStmt => some .continued
  | _ => none

/-- Whether one of several children of a node is chosen. -/
def isChoice (node : Term) : Bool :=
  match node.kind with
  | .ifStmt | .conditional => true
  | _ => false

theorem kind_of_isChoice {node : Term} (h : node.isChoice = true) :
    node.kind = .ifStmt ∨ node.kind = .conditional := by
  unfold isChoice at h
  split at h
  · next hkind => exact .inl hkind
  · next hkind => exact .inr hkind
  · cases h

theorem leading_of_isChoice {node : Term} (h : node.isChoice = true) :
    node.leading = node.children.take 1 := by
  rcases kind_of_isChoice h with hkind | hkind <;> simp [leading, leadCount, hkind]

/-- Children that one is chosen of, given the value of the first child. -/
def alternatives (node : Term) (values : List Execution.Value) : List Term :=
  match node.kind, values, node.children with
  | .conditional, [.constant (.bool flag)], [_, yes, no] => [if flag then yes else no]
  | _, _, _ => node.children.drop 1

/-- Whether a node handles exceptions. -/
def isCatch (node : Term) : Bool :=
  match node.kind with
  | .catchClause _ => true
  | _ => false

/-- Whether nothing but its value comes of a node behind its leading children. -/
def isPlain (node : Term) : Bool :=
  match node.kind with
  | .localRead _ | .switch | .loop _ => false
  | .tryStmt => node.children.isEmpty
  | _ => node.target?.isNone && node.stepped?.isNone && node.exit?.isNone && !node.isChoice

end Term

namespace Execution

/-! ## §4. Values of nodes. -/

/-- What is known of some values. -/
def contents (values : List Value) : List (Option Constant) := values.map Value.constant?

/-- Value of an increment or decrement from those before and behind it. -/
def stepValue (op : UnaryOp) (old new : Value) : Value :=
  match op with
  | .preIncrement | .preDecrement => new
  | _ => old

/-- The value of its left operand alone decides a logical operator. -/
def Decides (op : BinaryOp) (value : Value) : Prop :=
  (op = .and ∧ value = .constant (.bool false)) ∨ (op = .or ∧ value = .constant (.bool true))

/-! ## §5. Executions. -/

/-- What is executed. -/
inductive Task
  | term (node : Term)
  /-- Nodes from the left. -/
  | turns (nodes : List Term)
  /-- Rounds of a loop through its repeated children. -/
  | rounds (nodes : List Term)
  /-- What a node does behind its leading children, given their values and the history before them. -/
  | rest (start : History) (node : Term) (values : List Value)

/-- Executions of a task from a history, with their endings and the histories behind them. -/
inductive Exec (runtime : Runtime) : Task → History → Ending → History → Prop
  /-- Any task may be abandoned before it starts. -/
  | abandon {task : Task} {h : History} : Exec runtime task h .abandoned h
  /-- A node evaluates its leading children and then does the rest. -/
  | term {node : Term} {values : List Value} {ending : Ending} {h h₁ h₂ : History}
      (hlead : Exec runtime (.turns node.leading) h (.all values) h₁)
      (hrest : Exec runtime (.rest h node values) h₁ ending h₂) :
      Exec runtime (.term node) h ending h₂
  | stop {node : Term} {ending : Ending} {h h₁ : History}
      (hlead : Exec runtime (.turns node.leading) h ending h₁) (habrupt : ending.isAbrupt = true) :
      Exec runtime (.term node) h ending h₁
  /-- A logical operator may leave its right operand alone. -/
  | short {node : Term} {op : BinaryOp} {value : Value} {h h₁ : History}
      (hkind : node.kind = .binary op)
      (hlead : Exec runtime (.turns (node.children.take 1)) h (.all [value]) h₁)
      (hdecides : Decides op value) : Exec runtime (.term node) h (.done value) h₁
  | turnsNil {h : History} : Exec runtime (.turns []) h (.all []) h
  | turnsCons {node : Term} {nodes : List Term} {value : Value} {ending : Ending} {h h₁ h₂ : History}
      (hfirst : Exec runtime (.term node) h (.done value) h₁)
      (hothers : Exec runtime (.turns nodes) h₁ ending h₂) :
      Exec runtime (.turns (node :: nodes)) h (ending.prepend value) h₂
  | turnsStop {node : Term} {nodes : List Term} {ending : Ending} {h h₁ : History}
      (hfirst : Exec runtime (.term node) h ending h₁) (habrupt : ending.isAbrupt = true) :
      Exec runtime (.turns (node :: nodes)) h ending h₁
  | roundsEnd {nodes : List Term} {h : History} : Exec runtime (.rounds nodes) h (.all []) h
  | roundsNext {node : Term} {nodes : List Term} {ending last : Ending} {h h₁ h₂ : History}
      (hmem : node ∈ nodes) (hfirst : Exec runtime (.term node) h ending h₁)
      (hround : ending.goesRound = true) (hothers : Exec runtime (.rounds nodes) h₁ last h₂) :
      Exec runtime (.rounds nodes) h last h₂
  | roundsStop {node : Term} {nodes : List Term} {ending : Ending} {h h₁ : History}
      (hmem : node ∈ nodes) (hfirst : Exec runtime (.term node) h ending h₁)
      (habrupt : ending.isAbrupt = true) (hround : ending.goesRound = false) :
      Exec runtime (.rounds nodes) h ending h₁
  /-- A read gives what the latest write stored. -/
  | read {start h : History} {node : Term} {name : String} {value : Value} {values : List Value}
      (hkind : node.kind = .localRead name) (hvalue : ∀ last, latest name h = some last → value = last) :
      Exec runtime (.rest start node values) h (.done value) (.read node.id name :: h)
  | store {start h : History} {node : Term} {name : String} {value : Value} {values : List Value}
      (htarget : node.target? = some name)
      (hvalue : Yields
        (runtime.stored ((latest name start).bind Value.constant?) node (contents values)) value) :
      Exec runtime (.rest start node values) h (.done value) (.write name value :: h)
  | step {start h : History} {node : Term} {op : UnaryOp} {name : String} {old new : Value}
      (hstep : node.stepped? = some (op, name)) (hvalue : Yields (runtime.next name op old.constant?) new) :
      Exec runtime (.rest start node [old]) h (.done (stepValue op old new)) (.write name new :: h)
  | plain {start h : History} {node : Term} {value : Value} {values : List Value}
      (hplain : node.isPlain = true) (hvalue : Yields (runtime.operate node (contents values)) value) :
      Exec runtime (.rest start node values) h (.done value) h
  | leave {start h : History} {node : Term} {ending : Ending} {values : List Value}
      (hexit : node.exit? = some ending) : Exec runtime (.rest start node values) h ending h
  | choose {start h h₁ : History} {node choice : Term} {ending last : Ending} {values : List Value}
      (hchoice : node.isChoice = true) (hmem : choice ∈ node.alternatives values)
      (hbranch : Exec runtime (.term choice) h ending h₁)
      (hpasses : Ending.Passes (runtime.branch node) ending last) :
      Exec runtime (.rest start node values) h last h₁
  /-- A choice without a last alternative may run none. -/
  | pass {start h : History} {node : Term} {values : List Value}
      (hchoice : node.isChoice = true) (hfew : node.children.length < 3) :
      Exec runtime (.rest start node values) h (.done .other) h
  /-- A switch is entered at one of its cases, or behind the last, and falls through. -/
  | switch {start h h₁ : History} {node : Term} {ending : Ending} {values : List Value} {skipped : Nat}
      (hkind : node.kind = .switch)
      (hcases : Exec runtime (.turns (node.children.drop (skipped + 1))) h ending h₁) :
      Exec runtime (.rest start node values) h ending.settled h₁
  | loop {start h h₁ : History} {node : Term} {kind : LoopKind} {ending : Ending} {values : List Value}
      (hkind : node.kind = .loop kind) (hrounds : Exec runtime (.rounds node.repeated) h ending h₁) :
      Exec runtime (.rest start node values) h ending.settled h₁
  /-- The `finally` part runs however the body ends. -/
  | guarded {start h h₁ h₂ : History} {node body : Term} {clauses : List Term} {ending last : Ending}
      {values : List Value} (hkind : node.kind = .tryStmt) (hchildren : node.children = body :: clauses)
      (hbody : Exec runtime (.term body) h ending h₁)
      (hfinally : Exec runtime (.turns (clauses.filter (!·.isCatch))) h₁ last h₂) :
      Exec runtime (.rest start node values) h (ending.behind last) h₂
  /-- A body that is abandoned may go on in a handler. -/
  | handled {start h h₁ h₂ h₃ : History} {node body clause : Term} {clauses : List Term}
      {ending last : Ending} {values : List Value} (hkind : node.kind = .tryStmt)
      (hchildren : node.children = body :: clauses)
      (hbody : Exec runtime (.term body) h .abandoned h₁) (hmem : clause ∈ clauses)
      (hcatch : clause.isCatch = true) (hhandler : Exec runtime (.term clause) h₁ ending h₂)
      (hfinally : Exec runtime (.turns (clauses.filter (!·.isCatch))) h₂ last h₃) :
      Exec runtime (.rest start node values) h (ending.behind last) h₃

end Execution

end PatchPresence
