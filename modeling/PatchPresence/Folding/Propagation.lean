/-
  PatchPresence.Folding.Propagation — constants of expressions in a syntax tree.

  Expressions are folded bottom-up. Local variables are followed by one pass over the statements: what
  is assigned under nested control flow is forgotten when that statement ends, and what is assigned in a
  loop is forgotten before the loop starts. Every visit of a node yields the records of the nodes below
  it, the environment behind it, and its own value.
-/
import PatchPresence.Folding.Arithmetic
import PatchPresence.Folding.Library
import PatchPresence.Source.Tree

namespace PatchPresence

/-! ## §1. Values and environments. -/

/-- A constant, and whether a compiler would inline it too. -/
structure Folded where
  value : Constant
  compileTime : Bool
deriving DecidableEq, Repr

/-- Known value of a local variable. -/
structure LocalValue where
  value : Constant
  isFinal : Bool
deriving DecidableEq, Repr

/-- Known values of local variables by name. -/
abbrev Env := Table String LocalValue

/-- Forgets local variables. -/
def Env.forget (env : Env) (names : List String) : Env := names.foldl Table.erase env

/-- Sets a local variable to a value, or forgets it. -/
def Env.assign (env : Env) (name : String) (isFinal : Bool) : Option Constant → Env
  | some value => env.insert name ⟨value, isFinal⟩
  | none => env.erase name

/-- What field reads and invocations may resolve to. -/
structure FoldContext where
  library : LibraryConstants
  /-- Final fields of the tree by key. -/
  fields : Table String Constant
deriving DecidableEq, Repr

/-- Constant of a field: first of the library, then of the tree. -/
def FoldContext.field? (context : FoldContext) (owner name : String) : Option Folded :=
  let key := LibraryConstants.fieldKey owner name
  match context.library.get? key with
  | some value => some ⟨value, true⟩
  | none =>
    if LibraryConstants.isPlatform owner then none
    else (context.fields.get? key).map (⟨·, true⟩)

/-! ## §2. Assigned variables. -/

/-- Variable that a node itself assigns. -/
def ownAssigned (kind : NodeKind) (children : List Term) : List String :=
  match kind with
  | .assign target _ => [target]
  | .unary op =>
    if op.isStep then
      match children.head?.map Term.kind with
      | some (.localRead name) => [name]
      | _ => []
    else
      []
  | _ => []

mutual

/-- Variables that are assigned, incremented or decremented at or below a node. -/
def Term.assigned : Term → List String
  | .node _ kind children => ownAssigned kind children ++ assignedAll children

/-- Variables that are assigned in one of several nodes. -/
def assignedAll : List Term → List String
  | [] => []
  | term :: rest => term.assigned ++ assignedAll rest

end

/-- Variables that are assigned at or below a node, in ascending order. -/
def SyntaxTree.assignedLocals (tree : SyntaxTree) (id : Nat) : List String :=
  Ascending.ofList (((tree.term? id).map Term.assigned).getD [])

/-! ## §3. How nodes are visited. -/

/-- What the parent of a node wants from it. -/
inductive Mode
  /-- The node is a root or a member of a class; no variable is known there. -/
  | declare
  /-- The node is a statement among others. -/
  | execute
  /-- The node is part of a statement with control flow. -/
  | nest
  /-- The value of the node. -/
  | evaluate
deriving DecidableEq, Repr

/-- What is done with a node. -/
inductive Role
  | declaration
  | statement
  | condition
  | expression
deriving DecidableEq, Repr

/-- Whether a node declares a class or a member. -/
def NodeKind.isDeclaration : NodeKind → Bool
  | .classDecl _ | .method .. | .fieldDecl .. => true
  | _ => false

/-- Whether a node assigns a local variable. -/
def NodeKind.isAssign : NodeKind → Bool
  | .assign .. => true
  | _ => false

/-- What is done with a node of a kind. -/
def Mode.role (mode : Mode) (kind : NodeKind) : Role :=
  match mode with
  | .declare | .execute =>
    if kind.isDeclaration then .declaration
    else if kind.isStatement || kind.isAssign then .statement
    else .expression
  | .nest =>
    if kind = .condition then .condition
    else if kind.isStatement || kind.isAssign then .statement
    else .expression
  | .evaluate => if kind.isStatement then .statement else .expression

/-- How environments go through the children of a node. -/
inductive Discipline
  /-- Every child starts from the same environment. -/
  | each (mode : Mode)
  /-- Every child starts where the one before it ended. -/
  | sequence (mode : Mode)
  /-- Every child is evaluated, and what it assigns is forgotten behind it. -/
  | operands
  /-- A leading expression is evaluated; all others are alternatives, or, when `carry`, run in turn. -/
  | branches (leading carry : Bool)
deriving DecidableEq, Repr

namespace Discipline

/-- Whether a child is evaluated as a leading expression. -/
def leads (leading : Bool) (kind : NodeKind) : Bool := leading && !kind.isStatement

/-- What is wanted from a child. -/
def mode (discipline : Discipline) (kind : NodeKind) : Mode :=
  match discipline with
  | .each mode => mode
  | .sequence mode => mode
  | .operands => .evaluate
  | .branches leading _ => if leads leading kind then .evaluate else .nest

/-- Environment for the next child, from those before and behind a child. -/
def after (discipline : Discipline) (child : Term) (before behind : Env) : Env :=
  match discipline with
  | .each _ => before
  | .sequence _ => behind
  | .operands => before.forget child.assigned
  | .branches leading carry => if carry && !leads leading child.kind then behind else before

/-- Discipline for the next child. -/
def next : Discipline → Discipline
  | .branches _ carry => .branches false carry
  | other => other

end Discipline

/-- Which children are visited, how, and from which environment. -/
structure Plan where
  discipline : Discipline
  /-- Greatest number of children; none for all. -/
  count : Option Nat
  start : Env
deriving DecidableEq, Repr

/-- How a declaration is visited. -/
def Plan.declaration : NodeKind → Plan
  | .classDecl _ => ⟨.each .declare, none, .empty⟩
  | .method .. => ⟨.sequence .execute, none, .empty⟩
  | _ => ⟨.each .evaluate, none, .empty⟩

/-- How a statement is visited, given the variables that it assigns. -/
def Plan.statement (env : Env) (assigned : List String) : NodeKind → Plan
  | .block | .exprStmt => ⟨.sequence .execute, none, env⟩
  | .localDecl .. | .assign .. => ⟨.operands, some 1, env⟩
  | .loop _ => ⟨.sequence .nest, none, env.forget assigned⟩
  | .synchronizedStmt => ⟨.branches true true, none, env⟩
  | .ifStmt | .switch | .switchCase _ | .tryStmt | .catchClause _ =>
    ⟨.branches true false, none, env⟩
  | .returnStmt | .throwStmt => ⟨.operands, none, env⟩
  | .breakStmt | .continueStmt => ⟨.operands, some 0, env⟩
  | .classDecl _ | .method .. | .fieldDecl .. | .condition | .literal _ | .binary _ | .unary _
  | .conditional | .cast _ | .localRead _ | .fieldRead .. | .fieldWrite .. | .arrayStore
  | .arrayAccess | .invocation .. | .newObject _ | .newArray .. | .instanceOf _ | .lambda
  | .arrayLength => ⟨.each .evaluate, none, env⟩

/-- How an expression is visited. -/
def Plan.expression (env : Env) : NodeKind → Plan
  | .literal _ | .localRead _ => ⟨.each .evaluate, some 0, env⟩
  | .binary _ => ⟨.each .evaluate, some 2, env⟩
  | .unary _ | .cast _ | .assign .. => ⟨.each .evaluate, some 1, env⟩
  | .lambda => ⟨.each .nest, none, .empty⟩
  | _ => ⟨.each .evaluate, none, env⟩

/-- How a node is visited. -/
def Plan.of (role : Role) (env : Env) (assigned : List String) (kind : NodeKind) : Plan :=
  match role with
  | .declaration => .declaration kind
  | .statement => .statement env assigned kind
  | .condition => ⟨.each .evaluate, none, env⟩
  | .expression => .expression env kind

/-! ## §4. Values of expressions and effects of statements. -/

/-- Value of a conditional expression from those of its three parts. -/
def foldConditional : List (Option Folded) → Option Folded
  | [some condition, some yes, some no] =>
    match condition.value with
    | .bool flag =>
      some ⟨if flag then yes.value else no.value,
        condition.compileTime && yes.compileTime && no.compileTime⟩
    | _ => none
  | _ => none

/-- Value of an invocation from those of its arguments. -/
def foldInvocation (library : LibraryConstants) (owner name : String) (arity : Nat)
    (arguments : List (Option Folded)) : Option Folded :=
  if arity = 0 then
    (library.invocation? owner name).map (⟨·, false⟩)
  else if name = "valueOf" && arity = 1 then do
    let argument ← arguments.getLast?.join
    return ⟨← Constant.boxed owner argument.value, false⟩
  else
    none

/-- Length of an array that is written out. -/
def foldArrayLength (array : Option Term) : Option Folded :=
  match array with
  | some (.node _ (.newArray _ true) elements) =>
    if elements.length ≤ Int32.maxValue.toInt then
      some ⟨.int (Int32.ofNat elements.length), false⟩
    else
      none
  | _ => none

/-- Value of an expression from those of its parts. -/
def foldKind (context : FoldContext) (env : Env) (kind : NodeKind) (children : List Term)
    (values : List (Option Folded)) : Option Folded :=
  match kind with
  | .literal value => some ⟨value, true⟩
  | .localRead name => (env.get? name).map fun known => ⟨known.value, known.isFinal⟩
  | .fieldRead owner name _ => context.field? owner name
  | .binary op => do
    let left ← (values[0]?).join
    let right ← (values[1]?).join
    return ⟨← Constant.binary op left.value right.value, left.compileTime && right.compileTime⟩
  | .unary op =>
    if op.isStep then
      none
    else do
      let operand ← (values[0]?).join
      return ⟨← Constant.unary op operand.value, operand.compileTime⟩
  | .conditional => foldConditional values
  | .cast type => do
    let operand ← (values[0]?).join
    return ⟨← Constant.cast type operand.value, operand.compileTime⟩
  | .invocation owner name arity _ => foldInvocation context.library owner name arity values
  | .arrayLength => foldArrayLength children.head?
  | .assign .. => (values[0]?).join.map fun folded => ⟨folded.value, false⟩
  | _ => none

/-- New value of a variable from its environment and the value assigned. -/
def assignedValue (env : Env) (target : String) (op : Option BinaryOp) (value : Option Folded) :
    Option Constant := do
  let folded ← value
  match op with
  | none => return folded.value
  | some op =>
    let known ← env.get? target
    Constant.coerceLike known.value (← Constant.binary op known.value folded.value)

/-- Environment behind a statement, from those before it and behind its children. -/
def statementEnv (kind : NodeKind) (assigned : List String) (before behind : Env)
    (values : List (Option Folded)) : Env :=
  match kind with
  | .localDecl name type isFinal =>
    behind.assign name isFinal ((values[0]?).join.bind fun folded => Constant.coerce type folded.value)
  | .assign target op =>
    behind.assign target false (assignedValue behind target op (values[0]?).join)
  | .loop _ | .ifStmt | .switch | .switchCase _ | .tryStmt | .catchClause _ | .synchronizedStmt =>
    before.forget assigned
  | _ => behind

/-! ## §5. Visits. -/

/-- What the visit of a node yields. -/
structure Visit where
  /-- Values of the expressions visited, by node. -/
  records : List (Nat × Option Folded)
  /-- Environment behind the node. -/
  env : Env
  /-- Value of the node itself. -/
  value : Option Folded

/-- What the visits of several nodes yield. -/
structure Visits where
  records : List (Nat × Option Folded)
  env : Env
  values : List (Option Folded)

/-- Puts together the visit of a node from the visits of its children. -/
def Visit.finish (context : FoldContext) (mode : Mode) (env : Env) (assigned : List String) (id : Nat)
    (kind : NodeKind) (children : List Term) (parts : Visits) : Visit :=
  match mode.role kind with
  | .declaration => ⟨parts.records, env, none⟩
  | .condition => ⟨parts.records, env, none⟩
  | .statement =>
    let behind := if mode = .evaluate then env
      else statementEnv kind assigned env parts.env parts.values
    match kind with
    | .assign target op =>
      let result := (assignedValue parts.env target op (parts.values[0]?).join).map (⟨·, false⟩)
      ⟨parts.records ++ [(id, result)], behind, none⟩
    | _ => ⟨parts.records, behind, none⟩
  | .expression =>
    let value := foldKind context env kind children parts.values
    let behind := if mode = .execute then env.forget assigned else env
    ⟨parts.records ++ [(id, value)], behind, value⟩

mutual

/-- Visits a node. -/
def Term.visit (context : FoldContext) (mode : Mode) (env : Env) : Term → Visit
  | .node id kind children =>
    let assigned := Term.assigned (.node id kind children)
    let plan := Plan.of (mode.role kind) env assigned kind
    let parts := visitAll context plan.discipline (plan.count.getD children.length) plan.start children
    .finish context mode env assigned id kind children parts

/-- Visits at most `count` nodes in order. -/
def visitAll (context : FoldContext) (discipline : Discipline) (count : Nat) (env : Env) :
    List Term → Visits
  | [] => ⟨[], env, []⟩
  | term :: rest =>
    match count with
    | 0 => ⟨[], env, []⟩
    | count + 1 =>
      let first := term.visit context (discipline.mode term.kind) env
      let others := visitAll context discipline.next count
        (discipline.after term env first.env) rest
      ⟨first.records ++ others.records, others.env, first.value :: others.values⟩

end

/-! ## §6. Final fields. -/

/-- A final field with an initializer. -/
structure FinalField where
  key : String
  type : String
  initializer : Term

/-- Final fields of a tree by ascending node. -/
def SyntaxTree.finalFields (tree : SyntaxTree) : List FinalField :=
  (List.range tree.size).filterMap fun id => do
    match ← tree.kind? id with
    | .fieldDecl name type _ true =>
      let initializer ← tree.term? (← (tree.children id).head?)
      let owner ← tree.className? id
      return ⟨LibraryConstants.fieldKey owner name, type, initializer⟩
    | _ => none

/-- Value of a field when its initializer is a constant expression. -/
def FinalField.value? (field : FinalField) (context : FoldContext) : Option Constant := do
  let folded ← (field.initializer.visit context .evaluate .empty).value
  if folded.compileTime then Constant.coerce field.type folded.value else none

/-- Adds the fields whose initializers fold, given what was known when the round began. -/
def resolveRound (library : LibraryConstants) (candidates : List FinalField)
    (known : Table String Constant) : Table String Constant :=
  candidates.foldl (fun acc field =>
    if acc.contains field.key then acc
    else
      match field.value? ⟨library, known⟩ with
      | some value => acc.insert field.key value
      | none => acc) known

/-- Repeats rounds until one adds nothing, at most `fuel` times. -/
def resolveFields (library : LibraryConstants) (candidates : List FinalField) :
    Nat → Table String Constant → Table String Constant
  | 0, known => known
  | fuel + 1, known =>
    let next := resolveRound library candidates known
    if next.size = known.size then next else resolveFields library candidates fuel next

/-- Values of the final fields of a tree by key. Every round adds a field or is the last. -/
def SyntaxTree.constantFields (tree : SyntaxTree) (library : LibraryConstants) :
    Table String Constant :=
  let candidates := tree.finalFields
  resolveFields library candidates (candidates.length + 1) .empty

/-! ## §7. The whole tree. -/

/-- Values of the expressions of a tree by node; none for an expression that is not constant. -/
structure ConstantBinding where
  values : Table Nat (Option Folded)

namespace ConstantBinding

/-- Constant value of a node. -/
def value? (binding : ConstantBinding) (id : Nat) : Option Constant :=
  (binding.values.get? id).join.map Folded.value

/-- Whether a compiler replaces the node by a single constant. -/
def isCompileTime (binding : ConstantBinding) (id : Nat) : Bool :=
  ((binding.values.get? id).join.map Folded.compileTime).getD false

end ConstantBinding

/-- Folds every expression of a tree. -/
def SyntaxTree.propagate (tree : SyntaxTree) (library : LibraryConstants) : ConstantBinding :=
  let context : FoldContext := ⟨library, tree.constantFields library⟩
  ⟨.ofList (tree.forest.flatMap fun term => (term.visit context .declare .empty).records)⟩

end PatchPresence
