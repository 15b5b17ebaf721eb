/-
  PatchPresence.Source.Node — kinds of nodes of a Java syntax tree.

  The order of children carries meaning for a few kinds. An `if` has a condition, a then branch and
  perhaps an else branch. The statements of a loop before its condition are initialisers, those behind
  it updates, and the last child is the body; a loop over a collection has the variable, the iterated
  expression and the body. A conditional expression has a condition and two values, a synchronized
  statement a lock and a body, and an invocation its receiver, if any, before the arguments.
-/
import PatchPresence.Constant

namespace PatchPresence

/-! ## §1. Operators. -/

/-- Operators with two operands. -/
inductive BinaryOp
  | add
  | sub
  | mul
  | div
  | rem
  | shl
  | shr
  | ushr
  | bitAnd
  | bitOr
  | bitXor
  | and
  | or
  | eq
  | ne
  | lt
  | le
  | gt
  | ge
deriving DecidableEq, Repr

/-- Whether an operator compares its operands. -/
def BinaryOp.isComparison : BinaryOp → Bool
  | .eq | .ne | .lt | .le | .gt | .ge => true
  | _ => false

/-- Operators with one operand. -/
inductive UnaryOp
  | neg
  | plus
  | not
  | bitNot
  | preIncrement
  | preDecrement
  | postIncrement
  | postDecrement
deriving DecidableEq, Repr

/-- Whether an operator changes its operand. -/
def UnaryOp.isStep : UnaryOp → Bool
  | .preIncrement | .preDecrement | .postIncrement | .postDecrement => true
  | _ => false

/-! ## §2. Kinds. -/

/-- Kinds of loops. -/
inductive LoopKind
  | whileLoop
  | doWhile
  | forLoop
  | forEach (overArray : Bool)
deriving DecidableEq, Repr

/-- Kind of a node with the data that is not in its children. -/
inductive NodeKind
  /-- A class by its qualified binary name. -/
  | classDecl (name : String)
  | fieldDecl (name type : String) (isStatic isFinal : Bool)
  | method (name descriptor : String) (isStatic : Bool)
  | block
  | localDecl (name type : String) (isFinal : Bool)
  | ifStmt
  | loop (kind : LoopKind)
  /-- The condition of a loop. -/
  | condition
  | switch
  | switchCase (labels : List Constant)
  | tryStmt
  | catchClause (types : List String)
  | returnStmt
  | throwStmt
  | synchronizedStmt
  | exprStmt
  | breakStmt
  | continueStmt
  | literal (value : Constant)
  | binary (op : BinaryOp)
  | unary (op : UnaryOp)
  | conditional
  | cast (type : String)
  | localRead (name : String)
  | fieldRead (owner name : String) (isStatic : Bool)
  | fieldWrite (owner name : String) (isStatic : Bool) (op : Option BinaryOp)
  /-- Assignment to a local variable. -/
  | assign (target : String) (op : Option BinaryOp)
  | arrayStore
  | arrayAccess
  | invocation (owner name : String) (arity : Nat) (hasReceiver : Bool)
  | newObject (type : String)
  | newArray (element : String) (hasInitializer : Bool)
  | instanceOf (type : String)
  | lambda
  | arrayLength
deriving DecidableEq, Repr

namespace NodeKind

/-- Whether a node is a statement. -/
def isStatement : NodeKind → Bool
  | .block | .localDecl .. | .ifStmt | .loop _ | .switch | .switchCase _ | .tryStmt
  | .catchClause _ | .returnStmt | .throwStmt | .synchronizedStmt | .exprStmt | .breakStmt
  | .continueStmt => true
  | _ => false

/-- Whether a node declares a class. -/
def isClass : NodeKind → Bool
  | .classDecl _ => true
  | _ => false

/-- Whether a node declares a method. -/
def isMethod : NodeKind → Bool
  | .method .. => true
  | _ => false

/-- Whether a node is a loop. -/
def isLoop : NodeKind → Bool
  | .loop _ => true
  | _ => false

/-- Whether a node is a literal. -/
def isLiteral : NodeKind → Bool
  | .literal _ => true
  | _ => false

/-- Whether a node calls a method. -/
def isInvocation : NodeKind → Bool
  | .invocation .. => true
  | _ => false

end NodeKind

/-- Lines from the first to the last, both included, counted from 1. -/
structure LineSpan where
  first : Nat
  last : Nat
deriving DecidableEq, Repr

namespace LineSpan

/-- Whether a line is in the span. -/
def contains (span : LineSpan) (line : Nat) : Bool := span.first ≤ line && line ≤ span.last

/-- Number of lines; a span that ends before it starts counts as one line. Where lines have numbers of 64
    bits, so has this one for all spans from line 1 on: only the span from line 0 to the last number has more. -/
def length (span : LineSpan) : Nat := span.last - span.first + 1

/-- Whether the span ends before it starts. -/
def isEmpty (span : LineSpan) : Bool := span.last < span.first

end LineSpan

end PatchPresence
