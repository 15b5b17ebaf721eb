/-
  PatchPresence.Proofs.Folding.Runtime — what operators and assignments give when a program runs.

  A value is known by its content: the number or truth value of a primitive type or of a box, or the
  characters of a string. The rules here are those of the Java language. A variable takes a value at its
  declared type, an assignment with an operator brings the result back to that type, `==` on two objects
  tells no equal contents apart, and the branches of a conditional expression are brought to one type. Where
  the result hangs on more than the contents at hand there is none here: the texts of floating-point
  numbers, strings of equal contents under `==`, a conditional expression over two types of numbers.

  Taken over from folding, where they are the language's own, are arithmetic, comparisons and casts on
  numbers and truth values (`Constant.binary`, `Constant.unary`, `Constant.cast`, `Constant.coerce`) and the
  length of an array that is written out. What fields and library methods hold is what the tables of the
  `FoldContext` say, of the fields of the tree those only that a compiler inlines.

  Main definitions:
    * `Runtime.operate`, `Runtime.branch` — values of operators and of conditional expressions.
    * `Runtime.stored`, `Runtime.next` — what assignments, increments and decrements store.
-/
import PatchPresence.Folding.Propagation

namespace PatchPresence

/-! ## §1. Types. -/

namespace Runtime

/-- Names of the primitive types. -/
def primitiveTypes : List String := "boolean" :: Constant.numericTypes

/-- Classes of boxes and the types of their contents. -/
def boxes : List (String × String) :=
  [("Boolean", "boolean"), ("Byte", "byte"), ("Short", "short"), ("Character", "char"), ("Integer", "int"),
    ("Long", "long"), ("Float", "float"), ("Double", "double")]

/-- Type of the content of a box. -/
def unboxed? (type : String) : Option String :=
  (boxes.find? fun box => type = box.1 || type = "java.lang." ++ box.1).map Prod.snd

/-- The primitive type of what a variable of a type holds, in a box or not. -/
def contentType? (type : String) : Option String :=
  if primitiveTypes.contains type then some type else unboxed? type

/-- Whether a type is that of strings. -/
def isStringType (type : String) : Bool := type = "String" || type = "java.lang.String"

/-- Whether a final field of a type is inlined when its initializer is constant. -/
def inlines (type : String) : Bool := primitiveTypes.contains type || isStringType type

/-- Primitive type of a literal; strings and null are of none. -/
def literalType? : Constant → Option String
  | .int _ => some "int"
  | .long _ => some "long"
  | .float _ => some "float"
  | .double _ => some "double"
  | .bool _ => some "boolean"
  | .char _ => some "char"
  | .str _ | .null => none

end Runtime

/-- What is given when a body runs. -/
structure Runtime where
  context : FoldContext
  /-- Whether the field of a key is inlined where it is read. -/
  inlined : String → Bool
  /-- Declared types of local variables. -/
  types : String → Option String

namespace Runtime

/-- Primitive type of an expression, where the node itself shows it. -/
def primitive? (runtime : Runtime) (node : Term) : Option String :=
  match node.kind with
  | .literal value => literalType? value
  | .localRead name | .assign name _ => (runtime.types name).filter primitiveTypes.contains
  | .cast type => (some type).filter primitiveTypes.contains
  | .binary op => if op.isComparison || op = .and || op = .or then some "boolean" else none
  | .unary .not | .instanceOf _ => some "boolean"
  | .arrayLength => some "int"
  | _ => none

/-! ## §2. Values of nodes. -/

/-- Text of a content in a concatenation. -/
def text? : Constant → Option String
  | .float _ | .double _ => none
  | .char unit => if Constant.unitText unit = "" then none else some (Constant.unitText unit)
  | value => some value.text

/-- Value of a binary operator; `numeric` when an operand is of a primitive type, so that `==` compares
    numbers or truth values and not objects. Objects of different contents are different. -/
def binary (numeric : Bool) (op : BinaryOp) (left right : Constant) : Option Constant :=
  if op = .add && (left.isString || right.isString) then do
    return .str ((← text? left) ++ (← text? right))
  else if op = .eq || op = .ne then
    match left, right with
    | .str a, .str b => if a = b then none else Constant.binary op left right
    | _, _ => if numeric then Constant.binary op left right else none
  else
    Constant.binary op left right

/-- Value of the method `valueOf` of a class of boxes or of strings. -/
def valueOf (owner : String) (argument : Constant) : Option Constant :=
  if isStringType owner then
    (text? argument).map .str
  else do
    Constant.coerce (← unboxed? owner) argument

/-- What a node makes of the contents of its leading children, as far as these are known. -/
def operate (runtime : Runtime) (node : Term) (operands : List (Option Constant)) : Option Constant :=
  match node.kind with
  | .literal value => some value
  | .fieldRead owner name _ =>
    if runtime.inlined (LibraryConstants.fieldKey owner name) then
      (runtime.context.field? owner name).map Folded.value
    else
      none
  | .binary op => do
    let numeric := (node.children.take 2).any fun operand => (runtime.primitive? operand).isSome
    binary numeric op (← (operands[0]?).join) (← (operands[1]?).join)
  | .unary op => if op.isStep then none else do Constant.unary op (← (operands[0]?).join)
  | .cast type => do Constant.cast type (← (operands[0]?).join)
  | .invocation owner name arity _ =>
    if arity = 0 then
      runtime.context.library.invocation? owner name
    else if name = "valueOf" && arity = 1 then do
      valueOf owner (← operands.getLast?.join)
    else
      none
  | .arrayLength => (foldArrayLength node.children.head?).map Folded.value
  | _ => none

/-- Value of a conditional expression from that of the branch taken. A number may be brought to the type of
    the other branch, a double and what is no number may not. -/
def branch (runtime : Runtime) (node : Term) (value : Constant) : Option Constant :=
  match node.kind, value with
  | .conditional, .str _ | .conditional, .null | .conditional, .bool _ | .conditional, .double _ =>
    some value
  | .conditional, _ =>
    match (node.children.drop 1).map runtime.primitive? with
    | [some first, some second] => if first = second then some value else none
    | _ => none
  | _, _ => none

/-! ## §3. Stores. -/

/-- Content of a variable of a declared type when a value is assigned to it. The type behind `var` is not
    known. -/
def convert (type : String) (value : Constant) : Option Constant :=
  if type = "var" then none
  else if value = .null && !primitiveTypes.contains type then some .null
  else
    match contentType? type with
    | some content => Constant.coerce content value
    | none => some value

/-- Content of a variable of a declared type behind an assignment with an operator. -/
def update (type : String) (op : BinaryOp) (old operand : Constant) : Option Constant := do
  let result ← binary false op old operand
  match contentType? type with
  | some content => Constant.cast content result
  | none => if result.isString then some result else none

/-- What a declaration or assignment stores, given the content that its variable had before the operand was
    evaluated. -/
def stored (runtime : Runtime) (old : Option Constant) (node : Term) (operands : List (Option Constant)) :
    Option Constant :=
  match node.kind with
  | .localDecl _ type _ => do
    let value ← (operands[0]?).join
    if type = "var" then some value else convert type value
  | .assign name none => do convert (← runtime.types name) (← (operands[0]?).join)
  | .assign name (some op) => do update (← runtime.types name) op (← old) (← (operands[0]?).join)
  | _ => none

/-- What an increment or decrement of a variable stores. -/
def next (runtime : Runtime) (name : String) (op : UnaryOp) (old : Option Constant) : Option Constant := do
  let change : BinaryOp := match op with
    | .preIncrement | .postIncrement => .add
    | _ => .sub
  update (← runtime.types name) change (← old) (.int 1)

/-! ## §4. More that is known. -/

/-- What is known of some operands is so, and more may be. -/
def Refines (known actual : List (Option Constant)) : Prop :=
  known.length = actual.length
    ∧ ∀ (index : Nat) (constant : Constant),
        (known[index]?).join = some constant → (actual[index]?).join = some constant

/-- Values of nodes hang on what is known of their operands only. -/
theorem operate_of_refines {runtime : Runtime} {node : Term} {known actual : List (Option Constant)}
    {result : Constant} (h : Refines known actual) (hresult : runtime.operate node known = some result) :
    runtime.operate node actual = some result := by
  obtain ⟨hlength, hknown⟩ := h
  unfold operate at hresult ⊢
  split at hresult
  · exact hresult
  · exact hresult
  · obtain ⟨left, hleft, hresult⟩ := Option.bind_eq_some_iff.1 hresult
    obtain ⟨right, hright, hresult⟩ := Option.bind_eq_some_iff.1 hresult
    rw [hknown 0 left hleft, hknown 1 right hright]
    exact hresult
  · split at hresult
    · cases hresult
    · next hstep =>
      obtain ⟨operand, hoperand, hresult⟩ := Option.bind_eq_some_iff.1 hresult
      rw [if_neg hstep, hknown 0 operand hoperand]
      exact hresult
  · obtain ⟨operand, hoperand, hresult⟩ := Option.bind_eq_some_iff.1 hresult
    rw [hknown 0 operand hoperand]
    exact hresult
  · split at hresult
    · next harity => rwa [if_pos harity]
    · next harity =>
      rw [if_neg harity]
      split at hresult
      · next hvalueOf =>
        rw [if_pos hvalueOf]
        obtain ⟨argument, hargument, hresult⟩ := Option.bind_eq_some_iff.1 hresult
        rw [List.getLast?_eq_getElem?, hlength] at hargument
        rw [List.getLast?_eq_getElem?, hknown _ argument hargument]
        exact hresult
      · cases hresult
  · exact hresult
  · cases hresult

/-- What is stored hangs on what is known of the operand and of the variable only. -/
theorem stored_of_refines {runtime : Runtime} {node : Term} {old before : Option Constant}
    {known actual : List (Option Constant)} {result : Constant}
    (hold : ∀ constant, old = some constant → before = some constant) (h : Refines known actual)
    (hresult : runtime.stored old node known = some result) :
    runtime.stored before node actual = some result := by
  unfold stored at hresult ⊢
  split at hresult
  · obtain ⟨value, hvalue, hresult⟩ := Option.bind_eq_some_iff.1 hresult
    rw [h.2 0 value hvalue]
    exact hresult
  · obtain ⟨type, htype, hresult⟩ := Option.bind_eq_some_iff.1 hresult
    obtain ⟨value, hvalue, hresult⟩ := Option.bind_eq_some_iff.1 hresult
    rw [htype, h.2 0 value hvalue]
    exact hresult
  · obtain ⟨type, htype, hresult⟩ := Option.bind_eq_some_iff.1 hresult
    obtain ⟨first, hfirst, hresult⟩ := Option.bind_eq_some_iff.1 hresult
    obtain ⟨value, hvalue, hresult⟩ := Option.bind_eq_some_iff.1 hresult
    rw [htype, hold first hfirst, h.2 0 value hvalue]
    exact hresult
  · cases hresult

end Runtime

/-! ## §5. Bodies. -/

/-- Whether the children of a node of a kind are executed by themselves, in turn, when it is called. -/
def NodeKind.isBody : NodeKind → Bool
  | .method .. | .lambda => true
  | _ => false

namespace Term

mutual

/-- Declarations of local variables at or below a node with their types, other bodies and classes apart. -/
def declarations : Term → List (String × String)
  | .node _ kind children =>
    match kind with
    | .method .. | .lambda | .classDecl _ => []
    | .localDecl name type _ => (name, type) :: declarationsAll children
    | _ => declarationsAll children

/-- Declarations in several nodes. -/
def declarationsAll : List Term → List (String × String)
  | [] => []
  | term :: rest => term.declarations ++ declarationsAll rest

end

/-- The type that all declarations of a variable in a body give. -/
def declaredType? (body : Term) (name : String) : Option String :=
  match ((declarationsAll body.children).filter (·.1 = name)).map Prod.snd with
  | type :: others => if others.all (· = type) then some type else none
  | [] => none

end Term

/-- What is given below a node: a body has variables of its own. -/
def Runtime.within (runtime : Runtime) (node : Term) : Runtime :=
  { runtime with types := if node.kind.isBody then node.declaredType? else runtime.types }

theorem Runtime.within_eq {runtime : Runtime} {node : Term} (h : node.kind.isBody = false) :
    runtime.within node = runtime := by
  simp [within, h]

end PatchPresence
