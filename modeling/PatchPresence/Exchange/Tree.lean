/-
  PatchPresence.Exchange.Tree — syntax trees in JSON documents.
-/
import PatchPresence.Exchange.Code
import PatchPresence.Source.Tree

namespace PatchPresence.Exchange

open Decoder

/-! ## §1. Kinds of nodes. -/

/-- An operator with two operands. -/
def binaryOp : Decoder BinaryOp :=
  named [("Add", .add), ("Sub", .sub), ("Mul", .mul), ("Div", .div), ("Rem", .rem), ("Shl", .shl),
    ("Shr", .shr), ("UShr", .ushr), ("BitAnd", .bitAnd), ("BitOr", .bitOr), ("BitXor", .bitXor),
    ("And", .and), ("Or", .or), ("Eq", .eq), ("Ne", .ne), ("Lt", .lt), ("Le", .le), ("Gt", .gt),
    ("Ge", .ge)]

/-- An operator with one operand. -/
def unaryOp : Decoder UnaryOp :=
  named [("Neg", .neg), ("Plus", .plus), ("Not", .not), ("BitNot", .bitNot),
    ("PreIncrement", .preIncrement), ("PreDecrement", .preDecrement),
    ("PostIncrement", .postIncrement), ("PostDecrement", .postDecrement)]

/-- A kind of loop. -/
def loopKind (style : VariantStyle) : Decoder LoopKind := fun json => do
  let (name, content) ← variant json
  match name with
  | "While" => unit .whileLoop content
  | "DoWhile" => unit .doWhile content
  | "For" => unit .forLoop content
  | "ForEach" =>
    data (fun j => do
      let record ← variantFields style ["over_array"] j
      return .forEach (← record.required "over_array" bool)) content
  | _ => none

/-- A kind of node with one field. -/
def single {α : Type} (style : VariantStyle) (field : String) (value : Decoder α)
    (make : α → NodeKind) : Decoder NodeKind := fun json => do
  let record ← variantFields style [field] json
  return make (← record.required field value)

/-- A field declaration. -/
def fieldDecl (style : VariantStyle) : Decoder NodeKind := fun json => do
  let record ← variantFields style ["name", "ty", "is_static", "is_final"] json
  return .fieldDecl (← record.required "name" string) (← record.required "ty" string)
    (← record.required "is_static" bool) (← record.required "is_final" bool)

/-- A method declaration. -/
def methodDecl (style : VariantStyle) : Decoder NodeKind := fun json => do
  let record ← variantFields style ["name", "descriptor", "is_static"] json
  return .method (← record.required "name" string) (← record.required "descriptor" string)
    (← record.required "is_static" bool)

/-- A declaration of a local variable. -/
def localDecl (style : VariantStyle) : Decoder NodeKind := fun json => do
  let record ← variantFields style ["name", "ty", "is_final"] json
  return .localDecl (← record.required "name" string) (← record.required "ty" string)
    (← record.required "is_final" bool)

/-- A read of a field. -/
def fieldRead (style : VariantStyle) : Decoder NodeKind := fun json => do
  let record ← variantFields style ["owner", "name", "is_static"] json
  return .fieldRead (← record.required "owner" string) (← record.required "name" string)
    (← record.required "is_static" bool)

/-- A write of a field. -/
def fieldWrite (style : VariantStyle) : Decoder NodeKind := fun json => do
  let record ← variantFields style ["owner", "name", "is_static", "op"] json
  return .fieldWrite (← record.required "owner" string) (← record.required "name" string)
    (← record.required "is_static" bool) (← record.nullableField "op" binaryOp)

/-- An assignment to a local variable. -/
def assign (style : VariantStyle) : Decoder NodeKind := fun json => do
  let record ← variantFields style ["target", "op"] json
  return .assign (← record.required "target" string) (← record.nullableField "op" binaryOp)

/-- An invocation. -/
def invocation (style : VariantStyle) : Decoder NodeKind := fun json => do
  let record ← variantFields style ["owner", "name", "arity", "has_receiver"] json
  return .invocation (← record.required "owner" string) (← record.required "name" string)
    (← record.required "arity" size) (← record.required "has_receiver" bool)

/-- A creation of an array. -/
def newArray (style : VariantStyle) : Decoder NodeKind := fun json => do
  let record ← variantFields style ["element", "has_initializer"] json
  return .newArray (← record.required "element" string) (← record.required "has_initializer" bool)

/-- Kinds of nodes without data. -/
def plainKinds : List (String × NodeKind) :=
  [("Block", .block), ("If", .ifStmt), ("Condition", .condition), ("Switch", .switch),
    ("Try", .tryStmt), ("Return", .returnStmt), ("Throw", .throwStmt),
    ("Synchronized", .synchronizedStmt), ("ExprStmt", .exprStmt), ("Break", .breakStmt),
    ("Continue", .continueStmt), ("Conditional", .conditional), ("ArrayStore", .arrayStore),
    ("ArrayAccess", .arrayAccess), ("Lambda", .lambda), ("ArrayLength", .arrayLength)]

/-- A kind of node, tagged by its name. -/
def nodeKind (style : VariantStyle) : Decoder NodeKind := fun json => do
  let (name, content) ← variant json
  match plainKinds.lookup name with
  | some kind => unit kind content
  | none =>
    match name with
    | "Class" => data (single style "name" string .classDecl) content
    | "FieldDecl" => data (fieldDecl style) content
    | "Method" => data (methodDecl style) content
    | "LocalDecl" => data (localDecl style) content
    | "Loop" => data (single style "kind" (loopKind style) .loop) content
    | "SwitchCase" => data (single style "labels" (list constant) .switchCase) content
    | "Catch" => data (single style "types" (list string) .catchClause) content
    | "Literal" => data (fun j => (constant j).map .literal) content
    | "Binary" => data (fun j => (binaryOp j).map .binary) content
    | "Unary" => data (fun j => (unaryOp j).map .unary) content
    | "Cast" => data (single style "ty" string .cast) content
    | "LocalRead" => data (single style "name" string .localRead) content
    | "FieldRead" => data (fieldRead style) content
    | "FieldWrite" => data (fieldWrite style) content
    | "Assign" => data (assign style) content
    | "Invocation" => data (invocation style) content
    | "NewObject" => data (single style "ty" string .newObject) content
    | "NewArray" => data (newArray style) content
    | "InstanceOf" => data (single style "ty" string .instanceOf) content
    | _ => none

/-! ## §2. Trees. -/

/-- A span of lines. -/
def lineSpan : Decoder LineSpan := fun json => do
  let record ← fields ["start", "end"] json
  return ⟨← record.required "start" size, ← record.required "end" size⟩

/-- A node. -/
def syntaxNode (style : VariantStyle) : Decoder SyntaxNode := fun json => do
  let record ← fields ["kind", "lines", "children", "parent"] json
  return {
    kind := ← record.required "kind" (nodeKind style)
    lines := ← record.required "lines" lineSpan
    children := ← record.withDefault "children" [] (list size)
    parent := ← record.optional "parent" size }

/-- A tree. -/
def syntaxTree (style : VariantStyle) : Decoder SyntaxTree := fun json => do
  let record ← fields ["path", "line_count", "nodes", "roots"] json
  return {
    path := ← record.required "path" string
    lineCount := ← record.required "line_count" size
    nodes := (← record.required "nodes" (list (syntaxNode style))).toArray
    roots := ← record.required "roots" (list size) }

end PatchPresence.Exchange
