/-
  PatchPresence.Exchange.Code — method bodies in JSON documents.
-/
import PatchPresence.Bytecode.Instruction
import PatchPresence.Json.Decode

namespace PatchPresence.Exchange

open Decoder

/-! ## §1. Constants and signatures. -/

/-- A constant, tagged by its kind. -/
def constant : Decoder Constant := fun json => do
  let (name, content) ← variant json
  match name with
  | "Int" => data (fun j => (signed 31 j).map fun n => .int (Int32.ofInt n)) content
  | "Long" => data (fun j => (signed 63 j).map fun n => .long (Int64.ofInt n)) content
  | "Float" => data (fun j => (float32 j).map .float) content
  | "Double" => data (fun j => (float j).map .double) content
  | "Bool" => data (fun j => (bool j).map .bool) content
  | "Char" => data (fun j => (unsigned 16 j).map fun n => .char (UInt16.ofNat n)) content
  | "Str" => data (fun j => (string j).map .str) content
  | "Null" => unit .null content
  | _ => none

/-- A method signature. -/
def signature : Decoder MethodSignature := fun json => do
  let record ← fields ["owner", "name", "descriptor", "is_static"] json
  return {
    owner := ← record.required "owner" string
    name := ← record.required "name" string
    descriptor := ← record.required "descriptor" string
    isStatic := ← record.withDefault "is_static" false bool }

/-! ## §2. Operands. -/

/-- A kind of call. -/
def callKind : Decoder CallKind :=
  named [("Virtual", .virtual), ("Interface", .interface), ("Special", .special),
    ("Static", .static), ("Dynamic", .dynamic)]

/-- A call site. -/
def callSite : Decoder CallSite := fun json => do
  let record ← fields ["owner", "name", "descriptor", "kind"] json
  return {
    owner := ← record.required "owner" string
    name := ← record.required "name" string
    descriptor := ← record.required "descriptor" string
    kind := ← record.required "kind" callKind }

/-- A field reference. -/
def fieldRef : Decoder FieldRef := fun json => do
  let record ← fields ["owner", "name", "descriptor"] json
  return {
    owner := ← record.required "owner" string
    name := ← record.required "name" string
    descriptor := ← record.required "descriptor" string }

/-- Element type of an array of primitives. -/
def arrayElement : Decoder ArrayElement :=
  named [("Boolean", .boolean), ("Char", .char), ("Float", .float), ("Double", .double),
    ("Byte", .byte), ("Short", .short), ("Int", .int), ("Long", .long)]

/-- The target of a branch. -/
def branch (style : VariantStyle) : Decoder Operand := fun json => do
  let record ← variantFields style ["target"] json
  return .branch (← record.required "target" (unsigned 32))

/-- The targets of a switch. -/
def switch (style : VariantStyle) : Decoder Operand := fun json => do
  let record ← variantFields style ["default", "cases"] json
  let fallback ← record.required "default" (unsigned 32)
  let cases ← record.required "cases" (list (pair (signed 31) (unsigned 32)))
  return .switch fallback (cases.map fun (label, target) => (Int32.ofInt label, target))

/-- The type and dimensions of a new array. -/
def multiArray (style : VariantStyle) : Decoder Operand := fun json => do
  let record ← variantFields style ["descriptor", "dimensions"] json
  return .multiArray (← record.required "descriptor" string)
    (← record.required "dimensions" (unsigned 8))

/-- A local variable. -/
def slot (style : VariantStyle) : Decoder Operand := fun json => do
  let record ← variantFields style ["index"] json
  return .slot (← record.required "index" (unsigned 16))

/-- A local variable with what is added to it. -/
def increment (style : VariantStyle) : Decoder Operand := fun json => do
  let record ← variantFields style ["index", "delta"] json
  let index ← record.required "index" (unsigned 16)
  let delta ← record.required "delta" (signed 15)
  return .increment index (Int16.ofInt delta)

/-- An operand, tagged by its kind. -/
def operand (style : VariantStyle) : Decoder Operand := fun json => do
  let (name, content) ← variant json
  match name with
  | "Invoke" => data (fun j => (callSite j).map .invoke) content
  | "Field" => data (fun j => (fieldRef j).map .field) content
  | "Branch" => data (branch style) content
  | "Switch" => data (switch style) content
  | "Constant" => data (fun j => (constant j).map .constant) content
  | "Type" => data (fun j => (string j).map .classRef) content
  | "NewArray" => data (fun j => (arrayElement j).map .newArray) content
  | "MultiNewArray" => data (multiArray style) content
  | "Local" => data (slot style) content
  | "Increment" => data (increment style) content
  | "Other" => unit .none content
  | _ => none

/-! ## §3. Instructions, handlers, bodies. -/

/-- A stack effect. -/
def stackEffect : Decoder StackEffect := fun json => do
  let record ← fields ["pops", "pushes"] json
  return {
    pops := ← record.required "pops" (unsigned 8)
    pushes := ← record.required "pushes" (unsigned 8) }

/-- An instruction. -/
def instruction (style : VariantStyle) : Decoder Instruction := fun json => do
  let record ← fields ["offset", "opcode", "kind", "stack_effect"] json
  return {
    offset := ← record.required "offset" (unsigned 32)
    opcode := UInt8.ofNat (← record.required "opcode" (unsigned 8))
    operand := ← record.withDefault "kind" .none (operand style)
    effect := ← record.optional "stack_effect" stackEffect }

/-- An exception handler. -/
def handler : Decoder ExceptionHandler := fun json => do
  let record ← fields ["start_pc", "end_pc", "handler_pc", "catch_type"] json
  return {
    start := ← record.required "start_pc" (unsigned 32)
    stop := ← record.required "end_pc" (unsigned 32)
    handler := ← record.required "handler_pc" (unsigned 32)
    catchType := ← record.optional "catch_type" string }

/-- A method body. -/
def methodBody (style : VariantStyle) : Decoder MethodBody := fun json => do
  let record ← fields ["signature", "instructions", "handlers"] json
  return {
    signature := ← record.required "signature" signature
    instructions := ← record.required "instructions" (list (instruction style))
    handlers := ← record.withDefault "handlers" [] (list handler) }

end PatchPresence.Exchange
