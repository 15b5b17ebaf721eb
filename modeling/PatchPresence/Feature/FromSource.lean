/-
  PatchPresence.Feature.FromSource — features of a method in source, as a compiler would leave them.

  An expression that a compiler folds counts as one constant, and nothing below it counts. Conditions
  are taken apart into the branches that they compile to, and conditions of loops and of jumps out of
  them count with the loop instead.
-/
import PatchPresence.Feature.Name
import PatchPresence.Folding.Propagation

namespace PatchPresence

/-- A source file with its folded constants. -/
structure FoldedTree where
  tree : SyntaxTree
  constants : ConstantBinding

namespace FoldedTree

/-! ## §1. Folded expressions. -/

/-- Whether a compiler replaces the node by a constant. -/
def isFolded (source : FoldedTree) (id : Nat) (kind : NodeKind) : Bool :=
  !kind.isStatement && source.constants.isCompileTime id

/-- Whether a node is a text that becomes part of a concatenation at run time. -/
def isConcatPart (source : FoldedTree) (id : Nat) : Bool :=
  match source.tree.parent? id, source.constants.value? id with
  | some parent, some (.str _) =>
    source.tree.has (· == .binary .add) parent && !source.constants.isCompileTime parent
  | _, _ => false

/-- Constant that a folded node leaves. -/
def foldedFeatures (source : FoldedTree) (families : Families) (id : Nat) : List Feature :=
  if source.isConcatPart id then
    []
  else
    match source.constants.value? id with
    | some value => families.constant value
    | none => []

/-! ## §2. Conditions. -/

/-- A branch of a condition, and whether it jumps when it is true. -/
structure Leaf where
  term : Term
  sense : Bool

/-- Branches that a condition compiles to, when it is to jump on the value `jump`. -/
def leaves (source : FoldedTree) (jump : Bool) : Term → List Leaf
  | .node id (.binary .and) (left :: right :: _) =>
    if source.isFolded id (.binary .and) then []
    else source.leaves false left ++ source.leaves jump right
  | .node id (.binary .or) (left :: right :: _) =>
    if source.isFolded id (.binary .or) then []
    else source.leaves true left ++ source.leaves jump right
  | .node id (.unary .not) (operand :: _) =>
    if source.isFolded id (.unary .not) then [] else source.leaves (!jump) operand
  | .node _ (.binary .and) _ => []
  | .node _ (.binary .or) _ => []
  | .node _ (.unary .not) _ => []
  | .node id kind children =>
    if source.isFolded id kind then [] else [⟨.node id kind children, jump⟩]

/-- The comparison that holds when another does not. -/
def negated : BinaryOp → BinaryOp
  | .lt => .ge
  | .le => .gt
  | .gt => .le
  | .ge => .lt
  | .eq => .ne
  | .ne => .eq
  | other => other

/-- Shape of the branch of a comparison. -/
def branchShape? : BinaryOp → Option Shape
  | .lt => some .branchLt
  | .le => some .branchLe
  | .gt => some .branchGt
  | .ge => some .branchGe
  | _ => none

/-- Features of one branch. What is no comparison, call or type test is compared with zero. -/
def leafFeatures (families : Families) (withShapes : Bool) (leaf : Leaf) : List Feature :=
  match leaf.term.kind with
  | .binary op =>
    if withShapes then
      (branchShape? (if leaf.sense then op else negated op)).toList.flatMap families.shape
    else
      []
  | .invocation .. | .instanceOf _ => []
  | _ => families.constant (.int 0)

/-- Features of a condition that is passed when it holds. -/
def conditionFeatures (source : FoldedTree) (families : Families) (withShapes : Bool) (term : Term) :
    List Feature :=
  (source.leaves false term).flatMap (leafFeatures families withShapes)

/-- Features of a condition used as a value: it branches and pushes one or zero. -/
def materialized (source : FoldedTree) (families : Families) (term : Term) : List Feature :=
  source.conditionFeatures families true term ++ families.constant (.int 1) ++
    families.constant (.int 0)

/-! ## §3. Loops. -/

/-- Nesting depth of a loop in its method. -/
def loopDepth (tree : SyntaxTree) (id : Nat) : Nat :=
  let isBarrier : NodeKind → Bool := fun kind => kind.isMethod || kind.isClass || kind == .lambda
  let within := ((tree.ancestors id).drop 1).takeWhile fun node => !tree.has isBarrier node
  1 + (within.filter (tree.has NodeKind.isLoop)).length

/-- Whether a node leaves the loop, when it stands directly in it. -/
def leavesLoop (tree : SyntaxTree) (loop id : Nat) : Bool :=
  match tree.kind? id with
  | some .returnStmt | some .throwStmt => true
  | some .breakStmt =>
    tree.ancestor? id (fun kind => kind.isLoop || kind == .switch) == some loop
  | _ => false

/-- The loop directly around a node, within its method and lambda. -/
def innermostLoop? (tree : SyntaxTree) (id : Nat) : Option Nat :=
  (tree.ancestor? id fun kind =>
    kind.isLoop || kind == .lambda || kind.isClass || kind.isMethod).filter
      (tree.has NodeKind.isLoop)

/-- The `if` statements that guard a jump out of the loop. -/
def exitGuards (tree : SyntaxTree) (loop : Nat) : List Nat :=
  Ascending.ofList <| (tree.descendants loop).filterMap fun id =>
    if leavesLoop tree loop id && innermostLoop? tree id == some loop then
      (tree.ancestor? id fun kind => kind == .ifStmt || kind.isLoop).filter (tree.has (· == .ifStmt))
    else
      none

/-- What a branch that leaves a loop compares with. -/
def classifyExit (source : FoldedTree) : Term → ExitClass
  | .node _ (.binary op) children =>
    if op.isComparison then
      match children with
      | left :: right :: _ =>
        let folded := source.isFolded right.id right.kind
        let isZero :=
          match source.constants.value? right.id with
          | some (.int value) => value == 0
          | some (.long value) => value == 0
          | some .null => true
          | _ => false
        if folded && isZero then
          if left.kind.isInvocation then .call else .constant
        else if folded || right.kind.isLiteral then
          .constant
        else if right.kind.isInvocation then
          .call
        else
          .variable
      | _ => .variable
    else
      .constant
  | .node _ (.invocation ..) _ => .call
  | _ => .constant

/-- The condition of a loop. -/
def loopCondition? (children : List Term) : Option Term := do
  (← children.find? (·.kind == .condition)).children.head?

/-- Branches that leave a loop by its condition. -/
def conditionExits (source : FoldedTree) (condition : Term) : List ExitClass :=
  ((source.leaves false condition).filter (!·.sense)).map fun leaf => source.classifyExit leaf.term

/-- Branches that leave a loop by a guarded jump. -/
def guardExits (source : FoldedTree) (guard : Nat) : List ExitClass :=
  match (source.tree.term? guard).bind fun term => term.children.head? with
  | some condition =>
    ((source.leaves true condition).filter (·.sense)).map fun leaf => source.classifyExit leaf.term
  | none => []

/-- Exits that the kind of a loop brings. -/
def headExits : LoopKind → List ExitClass
  | .forEach true => [.variable]
  | .forEach false => [.call]
  | _ => []

/-- Features of the code that tests for those exits. -/
def headFeatures (families : Families) : LoopKind → List Feature
  | .forEach true =>
    families.access (some Feature.arrayLengthKey) ++ families.constant (.int 0) ++
      families.constant (.int 1)
  | .forEach false =>
    families.call "java/util/Iterator" "hasNext" 0 ++ families.call "java/util/Iterator" "next" 0
  | _ => []

/-- Signature of a loop. -/
def loopSignature (source : FoldedTree) (id : Nat) (kind : LoopKind) (children : List Term) :
    LoopSignature :=
  .ofExits (loopDepth source.tree id) <|
    headExits kind ++ (loopCondition? children).toList.flatMap source.conditionExits ++
      (exitGuards source.tree id).flatMap source.guardExits

/-- Features of a loop itself. Of its condition only the implied zeros count on their own. -/
def loopFeatures (source : FoldedTree) (families : Families) (id : Nat) (kind : LoopKind)
    (children : List Term) : List Feature :=
  families.shape .loop ++ headFeatures families kind ++
    (loopCondition? children).toList.flatMap (source.conditionFeatures families false) ++
    families.loop (source.loopSignature id kind children)

/-! ## §4. Nodes. -/

/-- Shape of a shift. -/
def shiftFeatures (families : Families) : BinaryOp → List Feature
  | .shl => families.shape .shiftLeft
  | .shr => families.shape .shiftRight
  | .ushr => families.shape .unsignedShiftRight
  | _ => []

/-- Elements of an array that is written out are stored by their number and position. -/
def initializerFeatures (families : Families) (count : Nat) : List Feature :=
  (count :: List.range count).flatMap fun n => families.constant (.int (Int32.ofNat n))

/-- Surroundings of a node. -/
structure Place where
  /-- Innermost statement block. -/
  block : Nat
  /-- Guards of jumps out of the loops around. -/
  guards : List Nat
  /-- Whether the node is a condition or a part of one. -/
  inCondition : Bool

/-- Which children are looked at, and in which surroundings. -/
structure Descent where
  /-- Greatest number of children; none for all. -/
  count : Option Nat
  place : Place
  /-- Whether the first child is a condition. -/
  firstInCondition : Bool

namespace Descent

/-- To no child. -/
def stop (place : Place) : Descent := ⟨some 0, place, false⟩

/-- To all children, each by itself a condition or not. -/
def all (place : Place) (inCondition : Bool) : Descent :=
  ⟨none, { place with inCondition }, inCondition⟩

end Descent

/-- Features of a node itself, and the way down. -/
def nodeFeatures (source : FoldedTree) (families : Families) (place : Place) (id : Nat)
    (kind : NodeKind) (children : List Term) : List Feature × Descent :=
  let down : Descent := .all place false
  let self : Term := .node id kind children
  match kind with
  | .classDecl _ | .lambda => ([], .stop place)
  | .block => ([], .all { place with block := id } false)
  | .localDecl _ type _ =>
    match children.head? with
    | some init =>
      match source.constants.value? init.id with
      | some value =>
        if source.isFolded init.id init.kind then
          ((Constant.coerce type value).toList.flatMap families.constant, .stop place)
        else
          ([], { down with count := some 1 })
      | none => ([], { down with count := some 1 })
    | none => ([], .stop place)
  | .ifStmt | .conditional =>
    (children.head?.toList.flatMap (source.conditionFeatures families (!place.guards.contains id)),
      { down with firstInCondition := true })
  | .loop loopKind =>
    (source.loopFeatures families id loopKind children,
      .all { place with guards := place.guards ++ exitGuards source.tree id } false)
  | .condition => ([], .all place true)
  | .switch => (families.shape .switch, down)
  | .synchronizedStmt => (families.shape .monitor, down)
  | .throwStmt => (families.shape .throwExit, down)
  | .returnStmt => (families.shape .returnExit, down)
  | .instanceOf _ => (families.shape .instanceOf, down)
  | .binary op =>
    let isLogical := op == .and || op == .or
    (shiftFeatures families op ++
      (if (op.isComparison || isLogical) && !place.inCondition then
        source.materialized families self
      else
        []),
      .all place isLogical)
  | .unary op =>
    if op == .not then
      (if place.inCondition then [] else source.materialized families self, .all place true)
    else if op.isStep then
      (families.constant (.int 1) ++
        (match children.head?.map Term.kind with
          | some (.fieldRead owner name _) => families.access (Feature.fieldKey? owner name)
          | _ => []), down)
    else
      ([], down)
  | .assign _ (some op) => (shiftFeatures families op, down)
  | .fieldRead owner name _ => (families.access (Feature.fieldKey? owner name), down)
  | .fieldWrite owner name _ op =>
    let key? := Feature.fieldKey? owner name
    ((match op with
      | some op => shiftFeatures families op ++ families.access key?
      | none => []) ++ families.access key?, down)
  | .arrayLength => (families.access (some Feature.arrayLengthKey), down)
  | .invocation owner name arity _ => (families.call owner name arity, down)
  | .newObject type =>
    (families.creation (Feature.creationKey? (internalName type)) ++
      families.call type "<init>" children.length, down)
  | .newArray element hasInitializer =>
    (families.creation (some ("[" ++ (Feature.sourceType element).text)) ++
      (if hasInitializer then initializerFeatures families children.length else []), down)
  | _ => ([], down)

mutual

/-- Findings at and below a node. -/
def findings (source : FoldedTree) (families : Families) (place : Place) : Term → List Finding
  | .node id kind children =>
    if source.isFolded id kind then
      (source.foldedFeatures families id).map (⟨place.block, ·⟩)
    else
      let (features, descent) := source.nodeFeatures families place id kind children
      features.map (⟨place.block, ·⟩) ++
        source.findingsAll families descent.place descent.firstInCondition
          (descent.count.getD children.length) children

/-- Findings at and below at most `count` nodes, the first of which may be a condition. -/
def findingsAll (source : FoldedTree) (families : Families) (place : Place) (firstInCondition : Bool)
    (count : Nat) : List Term → List Finding
  | [] => []
  | term :: rest =>
    match count with
    | 0 => []
    | count + 1 =>
      source.findings families { place with inCondition := firstInCondition } term ++
        source.findingsAll families place place.inCondition count rest

end

/-! ## §5. The method. -/

/-- Whether a method without a result can reach its end, where it returns. -/
def fallsOffEnd (tree : SyntaxTree) (method : Nat) : Bool :=
  match tree.kind? method with
  | some (.method _ descriptor _) =>
    (Text.after? ['V', ')'] descriptor.toList.reverse).isSome &&
      match (tree.children method).find? (tree.has (· == .block)) with
      | some body =>
        !((tree.children body).getLast?.map
          (tree.has fun kind => kind == .returnStmt || kind == .throwStmt)).getD false
      | none => false
  | _ => false

/-- Findings in the method at a node. -/
def methodFindings (source : FoldedTree) (families : Families) (method : Nat) : List Finding :=
  let start : Place := ⟨method, [], false⟩
  let children := ((source.tree.term? method).map Term.children).getD []
  let ending := if fallsOffEnd source.tree method then families.shape .returnExit else []
  source.findingsAll families start false children.length children ++ ending.map (⟨method, ·⟩)

/-- Features of the method at a node. Switches are looked at where a feature is found, and call sites are
    not even gathered when calls are left out. -/
def features (source : FoldedTree) (method : Nat) (families : Families) : FeatureSet :=
  let blocks := (method :: source.tree.statementBlocks method).eraseDups
  .ofFindings .source (((source.tree.methodSignature? method).map MethodSignature.key).getD "")
    (if families.callSites then blocks else []) (source.methodFindings families method)

end FoldedTree

end PatchPresence
