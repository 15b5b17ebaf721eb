/-
  PatchPresence.Source.Tree — syntax trees as arrays of linked nodes.

  Nodes are named by their position. `validate` accepts exactly the trees whose links form a forest over
  all nodes, and the other functions are meant for such trees.
-/
import PatchPresence.Data.Ascending
import PatchPresence.Data.Explore
import PatchPresence.Error
import PatchPresence.Signature
import PatchPresence.Source.Node

namespace PatchPresence

/-- A node with its links. -/
structure SyntaxNode where
  kind : NodeKind
  lines : LineSpan
  children : List Nat
  parent : Option Nat
deriving DecidableEq, Repr

/-- A parsed source file. -/
structure SyntaxTree where
  path : String
  lineCount : Nat
  nodes : Array SyntaxNode
  roots : List Nat
deriving DecidableEq, Repr

namespace SyntaxTree

/-! ## §1. Nodes. -/

/-- A tree without nodes. -/
def new (path : String) (lineCount : Nat) : SyntaxTree := ⟨path, lineCount, #[], []⟩

/-- Number of nodes. -/
def size (tree : SyntaxTree) : Nat := tree.nodes.size

/-- The node at a position. -/
def node? (tree : SyntaxTree) (id : Nat) : Option SyntaxNode := tree.nodes[id]?

/-- Kind of a node. -/
def kind? (tree : SyntaxTree) (id : Nat) : Option NodeKind := (tree.node? id).map SyntaxNode.kind

/-- Children of a node. -/
def children (tree : SyntaxTree) (id : Nat) : List Nat :=
  ((tree.node? id).map SyntaxNode.children).getD []

/-- Parent of a node. -/
def parent? (tree : SyntaxTree) (id : Nat) : Option Nat := (tree.node? id).bind SyntaxNode.parent

/-- Whether the kind of a node passes a test. -/
def has (tree : SyntaxTree) (test : NodeKind → Bool) (id : Nat) : Bool :=
  ((tree.kind? id).map test).getD false

/-- Adds a node as the last child of a parent, or as the last root. -/
def push (tree : SyntaxTree) (parent : Option Nat) (kind : NodeKind) (lines : LineSpan) :
    SyntaxTree :=
  let id := tree.size
  let nodes := tree.nodes.push ⟨kind, lines, [], parent⟩
  match parent with
  | some owner =>
    { tree with
      nodes := nodes.modify owner fun node => { node with children := node.children ++ [id] } }
  | none => { tree with nodes, roots := tree.roots ++ [id] }

/-- Adds a node as `push` does, and tells its position. -/
def add (tree : SyntaxTree) (parent : Option Nat) (kind : NodeKind) (lines : LineSpan) : Nat × SyntaxTree :=
  (tree.size, tree.push parent kind lines)

/-! ## §2. Validation. -/

/-- Goes through the nodes from the stack `work` of nodes with their expected parents. The result lists
    `seen` and all nodes reached, or is the first fault. -/
def checkLinks (tree : SyntaxTree) (work : List (Nat × Option Nat)) (seen : List Nat) :
    Except TreeFault (List Nat) :=
  match work with
  | [] => .ok seen
  | (id, parent) :: rest =>
    if _hlt : id < tree.size then
      if _hnew : seen.contains id = false then
        if tree.parent? id = parent then
          checkLinks tree ((tree.children id).map (·, some id) ++ rest) (seen ++ [id])
        else
          .error (.parentDisagrees id)
      else
        .error (.reachedTwice id)
    else
      .error (.outOfRange id)
termination_by unseenCount tree.size seen
decreasing_by exact unseenCount_snoc_lt _hlt _hnew

/-- Checks that the links form a forest over all nodes. -/
def checkForest (tree : SyntaxTree) : Except TreeFault Unit := do
  let reached ← tree.checkLinks (tree.roots.map (·, none)) []
  match (List.range tree.size).find? fun id => !reached.contains id with
  | some id => throw (.unreachable id)
  | none => return

/-- Checks the links of a tree. -/
def validate (tree : SyntaxTree) : Outcome Unit :=
  match tree.checkForest with
  | .ok () => .ok ()
  | .error fault => .error (.malformedDiff 0 (.brokenTree tree.path fault))

/-! ## §3. Up and down. -/

/-- A node and all below it, in preorder. -/
def descendants (tree : SyntaxTree) (id : Nat) : List Nat :=
  explore tree.children tree.size [id] []

/-- A node and all above it, up to its root. -/
def ancestors (tree : SyntaxTree) (id : Nat) : List Nat :=
  explore (fun node => (tree.parent? node).toList) tree.size [id] []

/-- The nearest of a node and its ancestors whose kind passes a test. -/
def ancestor? (tree : SyntaxTree) (id : Nat) (test : NodeKind → Bool) : Option Nat :=
  (tree.ancestors id).find? (tree.has test)

/-- Number of proper ancestors. -/
def depth (tree : SyntaxTree) (id : Nat) : Nat := (tree.ancestors id).length - 1

/-- The method that a node belongs to. -/
def enclosingMethod? (tree : SyntaxTree) (id : Nat) : Option Nat :=
  tree.ancestor? id NodeKind.isMethod

/-- The class that a node belongs to. -/
def enclosingClass? (tree : SyntaxTree) (id : Nat) : Option Nat :=
  tree.ancestor? id NodeKind.isClass

/-- Methods in preorder. -/
def methods (tree : SyntaxTree) : List Nat :=
  (tree.roots.flatMap tree.descendants).filter (tree.has NodeKind.isMethod)

/-- Statement blocks below a node in preorder. -/
def statementBlocks (tree : SyntaxTree) (id : Nat) : List Nat :=
  (tree.descendants id).filter (tree.has (· == .block))

/-! ## §4. Methods and scopes. -/

/-- Name of the class that a node belongs to. -/
def className? (tree : SyntaxTree) (id : Nat) : Option String := do
  match ← tree.kind? (← tree.enclosingClass? id) with
  | .classDecl name => some name
  | _ => none

/-- Signature of a method in a class. -/
def methodSignature? (tree : SyntaxTree) (id : Nat) : Option MethodSignature := do
  match ← tree.kind? id with
  | .method name descriptor isStatic =>
    return ⟨internalName (← tree.className? id), name, descriptor, isStatic⟩
  | _ => none

/-- Whether changes are attributed to a node: to a method, or to a block that is not the body of a
    method. -/
def isScope (tree : SyntaxTree) (id : Nat) : Bool :=
  match tree.kind? id with
  | some (.method ..) => true
  | some .block => !((tree.parent? id).map (tree.has NodeKind.isMethod)).getD false
  | _ => false

/-- The smallest scope with a line; of several the deepest, and of these the first. -/
def enclosingBlock? (tree : SyntaxTree) (line : Nat) : Option Nat :=
  let length := fun id => ((tree.node? id).map fun node => node.lines.length).getD 0
  let spans := fun id => ((tree.node? id).map fun node => node.lines.contains line).getD false
  Ascending.firstLeast
    (fun a b => length a < length b || (length a == length b && tree.depth b ≤ tree.depth a))
    ((List.range tree.size).filter fun id => tree.isScope id && spans id)

/-- Name of a scope: the key of its method, and the place of the scope among those in the method. -/
def blockLabel? (tree : SyntaxTree) (scope : Nat) : Option String := do
  let method ← tree.enclosingMethod? scope
  let key := (← tree.methodSignature? method).key
  if scope = method then
    return key
  else
    let inner := (tree.descendants method).filter fun id => id != method && tree.isScope id
    let ordinal ← inner.findIdx? (· == scope)
    return key ++ "#" ++ toString (ordinal + 1)

end SyntaxTree

/-! ## §5. Nested view. -/

/-- A node together with all that is below it. -/
inductive Term
  | node (id : Nat) (kind : NodeKind) (children : List Term)

namespace Term

/-- Position of the node in its tree. -/
def id : Term → Nat
  | .node id _ _ => id

/-- Kind of the node. -/
def kind : Term → NodeKind
  | .node _ kind _ => kind

/-- What is directly below the node. -/
def children : Term → List Term
  | .node _ _ children => children

end Term

namespace SyntaxTree

/-- What is at and below a node, down to `depth` levels. -/
def termWithin (tree : SyntaxTree) : Nat → Nat → List Term
  | 0, _ => []
  | depth + 1, id =>
    match tree.node? id with
    | some node => [.node id node.kind (node.children.flatMap (tree.termWithin depth))]
    | none => []

/-- What is at and below a node; none for a position without a node. No path is longer than the number
    of nodes. -/
def term? (tree : SyntaxTree) (id : Nat) : Option Term := (tree.termWithin tree.size id).head?

/-- Nested view of the whole tree. -/
def forest (tree : SyntaxTree) : List Term := tree.roots.flatMap (tree.termWithin tree.size)

end SyntaxTree

end PatchPresence
