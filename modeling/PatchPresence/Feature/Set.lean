/-
  PatchPresence.Feature.Set — what a method looks like, in terms shared by bytecode and source.

  An extraction lists features one by one, each with the code block in which it occurs. A feature set
  counts them family by family, and groups calls by block.
-/
import PatchPresence.Constant
import PatchPresence.Data.Tally

namespace PatchPresence

/-! ## §1. Features. -/

/-- Shapes of code that compilation keeps. -/
inductive Shape
  | throwExit
  | monitor
  | switch
  | instanceOf
  | returnExit
  | loop
  | branchLt
  | branchLe
  | branchGt
  | branchGe
  | shiftLeft
  | shiftRight
  | unsignedShiftRight
deriving DecidableEq, Repr

namespace Shape

/-- Place of a shape in the order of shapes. -/
def rank : Shape → Nat
  | .throwExit => 0
  | .monitor => 1
  | .switch => 2
  | .instanceOf => 3
  | .returnExit => 4
  | .loop => 5
  | .branchLt => 6
  | .branchLe => 7
  | .branchGt => 8
  | .branchGe => 9
  | .shiftLeft => 10
  | .shiftRight => 11
  | .unsignedShiftRight => 12

instance : Ord Shape := ⟨fun a b => compare a.rank b.rank⟩

end Shape

/-- A loop by its depth and by what its exit conditions compare with. -/
structure LoopSignature where
  /-- Nesting depth, 1 for an outermost loop. -/
  depth : Nat
  constantExits : Nat
  variableExits : Nat
  callExits : Nat
deriving DecidableEq, Repr

/-- Loop signatures are ordered field by field. -/
def LoopSignature.order (a b : LoopSignature) : Ordering :=
  (compare a.depth b.depth).then <|
    (compare a.constantExits b.constantExits).then <|
      (compare a.variableExits b.variableExits).then (compare a.callExits b.callExits)

instance : Ord LoopSignature := ⟨LoopSignature.order⟩

/-- What the condition of a loop exit compares with. -/
inductive ExitClass
  | constant
  | variable
  | call
deriving DecidableEq, Repr

/-- Signature of a loop with the given exits. -/
def LoopSignature.ofExits (depth : Nat) (exits : List ExitClass) : LoopSignature :=
  ⟨depth, exits.count .constant, exits.count .variable, exits.count .call⟩

/-- One occurrence of a feature. -/
inductive Feature
  | shape (shape : Shape)
  | loop (signature : LoopSignature)
  | call (target : String)
  | constant (value : Constant)
  /-- A field that is read or written, or the length of an array. -/
  | access (key : String)
  /-- A class or array type of which an object is created. -/
  | creation (key : String)
deriving DecidableEq, Repr

namespace Feature

/-- Form in which bytecode holds a constant: numbers for truth values and characters, and nothing for
    null. -/
def normalForm : Constant → Option Constant
  | .null => none
  | .bool flag => some (.int (if flag then 1 else 0))
  | .char unit => some (.int (Int32.ofNat unit.toNat))
  | other => some other

/-- Occurrence of a constant, if it leaves a trace. -/
def ofConstant (value : Constant) : List Feature := ((normalForm value).map Feature.constant).toList

/-- Occurrence of the constant of a small number. -/
def ofInt (value : Int32) : Feature := .constant (.int value)

end Feature

/-- An occurrence of a feature in a code block. -/
structure Finding where
  block : Nat
  feature : Feature
deriving DecidableEq, Repr

/-! ## §2. Families. -/

/-- Which families of features are collected. -/
structure Families where
  callSites : Bool := true
  constants : Bool := true
  loops : Bool := true
  shapes : Bool := true
  accesses : Bool := true
  creations : Bool := true
deriving DecidableEq, Repr

/-! ## §3. Feature sets. -/

/-- Where features come from. -/
inductive Origin
  | bytecode
  | source
deriving DecidableEq, Repr

/-- Features of one method. -/
structure FeatureSet where
  origin : Origin
  /-- Key of the method; empty when it has none. -/
  method : String
  shapes : Tally Shape
  loops : List LoopSignature
  /-- Call targets by code block. -/
  callSites : List (Tally String)
  constants : Tally Constant
  accesses : Tally String
  creations : Tally String
deriving DecidableEq, Repr

namespace FeatureSet

/-- Call targets of all blocks. -/
def calls (set : FeatureSet) : Tally String := set.callSites.foldl Tally.merge .empty

/-- Whether nothing was found. -/
def isEmpty (set : FeatureSet) : Bool :=
  set.shapes.isEmpty && set.loops.isEmpty && set.callSites.isEmpty && set.constants.isEmpty &&
    set.accesses.isEmpty && set.creations.isEmpty

/-- Number of occurrences. -/
def size (set : FeatureSet) : Nat :=
  set.shapes.total + set.loops.length + sumOf Tally.total set.callSites + set.constants.total +
    set.accesses.total + set.creations.total

/-- Shapes among features. -/
def shapesOf (features : List Feature) : List Shape :=
  features.filterMap fun
    | .shape shape => some shape
    | _ => none

/-- Loops among features. -/
def loopsOf (features : List Feature) : List LoopSignature :=
  features.filterMap fun
    | .loop signature => some signature
    | _ => none

/-- Call targets among features. -/
def callsOf (features : List Feature) : List String :=
  features.filterMap fun
    | .call target => some target
    | _ => none

/-- Constants among features. -/
def constantsOf (features : List Feature) : List Constant :=
  features.filterMap fun
    | .constant value => some value
    | _ => none

/-- Accesses among features. -/
def accessesOf (features : List Feature) : List String :=
  features.filterMap fun
    | .access key => some key
    | _ => none

/-- Creations among features. -/
def creationsOf (features : List Feature) : List String :=
  features.filterMap fun
    | .creation key => some key
    | _ => none

/-- Call targets of one block; none for a block without calls. -/
def callSite? (findings : List Finding) (block : Nat) : Option (Tally String) :=
  let calls := callsOf ((findings.filter (·.block = block)).map Finding.feature)
  if calls.isEmpty then none else some (.ofKeys calls)

/-- Counts findings. Call sites are listed in the given order of blocks, loops in ascending order. -/
def ofFindings (origin : Origin) (method : String) (blocks : List Nat) (findings : List Finding) :
    FeatureSet :=
  let features := findings.map Finding.feature
  { origin
    method
    shapes := .ofKeys (shapesOf features)
    loops := (loopsOf features).mergeSort fun a b => (compare a b).isLE
    callSites := blocks.filterMap (callSite? findings)
    constants := .ofKeys (constantsOf features)
    accesses := .ofKeys (accessesOf features)
    creations := .ofKeys (creationsOf features) }

end FeatureSet

end PatchPresence
