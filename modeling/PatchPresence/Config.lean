/-
  PatchPresence.Config — settings of the analysis.
-/
import PatchPresence.Decimal.Format
import PatchPresence.Folding.Library
import PatchPresence.Patch.Comparison
import PatchPresence.Text.Cut

namespace PatchPresence

/-- Settings of all stages. -/
structure Config where
  /-- Iterations over a graph stop after this many rounds per block. -/
  capFactor : Nat := 32
  /-- An opcode without a stack rule is an error. -/
  strict : Bool := false
  families : Families := {}
  weights : Weights := {}
  /-- Least difference of scores for a decisive verdict. -/
  margin : Float := 0.1
  /-- Share of patched evidence from which an artifact counts as patched. -/
  presenceThreshold : Float := 0.6
  /-- Constants of fields and invocations besides those that are built in. -/
  libraryConstants : Table String Constant := .empty
  /-- Only files of a diff under this path count. -/
  sourceRoot : Option String := none
  /-- Files of a diff with one of these texts in their path do not count. -/
  ignoredFiles : List String := []
deriving DecidableEq, Repr

/-! ## §1. Validity. -/

/-- Why settings are refused. -/
inductive ConfigFault
  | capFactorZero
  | marginOutOfRange (margin : Float)
  | thresholdOutOfRange (threshold : Float)
  | weightNegative
  | weightsZero
deriving DecidableEq, Repr

namespace ConfigFault

/-- Numbers in messages have no exponent, and no fraction when they are whole. -/
def numberFormat : DecimalFormat where
  tie := .up
  isPlain := fun _ => true
  plainZero := false
  scientificZero := false
  mark := "e"
  nan := "NaN"
  infinity := "inf"

/-- Wording of a fault. -/
def message : ConfigFault → String
  | .capFactorZero => "iteration_cap_factor must be positive"
  | .marginOutOfRange margin => "margin must be within [0, 1], got " ++ numberFormat.float margin
  | .thresholdOutOfRange threshold =>
    "presence_threshold must be within [0, 1], got " ++ numberFormat.float threshold
  | .weightNegative => "match weights must be non-negative"
  | .weightsZero => "match weights must not all be zero"

end ConfigFault

namespace Config

/-- Whether a number is between zero and one. -/
def isShare (value : Float) : Bool := 0.0 ≤ value && value ≤ 1.0

/-- Whether a number may be a weight. -/
def isWeight (value : Float) : Bool := value.isFinite && !(value < 0.0)

/-- Checks the settings one by one. -/
def validate (config : Config) : Except ConfigFault Unit :=
  if config.capFactor = 0 then
    .error .capFactorZero
  else if !isShare config.margin then
    .error (.marginOutOfRange config.margin)
  else if !isShare config.presenceThreshold then
    .error (.thresholdOutOfRange config.presenceThreshold)
  else if config.weights.toList.any fun weight => !isWeight weight then
    .error .weightNegative
  else if 0.0 < config.weights.toList.foldl (· + ·) 0.0 then
    .ok ()
  else
    .error .weightsZero

/-! ## §2. Use. -/

/-- Greatest number of rounds over a graph of the given size; it does not exceed 64 bits. -/
def iterationCap (config : Config) (blocks : Nat) : Nat :=
  min (config.capFactor * max blocks 1) (UInt64.size - 1)

/-- Known constants of fields and invocations. -/
def library (config : Config) : LibraryConstants :=
  LibraryConstants.builtin.extend config.libraryConstants.entries

/-- Whether a file of a diff counts. -/
def acceptsFile (config : Config) (path : String) : Bool :=
  (match config.sourceRoot with
    | some root => (Text.after? root.toList path.toList).isSome
    | none => true) &&
    !config.ignoredFiles.any fun fragment => (Text.cut? fragment.toList path.toList).isSome

end Config

end PatchPresence
