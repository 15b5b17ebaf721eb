/-
  PatchPresence.Catalog — the analyses by name.
-/
namespace PatchPresence

/-- How an analysis is presented. -/
structure AnalysisInfo where
  id : String
  name : String
  description : String
deriving DecidableEq, Repr

namespace AnalysisInfo

/-- Dominance in the flow graph. -/
def dominators : AnalysisInfo :=
  ⟨"DOMINATORS", "Dominators", "Dominator sets and dominator-tree order of reachable blocks"⟩

/-- Loops of the flow graph. -/
def loops : AnalysisInfo :=
  ⟨"LOOPS", "Natural loops", "Natural loops with nesting depth and parent links"⟩

/-- Operand kinds in a method body. -/
def operandTypes : AnalysisInfo :=
  ⟨"OPERAND_TYPES", "Operand types", "Abstract kinds of stack slots and locals at block entries"⟩

/-- Constants in source. -/
def constants : AnalysisInfo :=
  ⟨"CONSTANTS", "Source constants", "Compile-time values of source expressions"⟩

/-- All analyses in the order in which they run. -/
def all : List AnalysisInfo := [dominators, loops, operandTypes, constants]

end AnalysisInfo

end PatchPresence
