/-
  PatchPresence.Data.Sum — sums over lists, exact and in machine words.
-/
namespace PatchPresence

/-- Sum of a measure over the elements of a list. -/
def sumOf {α : Type} (measure : α → Nat) : List α → Nat
  | [] => 0
  | a :: rest => measure a + sumOf measure rest

/-- Sum of a measure in a machine word: where it passes 2^64 it starts anew. -/
def wordSum {α : Type} (measure : α → Nat) (items : List α) : Nat :=
  items.foldl (fun sum a => (sum + measure a) % UInt64.size) 0

/-- Distance of two numbers. -/
def distance (a b : Nat) : Nat := (a - b) + (b - a)

end PatchPresence
