/-
  PatchPresence.Data.Ascending — finite sets as strictly ascending lists, and choice from a list.
-/
namespace PatchPresence.Ascending

variable {α : Type}

/-! ## §1. Sets. -/

/-- Adds `a` to an ascending list; an element that stands already is not repeated. -/
def insert [Ord α] (a : α) : List α → List α
  | [] => [a]
  | b :: rest =>
    match compare a b with
    | .lt => a :: b :: rest
    | .eq => b :: rest
    | .gt => b :: insert a rest

/-- Adds every element of a list. -/
def insertAll [Ord α] (set : List α) (items : List α) : List α :=
  items.foldl (fun acc a => insert a acc) set

/-- The distinct elements of a list in ascending order. -/
def ofList [Ord α] (items : List α) : List α := insertAll [] items

/-- Whether every element of `xs` is one of `ys`. -/
def subset [BEq α] (xs ys : List α) : Bool := xs.all ys.contains

/-! ## §2. Choice. -/

/-- The first of the elements that are least in a total preorder. -/
def firstLeast (le : α → α → Bool) : List α → Option α
  | [] => none
  | a :: rest =>
    match firstLeast le rest with
    | none => some a
    | some b => if le a b then some a else some b

/-- The last of the elements with the greatest key. -/
def lastGreatest (key : α → Nat) : List α → Option α
  | [] => none
  | a :: rest =>
    match lastGreatest key rest with
    | none => some a
    | some b => if key b < key a then some a else some b

end PatchPresence.Ascending
