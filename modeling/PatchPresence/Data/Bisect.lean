/-
  PatchPresence.Data.Bisect — the border between the elements that pass a test and those behind them.

  A list is partitioned by a test when no element that fails it stands in front of one that passes it. A
  sorted list is partitioned by every comparison with a bound, and the border is found by halving.
-/
namespace PatchPresence

/-- The first place in the window from `low` up to `high` where the test fails, or `high`. -/
def bisect (passes : Nat → Bool) (low high : Nat) : Nat :=
  if low < high then
    let middle := low + (high - low) / 2
    if passes middle then bisect passes (middle + 1) high else bisect passes low middle
  else
    low
termination_by high - low

/-- Number of elements in front of the border of a partitioned list. -/
def partitionPoint {α : Type} (passes : α → Bool) (items : List α) : Nat :=
  bisect (fun place => items[place]?.any passes) 0 items.length

end PatchPresence
