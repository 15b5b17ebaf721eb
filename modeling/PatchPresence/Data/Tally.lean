/-
  PatchPresence.Data.Tally — counted bags: a table from keys to numbers of occurrences.
-/
import PatchPresence.Data.Sum
import PatchPresence.Data.Table

namespace PatchPresence

/-- A counted bag of keys. A key may stand with count zero: it is listed, and weighs nothing. -/
abbrev Tally (κ : Type) := Table κ Nat

namespace Tally

variable {κ : Type} [Ord κ]

/-- Occurrences of `key`, zero when it is not listed. -/
def count (tally : Tally κ) (key : κ) : Nat := (tally.get? key).getD 0

/-- Adds `n` occurrences of `key`. -/
def add (tally : Tally κ) (key : κ) (n : Nat) : Tally κ :=
  tally.upsert key fun old => old.getD 0 + n

/-- Adds one occurrence of `key`. -/
def bump (tally : Tally κ) (key : κ) : Tally κ := tally.add key 1

/-- Adds one occurrence of each key of a list. -/
def bumpAll (tally : Tally κ) (keys : List κ) : Tally κ := keys.foldl bump tally

/-- Counts the keys of a list. -/
def ofKeys (keys : List κ) : Tally κ := bumpAll Table.empty keys

/-- Adds up a list of keys with counts. -/
def ofCounts (pairs : List (κ × Nat)) : Tally κ :=
  pairs.foldl (fun acc pair => add acc pair.1 pair.2) Table.empty

/-- Adds every count of `other`. -/
def merge (tally other : Tally κ) : Tally κ :=
  other.entries.foldl (fun acc pair => add acc pair.1 pair.2) tally

/-- Number of occurrences over all keys. -/
def total (tally : Tally κ) : Nat := sumOf Prod.snd tally.entries

end Tally

end PatchPresence
