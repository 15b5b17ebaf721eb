/-
  PatchPresence.Data.Table — finite maps listed in ascending key order.

  A `Table` is a list of entries sorted by key, so two tables that answer every lookup alike are
  the same list, and whatever is written from a table comes out in key order.
-/
namespace PatchPresence

/-- A finite map as a list of entries in ascending key order, each key at most once. -/
structure Table (κ : Type) (υ : Type) where
  /-- Entries by ascending key. -/
  entries : List (κ × υ)
deriving DecidableEq, Repr

namespace Table

variable {κ υ : Type} [Ord κ]

/-! ## §1. Lookup. -/

/-- The map without entries. -/
def empty : Table κ υ := ⟨[]⟩

instance : EmptyCollection (Table κ υ) := ⟨empty⟩

instance : Inhabited (Table κ υ) := ⟨empty⟩

/-- Value of the first entry at `key`. -/
def find? (key : κ) : List (κ × υ) → Option υ
  | [] => none
  | (other, value) :: rest =>
    match compare key other with
    | .eq => some value
    | _ => find? key rest

/-- Value stored at `key`. -/
def get? (table : Table κ υ) (key : κ) : Option υ := find? key table.entries

/-- Whether `key` has an entry. -/
def contains (table : Table κ υ) (key : κ) : Bool := (table.get? key).isSome

/-- Keys in ascending order. -/
def keys (table : Table κ υ) : List κ := table.entries.map Prod.fst

/-- Values in the order of their keys. -/
def values (table : Table κ υ) : List υ := table.entries.map Prod.snd

/-- Number of entries. -/
def size (table : Table κ υ) : Nat := table.entries.length

/-- Whether there is no entry. -/
def isEmpty (table : Table κ υ) : Bool := table.entries.isEmpty

/-! ## §2. Update. -/

/-- Entries with the value at `key` replaced by `change` of the old one, in one pass. -/
def upsertEntry (key : κ) (change : Option υ → υ) : List (κ × υ) → List (κ × υ)
  | [] => [(key, change none)]
  | (other, value) :: rest =>
    match compare key other with
    | .lt => (key, change none) :: (other, value) :: rest
    | .eq => (key, change (some value)) :: rest
    | .gt => (other, value) :: upsertEntry key change rest

/-- Sets the value at `key` to `change` of what stands there. -/
def upsert (table : Table κ υ) (key : κ) (change : Option υ → υ) : Table κ υ :=
  ⟨upsertEntry key change table.entries⟩

/-- Stores `value` at `key`, over an older value. -/
def insert (table : Table κ υ) (key : κ) (value : υ) : Table κ υ :=
  table.upsert key fun _ => value

/-- Stores `value` at `key` unless the key has a value already. -/
def insertNew (table : Table κ υ) (key : κ) (value : υ) : Table κ υ :=
  table.upsert key (·.getD value)

/-- Drops the entry at `key`. -/
def erase (table : Table κ υ) (key : κ) : Table κ υ :=
  ⟨table.entries.filter fun entry => compare key entry.1 != .eq⟩

/-- Inserts every pair in turn, so that of equal keys the last stays. -/
def insertAll (table : Table κ υ) (pairs : List (κ × υ)) : Table κ υ :=
  pairs.foldl (fun acc pair => acc.insert pair.1 pair.2) table

/-- The map of a list of pairs; of equal keys the last stays. -/
def ofList (pairs : List (κ × υ)) : Table κ υ := empty.insertAll pairs

/-- The entries whose value passes `keep`. -/
def filterValues (keep : υ → Bool) (table : Table κ υ) : Table κ υ :=
  ⟨table.entries.filter fun entry => keep entry.2⟩

end Table

end PatchPresence
