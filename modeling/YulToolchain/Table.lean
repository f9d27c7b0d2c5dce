/-!
# Ordered Tables

Finite maps as lists of entries in the order of their keys.

A table lists its entries in order and has at most one entry for a key, so two
tables with the same entries are equal. That matters wherever a table is part
of an answer: what storage holds does not depend on the order of the writes.

## Main definitions

* `Table`: Entries in the order of their keys.
* `Table.get?`, `Table.insert`, `Table.erase`: Access by key.
* `Table.tally`: How often each element of a list occurs.
-/

namespace YulToolchain

/-- Entries in the order of their keys. -/
structure Table (κ α : Type) where
  /-- The entries. -/
  entries : List (κ × α)
deriving DecidableEq, Repr, Inhabited

namespace Table

variable {κ α : Type}

/-- No entries. -/
def empty : Table κ α := ⟨[]⟩

/-- Whether there are no entries. -/
def isEmpty (t : Table κ α) : Bool := t.entries.isEmpty

/-- The keys in order. -/
def keys (t : Table κ α) : List κ := t.entries.map (·.1)

/-- The entries that satisfy a condition. -/
def filter (p : κ → α → Bool) (t : Table κ α) : Table κ α :=
  ⟨t.entries.filter fun (k, v) => p k v⟩

section Keys

variable [DecidableEq κ]

/-- The value at a key. -/
def get? (t : Table κ α) (k : κ) : Option α := t.entries.lookup k

/-- Whether a key has a value. -/
def contains (t : Table κ α) (k : κ) : Bool := (t.get? k).isSome

/-- The table without a key. -/
def erase (t : Table κ α) (k : κ) : Table κ α := ⟨t.entries.filter fun e => e.1 ≠ k⟩

variable [LT κ] [DecidableLT κ]

/-- Puts an entry at its place in a list, replacing one with the same key. -/
def insertEntry (k : κ) (v : α) : List (κ × α) → List (κ × α)
  | [] => [(k, v)]
  | (k', v') :: rest =>
    if k < k' then (k, v) :: (k', v') :: rest
    else if k = k' then (k, v) :: rest
    else (k', v') :: insertEntry k v rest

/-- The table with a value at a key. -/
def insert (t : Table κ α) (k : κ) (v : α) : Table κ α := ⟨insertEntry k v t.entries⟩

/-- The table with the value at a key changed, or with `init` changed there if
    the key has none. -/
def update (t : Table κ α) (k : κ) (init : α) (f : α → α) : Table κ α :=
  t.insert k (f ((t.get? k).getD init))

/-- How often each element of a list occurs. -/
def tally (ks : List κ) : Table κ Nat := ks.foldl (fun t k => t.update k 0 (· + 1)) empty

/-- The elements of a list in order, each once. -/
def distinct (ks : List κ) : List κ := (tally ks).keys

end Keys

end Table

end YulToolchain
