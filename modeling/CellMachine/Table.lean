import CellMachine.Cell.Decode

/-!
# Maps

A map associates cells with cells. Its entries increase by the hash of their key, so that a map has
one encoding however it came about; the whole map has to fit one encoding.

* `Table.ofList` builds the map of a list of associations, of which later ones win.
* `find?`, `insert`, `erase` and `toList` are their namesakes on association lists.
-/

namespace CellMachine

/-- The entries of a map, in the order of their key hashes. -/
structure Table where
  /-- Keys with their values. -/
  entries : List (Ref × Ref)

namespace Table

/-- The map without entries. -/
def empty : Table := ⟨[]⟩

/-- The cell that is a map. -/
abbrev cell (t : Table) : Cell := .map t.entries

/-- The map that a cell is. -/
def ofCell : Cell → Except DataError Table
  | .map entries => .ok ⟨entries⟩
  | c => .error (.format (.malformed (.wrongTag "map" c.tag)))

/-- The number of entries. -/
def size (t : Table) : Nat := t.entries.length

/-- The value reference of the entry with a key hash. -/
def lookup (h : Hash) : List (Ref × Ref) → Option Ref
  | [] => none
  | (k, v) :: es => if k.hash = h then some v else lookup h es

/-- The entries with the one of a key replaced, or put in its place. -/
def insertEntry (key value : Ref) : List (Ref × Ref) → List (Ref × Ref)
  | [] => [(key, value)]
  | (k, v) :: es =>
    if k.hash < key.hash then (k, v) :: insertEntry key value es
    else if k.hash = key.hash then (k, value) :: es
    else (key, value) :: (k, v) :: es

/-- The entries without the one of a key hash. -/
def eraseEntry (h : Hash) : List (Ref × Ref) → List (Ref × Ref)
  | [] => []
  | (k, v) :: es => if k.hash = h then es else (k, v) :: eraseEntry h es

/-- The map, if it fits one encoding. -/
def checked (t : Table) : Except DataError Table :=
  let n := t.cell.encode.length
  if maxEncoding < n then .error (.violation (.mapSize n maxEncoding)) else .ok t

/-- The map of a list of associations; for repeated keys the last value wins. -/
def ofList (entries : List (Cell × Cell)) : Except DataError Table :=
  checked ⟨entries.foldl (fun es e => insertEntry (.of e.1) (.of e.2) es) []⟩

/-- The value of a key, if there is one. -/
def find? (t : Table) (key : Cell) : Except DataError (Option Cell) :=
  match lookup key.hash t.entries with
  | some r => r.cell.map some
  | none => .ok none

/-- True of a key that has a value. -/
def contains (t : Table) (key : Cell) : Bool := (lookup key.hash t.entries).isSome

/-- The map with the value of a key set. -/
def insert (t : Table) (key value : Cell) : Except DataError Table :=
  checked ⟨insertEntry (.of key) (.of value) t.entries⟩

/-- The map without a key. -/
def erase (t : Table) (key : Cell) : Except DataError Table :=
  if t.contains key then checked ⟨eraseEntry key.hash t.entries⟩ else .ok t

/-- Keys and values, in the order of the map. -/
def toList (t : Table) : Except DataError (List (Cell × Cell)) :=
  t.entries.mapM fun e => do
    let k ← e.1.cell
    let v ← e.2.cell
    .ok (k, v)

end Table

end CellMachine
