import CellMachine.Vec.Slice

/-!
# Walking a vector

A cursor steps through the elements of a vector and keeps the items of the chunk it is in. When
the chunk it needs is missing it reports that and goes to the end; an item that is missing is
reported and passed over.
-/

namespace CellMachine.Vec

/-- The items of the chunk around a position, and the position of the first of them. -/
def chunkAround (v : Vec) (index : Nat) : Except DataError (Nat × List Ref) := do
  let start := index - index % chunkSize
  let node ← if start + chunkSize ≤ v.count then (← chunkAt v start).vec else .ok v
  .ok (start, ← chunkItems node)

/-- A position in a vector, with the items of the chunk that was read last. -/
structure Cursor where
  /-- The vector that is walked. -/
  vector : Vec
  /-- The position of the next element. -/
  index : Nat
  /-- The position of the first of the items that are kept. -/
  chunkStart : Nat
  /-- The items of the chunk that was read last; none before the first element. -/
  items : List Ref

namespace Cursor

/-- The cursor in front of the first element. -/
def start (v : Vec) : Cursor := ⟨v, 0, 0, []⟩

/-- The number of elements that lie ahead. -/
def left (c : Cursor) : Nat := c.vector.count - c.index

/-- The cursor at the end. -/
def finish (c : Cursor) : Cursor := { c with index := c.vector.count }

/-- True if the chunk that was read last holds the position of the cursor. -/
def inChunk (c : Cursor) : Bool :=
  c.chunkStart ≤ c.index && c.index < c.chunkStart + c.items.length

/-- The cursor with the chunk around its position read. -/
def fill (c : Cursor) : Except DataError Cursor :=
  if c.inChunk then .ok c
  else do
    let (first, items) ← chunkAround c.vector c.index
    .ok { c with chunkStart := first, items := items }

/-- The next element, or what keeps it from being read, and the cursor behind it. -/
def next (c : Cursor) : Option (Except DataError Cell × Cursor) :=
  if c.vector.count ≤ c.index then none
  else
    match c.fill with
    | .error e => some (.error e, c.finish)
    | .ok c =>
      match c.items[c.index - c.chunkStart]? with
      | some r => some (r.cell, { c with index := c.index + 1 })
      | none => none

end Cursor

end CellMachine.Vec
