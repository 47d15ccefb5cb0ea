import CellMachine.Vec.Basic

/-!
# Slices, concatenation and common beginnings

Whole chunks are taken over from one vector into another by reference, as long as the receiver is
made of full chunks and the source position is a multiple of 32; elsewhere elements go one by one.
The beginnings of two vectors are compared chunk by chunk, by hash, and only the first chunk that
differs is looked into.

* `slice` is the run of `length` elements from `start`, and `append` one vector after another.
* `commonLength` is the number of leading elements in which two vectors agree.
-/

namespace CellMachine.Vec

mutual

/-- The reference to the full chunk that starts at `offset`, a multiple of 32. -/
def chunkAt : Vec → Nat → Except DataError Ref
  | .chunk items, offset =>
    if offset = 0 ∧ items.length = chunkSize then .ok (Ref.of (.vector (.chunk items)))
    else .error (.outOfBounds offset items.length)
  | .tailed count front items, offset =>
    if offset < count - items.length then refChunkAt front offset
    else .error (.outOfBounds offset count)
  | .tree count children, offset =>
    let size := childSize count
    if size = chunkSize then
      match children[offset / size]? with
      | some r => .ok r
      | none => .error (.outOfBounds offset count)
    else refsChunkAt children (offset / size) (offset % size) (.outOfBounds offset count)

/-- The reference to a full chunk of the vector behind a reference. -/
def refChunkAt : Ref → Nat → Except DataError Ref
  | .embedded _ _ (.vector v), offset => chunkAt v offset
  | .direct _ _ (.vector v), offset => chunkAt v offset
  | .cached _ _ (.vector v), offset => chunkAt v offset
  | r, _ => .error r.vecError

/-- The reference to a full chunk of child number `k`; `e` if there is no such child. -/
def refsChunkAt : List Ref → Nat → Nat → DataError → Except DataError Ref
  | [], _, _, e => .error e
  | r :: _, 0, offset, _ => refChunkAt r offset
  | _ :: rs, k + 1, offset, e => refsChunkAt rs k offset e

end

/-- Appends the elements `i` to `stop - 1` of `src` to `out`. Every step takes at least one
element, so that `left` steps are enough when `left` is their number. -/
def extend (src : Vec) (stop : Nat) : Nat → Vec → Nat → Except DataError Vec
  | 0, out, _ => .ok out
  | left + 1, out, i =>
    if stop ≤ i then .ok out
    else if out.isPacked && i % chunkSize == 0 && decide (i + chunkSize ≤ stop) then do
      -- both sides stand at the border of a chunk: the chunk is taken over whole
      let full ← (← chunkAt src i).vec
      let out ← if out.count = 0 then .ok full else pushChunk out full
      extend src stop left out (i + chunkSize)
    else do
      let out ← out.push (← src.get i)
      extend src stop left out (i + 1)

/-- No position that a message mentions exceeds this. -/
def maxIndex : Nat := UInt64.size - 1

/-- The run of `length` elements that begins at `start`. -/
def slice (v : Vec) (start length : Nat) : Except DataError Vec :=
  let stop := start + length
  if stop ≤ v.count then extend v stop length empty start
  else .error (.outOfBounds (min stop maxIndex) v.count)

/-- The elements of one vector and then those of another. -/
def append (v w : Vec) : Except DataError Vec := extend w w.count w.count v 0

/-- The position, from `i` on, of the first chunk in which two vectors differ. -/
def commonChunks (v w : Vec) (limit : Nat) : Nat → Nat → Except DataError Nat
  | 0, i => .ok i
  | left + 1, i =>
    if i + chunkSize ≤ limit then do
      let a ← chunkAt v i
      let b ← chunkAt w i
      if a.hash = b.hash then commonChunks v w limit left (i + chunkSize) else .ok i
    else .ok i

/-- The position, from `i` on, of the first element in which two vectors differ. -/
def commonItems (v w : Vec) (limit : Nat) : Nat → Nat → Except DataError Nat
  | 0, i => .ok i
  | left + 1, i =>
    if i < limit then do
      let a ← v.get i
      let b ← w.get i
      if a.same b then commonItems v w limit left (i + 1) else .ok i
    else .ok i

/-- The number of leading elements in which two vectors agree. -/
def commonLength (v w : Vec) : Except DataError Nat :=
  let limit := min v.count w.count
  if v.hash = w.hash then .ok limit
  else do
    let i ← commonChunks v w limit limit 0
    commonItems v w limit (limit - i) i

end CellMachine.Vec
