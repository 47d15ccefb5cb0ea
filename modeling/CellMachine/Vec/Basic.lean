import CellMachine.Cell.Encode
import CellMachine.Vec.Shape

/-!
# Vectors

Building a vector from its elements, reading elements, appending, removing and replacing them.
Every operation leaves the vector in the one shape that its count allows, and copies only the
nodes on the way to what it changes. A node that is known by its hash only makes the operations
that need it fail with that hash.

* `Vec.of` builds the vector of a list of cells, and `toList` lists the elements of a vector.
* `get`, `set`, `push` and `pop` are their namesakes on lists.
-/

namespace CellMachine

/-- Why a reference does not lead to a vector. -/
def Ref.vecError : Ref → DataError
  | .remote h => .missing h
  | .embedded _ _ c | .direct _ _ c | .cached _ _ c => .format (.malformed (.wrongTag "vector" c.tag))

/-- The vector that a reference holds. -/
def Ref.vec (r : Ref) : Except DataError Vec := r.cell >>= Cell.expectVector

namespace Vec

/-- The cell that is a vector. -/
abbrev cell (v : Vec) : Cell := .vector v

/-- The vector without elements. -/
def empty : Vec := .chunk []

/-- True of a vector made of full chunks only. -/
def isPacked (v : Vec) : Bool := v.count % chunkSize == 0

/-- The identity of a vector. -/
def hash (v : Vec) : Hash := v.cell.hash

/-! ## Building -/

/-- Cuts a list into pieces of `n + 1`, the last possibly shorter. -/
def pieces (n : Nat) : List α → List (List α)
  | [] => []
  | x :: xs => (x :: xs.take n) :: pieces n (xs.drop n)
termination_by xs => xs.length
decreasing_by simp only [List.length_drop, List.length_cons]; omega

/-- The vector of at most `capacity height` full chunks. -/
def pack : Nat → List Vec → Vec
  | 0, chunks => chunks.headD empty
  | height + 1, chunks =>
    if chunks.length ≤ capacity height then pack height chunks
    else
      .tree (chunkSize * chunks.length)
        ((pieces (capacity height - 1) chunks).map fun piece => Ref.of (pack height piece).cell)

/-- The vector of full chunks. -/
def ofChunks (chunks : List Vec) : Vec := pack (Nat.log2 chunks.length / 5 + 1) chunks

/-- The vector whose elements a list of references holds. -/
def ofRefs (refs : List Ref) : Vec :=
  let count := refs.length
  if count ≤ chunkSize then .chunk refs
  else
    let full := count - count % chunkSize
    let front := ofChunks ((pieces (chunkSize - 1) (refs.take full)).map .chunk)
    if full = count then front else .tailed count (Ref.of front.cell) (refs.drop full)

/-- The vector of a list of cells. -/
def of (items : List Cell) : Vec := ofRefs (items.map Ref.of)

/-! ## Reading -/

/-- The item at `i` of the items of a node, `index` being the position in the vector and `count`
the number of its elements. -/
def itemAt (items : List Ref) (i index count : Nat) : Except DataError Cell :=
  match items[i]? with
  | some r => r.cell
  | none => .error (.outOfBounds index count)

mutual

/-- The element at a position. -/
def getIn : Vec → Nat → Except DataError Cell
  | .chunk items, i => itemAt items i i items.length
  | .tailed count front items, i =>
    let before := count - items.length
    if i < before then refGetIn front i else itemAt items (i - before) i count
  | .tree count children, i =>
    refsGetIn children (i / childSize count) (i % childSize count) (.outOfBounds i count)

/-- The element at a position of the vector behind a reference. -/
def refGetIn : Ref → Nat → Except DataError Cell
  | .embedded _ _ (.vector v), i => getIn v i
  | .direct _ _ (.vector v), i => getIn v i
  | .cached _ _ (.vector v), i => getIn v i
  | r, _ => .error r.vecError

/-- The element at a position of child number `k`; `e` if there is no such child. -/
def refsGetIn : List Ref → Nat → Nat → DataError → Except DataError Cell
  | [], _, _, e => .error e
  | r :: _, 0, i, _ => refGetIn r i
  | _ :: rs, k + 1, i, e => refsGetIn rs k i e

end

/-- The element at a position below the count. -/
def get (v : Vec) (i : Nat) : Except DataError Cell :=
  if v.count ≤ i then .error (.outOfBounds i v.count) else getIn v i

section Traverse
variable (f : Cell → Except DataError β)

/-- What `f` yields on the cells that references hold, in order. -/
def itemsTraverse : List Ref → Except DataError (List β) := List.mapM fun r => r.cell >>= f

mutual

/-- What `f` yields on the elements of a vector, in order, up to the first failure. -/
def traverse : Vec → Except DataError (List β)
  | .chunk items => itemsTraverse f items
  | .tailed _ front items => do
    let before ← refTraverse front
    let after ← itemsTraverse f items
    .ok (before ++ after)
  | .tree _ children => refsTraverse children

/-- What `f` yields on the elements of the vector behind a reference. -/
def refTraverse : Ref → Except DataError (List β)
  | .embedded _ _ (.vector v) => traverse v
  | .direct _ _ (.vector v) => traverse v
  | .cached _ _ (.vector v) => traverse v
  | r => .error r.vecError

/-- What `f` yields on the elements of the vectors behind references, in order. -/
def refsTraverse : List Ref → Except DataError (List β)
  | [] => .ok []
  | r :: rs => do
    let first ← refTraverse r
    let rest ← refsTraverse rs
    .ok (first ++ rest)

end

end Traverse

/-- The elements of a vector, in order. -/
def toList (v : Vec) : Except DataError (List Cell) := v.traverse .ok

/-! ## Appending -/

/-- The tree that follows a full vector with one more chunk. -/
def taller (count : Nat) (v full : Vec) : Vec :=
  .tree (count + chunkSize) [Ref.of v.cell, Ref.of full.cell]

mutual

/-- A packed vector with one more full chunk. -/
def pushChunk : Vec → Vec → Except DataError Vec
  | .tree count children, full =>
    let size := childSize count
    -- a full tree becomes the first child of a taller one
    if childSize (count + chunkSize) ≠ size then .ok (taller count (.tree count children) full)
    -- the last child has room
    else if count - size * (children.length - 1) < size then do
      .ok (.tree (count + chunkSize) (← refsPushChunk children full))
    else .ok (.tree (count + chunkSize) (children ++ [Ref.of full.cell]))
  | v, full => .ok (taller chunkSize v full)

/-- The vector behind a reference with one more full chunk. -/
def refPushChunk : Ref → Vec → Except DataError Vec
  | .embedded _ _ (.vector v), full => pushChunk v full
  | .direct _ _ (.vector v), full => pushChunk v full
  | .cached _ _ (.vector v), full => pushChunk v full
  | r, _ => .error r.vecError

/-- The children of a node, the last of them with one more full chunk. -/
def refsPushChunk : List Ref → Vec → Except DataError (List Ref)
  | [], _ => .ok []
  | [r], full => do .ok [Ref.of (← refPushChunk r full).cell]
  | r :: rs, full => do .ok (r :: (← refsPushChunk rs full))

end

/-- The vector with one more element at the end. -/
def push (v : Vec) (c : Cell) : Except DataError Vec :=
  let r := Ref.of c
  match v with
  | .chunk items =>
    if items.length < chunkSize then .ok (.chunk (items ++ [r]))
    else .ok (.tailed (items.length + 1) (Ref.of v.cell) [r])
  | .tailed count front items =>
    -- a tail that fills up becomes a chunk of the front
    if items.length + 1 = chunkSize then refPushChunk front (.chunk (items ++ [r]))
    else .ok (.tailed (count + 1) front (items ++ [r]))
  | .tree count _ => .ok (.tailed (count + 1) (Ref.of v.cell) [r])

/-! ## Removing -/

/-- What remains of a node that loses its last chunk: nothing, its only child, or a tree. -/
def remainder (count : Nat) : List Ref → Except DataError Cell
  | [only] => only.cell
  | children => .ok (.vector (.tree count children))

mutual

/-- A packed vector without its last chunk, and that chunk. -/
def splitLast : Vec → Except DataError (Option Cell × Vec)
  | .tree count children => do
    let (rest, last) ← refsSplitLast children
    .ok (some (← remainder (count - chunkSize) rest), last)
  | v => .ok (none, v)

/-- The vector behind a reference without its last chunk, and that chunk. -/
def refSplitLast : Ref → Except DataError (Option Cell × Vec)
  | .embedded _ _ (.vector v) => splitLast v
  | .direct _ _ (.vector v) => splitLast v
  | .cached _ _ (.vector v) => splitLast v
  | r => .error r.vecError

/-- The children of a node without their last chunk, and that chunk. -/
def refsSplitLast : List Ref → Except DataError (List Ref × Vec)
  | [] => .ok ([], empty)
  | [r] => do
    let (rest, last) ← refSplitLast r
    .ok ((rest.map Ref.of).toList, last)
  | r :: rs => do
    let (rest, last) ← refsSplitLast rs
    .ok (r :: rest, last)

end

/-- The items of a chunk. -/
def chunkItems : Vec → Except DataError (List Ref)
  | .chunk items | .tailed _ _ items => .ok items
  | .tree count _ => .error (.format (.malformed (.childCount count chunkSize)))

/-- The vector without its last element. -/
def pop (v : Vec) : Except DataError Vec :=
  match v with
  | .chunk [] => .error (.outOfBounds 0 0)
  | .chunk items => .ok (.chunk items.dropLast)
  | .tailed _ front [_] => front.vec
  | .tailed count front items => .ok (.tailed (count - 1) front items.dropLast)
  | .tree count _ => do
    let (rest, last) ← splitLast v
    let items ← chunkItems last
    match rest with
    | some c => .ok (.tailed (count - 1) (Ref.of c) items.dropLast)
    | none => .ok (.chunk items.dropLast)

/-! ## Replacing -/

/-- The items of a node with the one at `i` replaced. -/
def setItem (items : List Ref) (i : Nat) (r : Ref) (index count : Nat) :
    Except DataError (List Ref) :=
  if i < items.length then .ok (items.set i r) else .error (.outOfBounds index count)

mutual

/-- The vector with the element at a position replaced. -/
def setIn : Vec → Nat → Ref → Except DataError Vec
  | .chunk items, i, r => do .ok (.chunk (← setItem items i r i items.length))
  | .tailed count front items, i, r =>
    let before := count - items.length
    if i < before then do .ok (.tailed count (← refSetIn front i r) items)
    else do .ok (.tailed count front (← setItem items (i - before) r i count))
  | .tree count children, i, r => do
    let size := childSize count
    .ok (.tree count (← refsSetIn children (i / size) (i % size) r (.outOfBounds i count)))

/-- The vector behind a reference with the element at a position replaced. -/
def refSetIn : Ref → Nat → Ref → Except DataError Ref
  | .embedded _ _ (.vector v), i, r => do .ok (Ref.of (← setIn v i r).cell)
  | .direct _ _ (.vector v), i, r => do .ok (Ref.of (← setIn v i r).cell)
  | .cached _ _ (.vector v), i, r => do .ok (Ref.of (← setIn v i r).cell)
  | f, _, _ => .error f.vecError

/-- The children of a node with an element of child number `k` replaced; `e` if there is no such
child. -/
def refsSetIn : List Ref → Nat → Nat → Ref → DataError → Except DataError (List Ref)
  | [], _, _, _, e => .error e
  | f :: fs, 0, i, r, _ => do .ok ((← refSetIn f i r) :: fs)
  | f :: fs, k + 1, i, r, e => do .ok (f :: (← refsSetIn fs k i r e))

end

/-- The vector with the element at a position below the count replaced. -/
def set (v : Vec) (i : Nat) (c : Cell) : Except DataError Vec :=
  if v.count ≤ i then .error (.outOfBounds i v.count) else setIn v i (Ref.of c)

end Vec

end CellMachine
