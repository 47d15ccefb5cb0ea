/-!
# The shape of a vector

The shape of a vector depends on its count alone. Up to 32 elements are a single chunk. A larger
multiple of 32 is a tree whose children have the largest power of 32 below the count, the last
child possibly less. Any other count is a tail of the last `count % 32` elements behind the vector
of the elements before them.
-/

namespace CellMachine

/-- The number of items in a full chunk. -/
def chunkSize : Nat := 32

/-- True of the counts whose vectors are trees. -/
def isTreeCount (count : Nat) : Bool := chunkSize < count && count % chunkSize == 0

/-- The number of items that a vector which is not a tree holds itself. -/
def tailLength (count : Nat) : Nat := if count ≤ chunkSize then count else count % chunkSize

/-- What fits under a node of some height: 32 times as much with every level. -/
def capacity : Nat → Nat
  | 0 => 1
  | height + 1 => chunkSize * capacity height

/-- The number of elements in each full child of a tree: the largest power of 32 below `count`. -/
def childSize (count : Nat) : Nat := capacity (max 1 (Nat.log2 (count - 1) / 5))

/-- The number of children of a tree. -/
def childCount (count : Nat) : Nat := (count + childSize count - 1) / childSize count

end CellMachine
