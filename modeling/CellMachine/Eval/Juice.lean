/-!
# Juice

Juice is the currency of evaluation. Every op and every core function has a fixed price, except
that building a vector is paid by the element and hashing by the byte. A price is never more than
the greatest number that fits 64 bits.
-/

namespace CellMachine.Juice

/-- No amount of juice exceeds this. -/
def maxAmount : Nat := UInt64.size - 1

/-- The price of a constant. -/
def constant : Nat := 5
/-- The price of a lookup. -/
def lookup : Nat := 15
/-- The price of a sequence, beside its ops. -/
def sequence : Nat := 10
/-- The price of bindings, beside their ops. -/
def bind : Nat := 30
/-- The price of a choice, beside its ops. -/
def choose : Nat := 20
/-- The price of a definition, beside its op. -/
def define : Nat := 100
/-- The price of a closure. -/
def lambda : Nat := 100
/-- The price of an invocation, beside its ops and its function. -/
def invoke : Nat := 20
/-- The price of a core function that does constant work. -/
def simple : Nat := 10

/-- The price of building a vector by a number of elements. -/
def build (elements : Nat) : Nat := min (50 + 10 * elements) maxAmount

/-- The price of hashing a number of bytes. -/
def hash (bytes : Nat) : Nat := min (100 + bytes) maxAmount

end CellMachine.Juice
