import CellMachine.Cell.Check

/-!
# Decoding

The inverse of the canonical encoding. A reader takes a value off the front of a byte string and
leaves the rest; `decode` reads one cell and wants nothing to be left. Only the bytes that
`Cell.encode` produces are accepted: integers in their shortest spelling, small parts inside their
parent and large ones behind their hash, vectors in the shape of their count, map keys in
increasing order.

Parts nest, and a part lies strictly inside the bytes of its parent, so that `readCell` with as
many levels as there are bytes is never cut short: at level zero no byte is left.
-/

namespace CellMachine

/-- Takes something off the front of a byte string. -/
abbrev Reader (α : Type) := StateT Bytes (Except DataError) α

namespace Reader

/-- Gives up with an error of format. -/
def fail (e : FormatError) : Reader α := fun _ => .error (.format e)

/-- What could be built from what has been read. -/
def ofData (r : Except DataError α) : Reader α := fun bs => r.map fun a => (a, bs)

/-- One byte. -/
def byte : Reader UInt8
  | [] => .error (.format .truncated)
  | b :: bs => .ok (b, bs)

/-- The next byte, which stays. -/
def peek : Reader (Option UInt8) := fun bs => .ok (bs.head?, bs)

/-- A number of bytes. -/
def take (n : Nat) : Reader Bytes := fun bs =>
  if n ≤ bs.length then .ok (bs.take n, bs.drop n) else .error (.format .truncated)

/-- An integer. -/
def long : Reader Int64 := fun bs => (Vlc.read bs).mapError .format

/-- A count of at most `max`. -/
def count (max : Nat) : Reader Nat := fun bs => (Vlc.readCount max bs).mapError .format

/-- UTF-8 text of a number of bytes. -/
def text (n : Nat) : Reader String := do
  match (← take n).toText? with
  | some s => pure s
  | none => fail .invalidUtf8

/-- The size and the characters of a name. -/
def name : Reader String := do
  let n := (← byte).toNat
  if n = 0 ∨ maxNameSize < n then fail (.malformed (.nameLength n)) else text n

/-- A symbol with its tag. -/
def symbol : Reader Name := do
  let tag ← byte
  if tag = symbolTag then ofData (Name.ofSymbol (← name)) else fail (.malformed (.symbolTag tag))

/-- The name of a closure, or its absence. -/
def closureName : Reader (Option Name) := do
  let tag ← byte
  if tag = absentTag then pure none
  else if tag = symbolTag then do pure (some (← ofData (Name.ofSymbol (← name))))
  else fail (.malformed (.closureNameTag tag))

/-- The content hash behind a reference tag. -/
def hash : Reader Hash := fun bs =>
  if h : hashSize ≤ bs.length then .ok (⟨bs.take hashSize, by simp [h]⟩, bs.drop hashSize)
  else .error (.format .truncated)

/-- A string: its size and its characters. -/
def stringCell : Reader Cell := do
  let n ← count maxPayloadSize
  pure (.text (← ofData (Text.ofString (← text n))))

/-- A blob: its size and its bytes. -/
def blobCell : Reader Cell := do
  let n ← count maxPayloadSize
  pure (.blob (← ofData (Blob.ofBytes (← take n))))

/-- A core function by its number. -/
def coreCell : Reader Cell := do
  let id ← byte
  match CoreFn.ofId? id with
  | some f => pure (.core f)
  | none => fail (.unknownCoreFn id)

/-! ## Parts

The readers of compound values take the reader of cells one level down as an argument. -/

section Parts
variable (readCell : Reader Cell)

/-- A part: a hash behind the reference tag, or a cell that is small enough to stand here. -/
def child : Reader Ref := do
  if (← peek) = some refTag then do
    let _ ← byte
    pure (.remote (← hash))
  else do
    let c ← readCell
    if c.isEmbeddable then pure (.of c) else fail (.nonCanonical .oversizedChild)

/-- A number of parts. -/
def children : Nat → Reader (List Ref)
  | 0 => pure []
  | n + 1 => do
    let r ← child readCell
    let rs ← children n
    pure (r :: rs)

/-- The greatest count that a vector can have, which is the greatest 64-bit integer. -/
def maxCount : Nat := 0x7fffffffffffffff

/-- A vector: its count, and parts as many and of such a size as the count demands. -/
def vec : Reader Vec := do
  let n ← count maxCount
  if isTreeCount n then pure (.tree n (← children readCell (childCount n)))
  else
    let items ← children readCell (tailLength n)
    if tailLength n < n then pure (.tailed n (← child readCell) items) else pure (.chunk items)

/-- A number of entries with increasing keys, above the key `last` if there is one. -/
def entries : Nat → Option Hash → Reader (List (Ref × Ref))
  | 0, _ => pure []
  | n + 1, last => do
    let k ← child readCell
    if last.any fun h => !decide (h < k.hash) then fail (.nonCanonical .keysOutOfOrder)
    else
      let v ← child readCell
      let es ← entries n (some k.hash)
      pure ((k, v) :: es)

/-- A map: the number of its entries, and the entries. -/
def map : Reader Cell := do
  let n ← count maxEncoding
  pure (.map (← entries readCell n none))

/-- A record: the number of its fields, which its format determines, and the fields. -/
def record (format : RecordFormat) : Reader Cell := do
  let n ← count maxEncoding
  if n = format.arity then pure (.record format (← children readCell n))
  else fail (.malformed (.recordArity format.name format.arity n))

/-- An op: its type and its parts. -/
def op : Reader Op := do
  let type ← byte
  match type with
  | 0 => pure (.invoke (← child readCell))
  | 1 => pure (.choose (← child readCell))
  | 2 => pure (.constant (← child readCell))
  | 3 => do
    let symbol ← symbol
    pure (.define symbol (← child readCell))
  | 4 => pure (.sequence (← child readCell))
  | 5 => do
    let params ← child readCell
    pure (.lambda params (← child readCell))
  | 6 => do
    let symbols ← child readCell
    pure (.bind symbols (← child readCell))
  | 7 => pure (.lookup (← symbol))
  | type => fail (.unknownOpType type)

/-- A closure: its parts and its name. -/
def closure : Reader Closure := do
  let params ← child readCell
  let body ← child readCell
  let env ← child readCell
  pure ⟨params, body, env, ← closureName⟩

/-- The value behind a tag. -/
def body (tag : UInt8) : Reader Cell :=
  match tag with
  | 0x00 => pure .nil
  | 0xb1 => pure (.bool true)
  | 0xb0 => pure (.bool false)
  | 0x09 => do pure (.long (← long))
  | 0x30 => stringCell
  | 0x31 => blobCell
  | 0x32 => do pure (.symbol (← ofData (Name.ofSymbol (← name))))
  | 0x33 => do pure (.keyword (← ofData (Name.ofKeyword (← name))))
  | 0x80 => do pure (.vector (← vec readCell))
  | 0x82 => map readCell
  | 0xc0 => do pure (.op (← op readCell))
  | 0xcd => coreCell
  | 0xcf => do pure (.fn (← closure readCell))
  | 0x20 => fail (.malformed .bareReference)
  | tag =>
    match RecordFormat.ofTag? tag with
    | some format => record readCell format
    | none => fail (.unknownTag tag)

/-- One cell whose parts are checked as far as they are held. -/
def cellWith : Reader Cell := do
  let tag ← byte
  let c ← body readCell tag
  match c.check with
  | .ok () => pure c
  | .error e => fail e

end Parts

/-- One cell with at most `levels` cells nested in it. -/
def cell : Nat → Reader Cell
  | 0 => fail .truncated
  | levels + 1 => cellWith (cell levels)

end Reader

/-- The cell that a byte string encodes. -/
def decode (bs : Bytes) : Except DataError Cell :=
  if maxEncoding < bs.length then .error (.format (.tooLong bs.length maxEncoding))
  else if bs.head? = some refTag then .error (.format (.malformed .bareReference))
  else
    match Reader.cell bs.length bs with
    | .error e => .error e
    | .ok (c, []) => .ok c
    | .ok (_, rest) => .error (.format (.trailingBytes rest.length))

end CellMachine
