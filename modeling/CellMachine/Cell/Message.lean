import CellMachine.Cell.Decode

/-!
# Messages

On a stream an encoding follows its length. The length is an integer like any other; it is
positive and at most the greatest length of an encoding.

* `Cell.toMessage` frames a cell, and `readMessage` takes a framed cell off the front of a stream.
-/

namespace CellMachine

/-- The encoding of a cell behind its length. -/
def Cell.toMessage (c : Cell) : Bytes :=
  let bs := c.encode
  Vlc.encodeNat bs.length ++ bs

/-- The length in front of a message, and the bytes after it. -/
def readLength (bs : Bytes) : Except FormatError (Nat × Bytes) := do
  let (n, rest) ← Vlc.read bs
  if n.toInt ≤ 0 then .error (.badMessageLength n.toInt)
  else if maxEncoding < n.toInt.toNat then .error (.tooLong n.toInt.toNat maxEncoding)
  else .ok (n.toInt.toNat, rest)

/-- The cell in the message at the front of a stream, and the bytes after the message. -/
def readMessage (bs : Bytes) : Except DataError (Cell × Bytes) := do
  let (n, rest) ← (readLength bs).mapError .format
  if rest.length < n then .error (.format .truncated)
  else
    let c ← decode (rest.take n)
    .ok (c, rest.drop n)

end CellMachine
