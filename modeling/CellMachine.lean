import CellMachine.Proofs.Cell.Describing
import CellMachine.Proofs.Cell.Identity
import CellMachine.Proofs.Codec.Messages
import CellMachine.Proofs.Codec.Position
import CellMachine.Proofs.Codec.PrefixFree
import CellMachine.Proofs.Eval.Arithmetic
import CellMachine.Proofs.Eval.Atomic
import CellMachine.Proofs.Eval.Capture
import CellMachine.Proofs.Eval.Content
import CellMachine.Proofs.Eval.Depth
import CellMachine.Proofs.Eval.Raising
import CellMachine.Proofs.Eval.Recording
import CellMachine.Proofs.Eval.Restoring
import CellMachine.Proofs.Eval.Sequences
import CellMachine.Proofs.Eval.Unread
import CellMachine.Proofs.Eval.WellFormed
import CellMachine.Proofs.Eval.Wording
import CellMachine.Proofs.Store.Growth
import CellMachine.Proofs.Store.History
import CellMachine.Proofs.Store.References
import CellMachine.Proofs.Text.Clipping
import CellMachine.Proofs.Vec.Beginnings
import CellMachine.Proofs.Vec.Replacing
import CellMachine.Proofs.Vec.Runs
import CellMachine.Proofs.Vec.Walking
import CellMachine.Proofs.Vec.Words
import CellMachine.Settings.Reader
import CellMachine.Vec.Cursor
