import CellMachine.Cell.Parts

/-!
# Rebuilding a cell around its references

A cell can be rebuilt with every reference in it replaced by another one, so that its parts are
persisted, forgotten or loaded. Everything in the cell that is not a reference stays. The references
are replaced in a fixed order, and the first one that cannot be replaced ends the attempt.

* `Cell.mapRefs` is the cell around the new references.
-/

namespace CellMachine

section Rebuild
variable (f : Ref → Except DataError Ref)

/-- The node around the new references; a front is replaced before the items that follow it. -/
def Vec.mapRefs : Vec → Except DataError Vec
  | .chunk items => do .ok (.chunk (← items.mapM f))
  | .tailed count front items => do
    let front ← f front
    .ok (.tailed count front (← items.mapM f))
  | .tree count children => do .ok (.tree count (← children.mapM f))

/-- The op around the new references. -/
def Op.mapRefs : Op → Except DataError Op
  | .constant r => do .ok (.constant (← f r))
  | .define symbol r => do .ok (.define symbol (← f r))
  | .sequence r => do .ok (.sequence (← f r))
  | .choose r => do .ok (.choose (← f r))
  | .invoke r => do .ok (.invoke (← f r))
  | .bind symbols ops => do
    let symbols ← f symbols
    .ok (.bind symbols (← f ops))
  | .lambda params body => do
    let params ← f params
    .ok (.lambda params (← f body))
  | .lookup symbol => .ok (.lookup symbol)

/-- The closure around the new references, with the name that it had. -/
def Closure.mapRefs (c : Closure) : Except DataError Closure := do
  let params ← f c.params
  let body ← f c.body
  .ok ⟨params, body, ← f c.env, c.name⟩

/-- The entry around the new key and value. -/
def entryMapRefs (e : Ref × Ref) : Except DataError (Ref × Ref) := do
  let key ← f e.1
  .ok (key, ← f e.2)

/-- The cell with every reference in it replaced by what `f` makes of it. -/
def Cell.mapRefs : Cell → Except DataError Cell
  | .vector v => do .ok (.vector (← v.mapRefs f))
  | .map entries => do .ok (.map (← entries.mapM (entryMapRefs f)))
  | .record format fields => do .ok (.record format (← fields.mapM f))
  | .op o => do .ok (.op (← o.mapRefs f))
  | .fn c => do .ok (.fn (← c.mapRefs f))
  | c => .ok c

end Rebuild

end CellMachine
