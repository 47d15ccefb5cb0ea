import CellMachine.Cell.Print

/-!
# Structural checks

What a value requires of the parts that it holds: the nodes of a vector have the numbers of
elements that the count implies, and the parts of ops and closures have the right kinds. A part
that is known by its hash only is not checked until it is held.

* `Cell.check` says what is wrong with the parts of a value, if anything is.
-/

namespace CellMachine

/-- Refuses a held part of the wrong kind. -/
def Ref.requireKind (r : Ref) (expected : String) (ok : Cell → Bool) : Except FormatError Unit :=
  match r.held? with
  | some c => if ok c then .ok () else .error (.malformed (.wrongKind expected c.print))
  | none => .ok ()

/-- Refuses a held part that is no vector of the given count. -/
def Ref.requireCount (r : Ref) (count : Nat) : Except FormatError Unit :=
  match r.held? with
  | some (.vector v) =>
    if v.count = count then .ok () else .error (.malformed (.childCount v.count count))
  | some c => .error (.malformed (.wrongTag "vector" c.tag))
  | none => .ok ()

/-- Refuses children, from number `i` on, that do not divide `count` elements as a tree does. -/
def requireChildren (count size : Nat) : Nat → List Ref → Except FormatError Unit
  | _, [] => .ok ()
  | i, r :: rs => do
    r.requireCount (min (count - size * i) size)
    requireChildren count size (i + 1) rs

/-- Refuses a vector whose held nodes do not have the counts that its own count implies. -/
def Vec.check : Vec → Except FormatError Unit
  | .chunk _ => .ok ()
  | .tailed count front items => front.requireCount (count - items.length)
  | .tree count children => requireChildren count (childSize count) 0 children

/-- Refuses an op whose held parts have the wrong kinds. -/
def Op.check : Op → Except FormatError Unit
  | .constant _ | .lookup _ => .ok ()
  | .define _ value => value.requireKind "op" Cell.isOp
  | .sequence ops | .choose ops | .invoke ops => ops.requireKind "vector of ops" Cell.isVector
  | .bind symbols ops => do
    symbols.requireKind "vector of symbols" Cell.isVector
    ops.requireKind "vector of ops" Cell.isVector
  | .lambda params body => do
    params.requireKind "vector of symbols" Cell.isVector
    body.requireKind "op" Cell.isOp

/-- Refuses a closure whose held parts have the wrong kinds. -/
def Closure.check (c : Closure) : Except FormatError Unit := do
  c.params.requireKind "vector of symbols" Cell.isVector
  c.body.requireKind "op" Cell.isOp
  c.env.requireKind "map" Cell.isMap

/-- Refuses a value whose held parts do not fit it. -/
def Cell.check : Cell → Except FormatError Unit
  | .vector v => v.check
  | .op o => o.check
  | .fn c => c.check
  | _ => .ok ()

/-- The value itself, if the parts that it holds fit it. -/
def Cell.rechecked (c : Cell) : Except DataError Cell :=
  match c.check with
  | .ok () => .ok c
  | .error e => .error (.format e)

end CellMachine
