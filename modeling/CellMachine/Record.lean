import CellMachine.Cell.Decode

/-!
# Records

A record is a fixed number of fields that its format names.
-/

namespace CellMachine

/-- The fields of a record of some format. -/
structure Record where
  /-- What the fields are called, and how many there are. -/
  format : RecordFormat
  /-- The fields, in the order of the keys. -/
  fields : List Ref

namespace Record

/-- The cell that is a record. -/
abbrev cell (r : Record) : Cell := .record r.format r.fields

/-- The record that a cell is. -/
def ofCell : Cell → Except DataError Record
  | .record format fields => .ok ⟨format, fields⟩
  | c => .error (.format (.malformed (.wrongTag "record" c.tag)))

/-- The record with the given fields, if they are as many as the format wants. -/
def create (format : RecordFormat) (fields : List Cell) : Except DataError Record :=
  if fields.length = format.arity then .ok ⟨format, fields.map Ref.of⟩
  else .error (.violation (.recordArity format.name format.arity fields.length))

/-- The field at a position. -/
def get (r : Record) (i : Nat) : Except DataError Cell :=
  match r.fields[i]? with
  | some f => f.cell
  | none => .error (.outOfBounds i r.fields.length)

/-- The field of a key, if the format has the key. -/
def field? (r : Record) (key : String) : Except DataError (Option Cell) :=
  match r.format.indexOf? key with
  | some i => (r.get i).map some
  | none => .ok none

end Record

end CellMachine
