/-!
# Record formats

A record has a fixed list of keys that its tag determines. There is one format, that of the result
of an execution.
-/

namespace CellMachine

/-- The known record formats. -/
inductive RecordFormat where
  /-- What an execution reports: an id, a value, the code of an error and its trace. -/
  | result
  deriving DecidableEq, Repr

namespace RecordFormat

/-- The tag that starts the encoding of a record of this format. -/
def tag : RecordFormat → UInt8
  | .result => 0xad

/-- The name under which the record is printed. -/
def name : RecordFormat → String
  | .result => "Result"

/-- The keys of the fields, in order. -/
def keys : RecordFormat → List String
  | .result => ["id", "result", "error-code", "trace"]

/-- The number of fields. -/
def arity (f : RecordFormat) : Nat := f.keys.length

/-- The format that a tag stands for. -/
def ofTag? (tag : UInt8) : Option RecordFormat := [RecordFormat.result].find? fun f => f.tag == tag

@[simp] theorem ofTag?_tag (f : RecordFormat) : ofTag? f.tag = some f := by cases f; rfl

/-- The position of a key. -/
def indexOf? (f : RecordFormat) (key : String) : Option Nat := f.keys.findIdx? (· == key)

end RecordFormat

end CellMachine
