import CellMachine.Context
import CellMachine.Record

/-!
# Results

The outcome of an execution as a record: an id, a value, the code of an error and its trace. The
id is a long or absent; only an error has a code, its value is the message, and only an error has a
trace. An absent field is `nil`.

* `ExecutionResult.create` and `ExecutionResult.ofCell` accept the same records.
* `query` executes an op in a fresh context and reports the outcome.
-/

namespace CellMachine

/-- A result record with its fields checked. -/
structure ExecutionResult where
  /-- The record that states the result. -/
  record : Record
  /-- The id under which the execution was asked for. -/
  id : Option Int64
  /-- The value, or the message of an error. -/
  value : Cell
  /-- The code of an error. -/
  errorCode : Option Name
  /-- The closures that an error left. -/
  trace : Option Vec

namespace ExecutionResult

/-- The id that a cell stands for: a long, or none. -/
def idOf : Cell → Except Fault (Option Int64)
  | .long n => .ok (some n)
  | .nil => .ok none
  | c => .error (.invalid (.resultId c.describe))

/-- The error code that a cell stands for: a keyword, or none. -/
def codeOf : Cell → Except Fault (Option Name)
  | .keyword n => .ok (some n)
  | .nil => .ok none
  | c => .error (.invalid (.errorCode c.describe))

/-- The trace that a cell stands for: a vector, or none. -/
def traceOf : Cell → Except Fault (Option Vec)
  | .vector v => .ok (some v)
  | .nil => .ok none
  | c => .error (.invalid (.traceVector c.describe))

/-- A result with the given fields. -/
def create (id value : Cell) (errorCode : Option Name) (trace : Option Vec) :
    Except Fault ExecutionResult := do
  let n ← idOf id
  if trace.isSome && errorCode.isNone then .error (.invalid .traceCode)
  else
    let code := (errorCode.map Cell.keyword).getD .nil
    let lines := (trace.map Vec.cell).getD .nil
    let record ← (Record.create .result [id, value, code, lines]).mapError .data
    .ok ⟨record, n, value, errorCode, trace⟩

/-- The result that a record states. -/
def ofCell (c : Cell) : Except Fault ExecutionResult := do
  let record ← (Record.ofCell c).mapError .data
  let id ← (record.get 0).mapError .data
  let value ← (record.get 1).mapError .data
  let code ← (record.get 2).mapError .data
  let errorCode ← codeOf code
  let lines ← (record.get 3).mapError .data
  let trace ← traceOf lines
  let created ← create id value errorCode trace
  .ok { created with record := record }

/-- The lines of a trace that fit a string, as a vector; an empty trace is absent. -/
def traceVec (lines : List String) : Option Vec :=
  match lines with
  | [] => none
  | lines => some (Vec.of ((lines.filterMap Text.ofString?).map Cell.text))

/-- The result of the last execution of a context. -/
def ofContext (id : Cell) (c : Context) : Except Fault ExecutionResult :=
  match c.outcome with
  | .value v => create id v none none
  | .exceptional (.error f) => create id f.message (some f.code) (traceVec f.trace)
  | .exceptional .outOfJuice => create id .nil (some Code.juice) none
  | .exceptional (.halt v) => create id v none none
  | .exceptional (.leave v) => create id v none none

/-- The same result under another id. -/
def withId (r : ExecutionResult) (id : Cell) : Except Fault ExecutionResult :=
  create id r.value r.errorCode r.trace

/-- The record as a cell. -/
def cell (r : ExecutionResult) : Cell := r.record.cell

/-- True of results that agree in every field, and in their records; cells are compared by their hashes. -/
def same (r r' : ExecutionResult) : Bool :=
  r.cell.same r'.cell && r.id == r'.id && r.value.same r'.value && r.errorCode == r'.errorCode &&
    r.trace.map (fun v => v.cell.hash) == r'.trace.map (fun v => v.cell.hash)

/-- True of the result of an error. -/
def isError (r : ExecutionResult) : Bool := r.errorCode.isSome

/-- The lines of the trace as text: strings as they are, other values printed. -/
def traceLines (r : ExecutionResult) : List String :=
  match r.trace with
  | none => []
  | some v =>
    match v.toList with
    | .error _ => []
    | .ok items => items.map fun
      | .text s => s.val
      | c => c.print

end ExecutionResult

/-- Executes an op in a fresh context and reports the outcome under an id. -/
def query (op : Cell) (id : Option Int64) (settings : Settings) (s : Store) :
    Except Fault ExecutionResult := do
  let c ← (Context.start settings).execute s op
  ExecutionResult.ofContext ((id.map Cell.long).getD .nil) c

end CellMachine
