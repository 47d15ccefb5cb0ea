import CellMachine.Eval.Core

/-!
# Complaints

The errors that evaluation raises by itself, as data: what is complained of, and the code and the words in which
it is said. Every other error is one that a program raises with `fail`, in its own words.
-/

namespace CellMachine

/-- The words for the number of arguments that a core function expects. -/
def CoreFn.arities : List String := ["1", "2", "0 or 1", "at least 1", "0 to 2"]

/-- What evaluation complains of. -/
inductive Complaint where
  /-- The wrong number of arguments of a core function. -/
  | arity (f : CoreFn) (expected : String) (known : expected ∈ CoreFn.arities) (got : Nat)
  /-- An argument of the wrong kind. -/
  | cast (f : CoreFn) (arg : Cell)
  /-- A position outside a vector. -/
  | bounds (index : Int64) (count : Nat)
  /-- Bytes that are too many for a blob. -/
  | blobLimit (f : CoreFn) (got : Nat)
  /-- A symbol that is bound to nothing. -/
  | undeclared (symbol : Name)
  /-- A scope whose bindings are too large for a map. -/
  | scopeLimit (got : Nat)
  /-- The wrong number of arguments of a closure. -/
  | parameters (expected got : Nat)
  /-- A call of what is no function. -/
  | notFunction (value : Cell)
  /-- Ops that nest too deep. -/
  | depth (limit : Nat)

namespace Complaint

/-- The class of the error. -/
def code : Complaint → Name
  | arity .. | parameters .. => Code.arity
  | cast .. | notFunction .. => Code.cast
  | bounds .. => Code.bounds
  | blobLimit .. | scopeLimit .. => Code.argument
  | undeclared .. => Code.undeclared
  | depth .. => Code.depth

/-- The words of the complaint, in full. -/
def text : Complaint → String
  | arity f expected _ got => f.name ++ " expects " ++ expected ++ s!" arguments, got {got}"
  | cast f arg => f.name ++ " cannot use " ++ arg.describe
  | bounds index count => s!"index {index.toInt} out of bounds for count {count}"
  | blobLimit f got => f.name ++ ": " ++ (Violation.blobSize got maxPayloadSize).message
  | undeclared symbol => symbol.val
  | scopeLimit got => (Violation.mapSize got maxEncoding).message
  | parameters expected got => s!"expected {expected} arguments, got {got}"
  | notFunction value => value.describe ++ " is not a function"
  | depth limit => s!"depth limit {limit} reached"

/-- The error that is raised: its message is as much of the words as a string holds. -/
def failure (p : Complaint) : Failure := ⟨p.code, .text (Text.clip p.text), []⟩

/-- The end of a step that complains. -/
abbrev exit (p : Complaint) : Exit := .signal (.error p.failure)

end Complaint

end CellMachine
