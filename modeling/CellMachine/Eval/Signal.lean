import CellMachine.Cell.Print

/-!
# Signals and faults

Evaluation that does not yield a value ends in a signal or in a fault. Signals are ordinary: a
program raised an error, ran out of juice, or asked to halt or to return. Faults are not the
program's business: data is missing or malformed, or what was given to run is no program.
-/

namespace CellMachine

/-! ## Signals -/

/-- An error that a program raised. -/
structure Failure where
  /-- The class of the error. -/
  code : Name
  /-- What the error says. -/
  message : Cell
  /-- The closures that the error left, innermost first. -/
  trace : List String

/-- Ordinary ends of evaluation without a value. -/
inductive Signal where
  /-- An error. -/
  | error (f : Failure)
  /-- The juice did not last. -/
  | outOfJuice
  /-- Stops the whole execution with a value. -/
  | halt (value : Cell)
  /-- Leaves the innermost closure with a value. -/
  | leave (value : Cell)

/-! The codes of the errors that evaluation raises by itself. -/

namespace Code

/-- A function was given the wrong number of arguments. -/
def arity : Name := ⟨"ARITY", by decide, by decide⟩

/-- A value is of the wrong kind. -/
def cast : Name := ⟨"CAST", by decide, by decide⟩

/-- A position is outside a vector. -/
def bounds : Name := ⟨"BOUNDS", by decide, by decide⟩

/-- A symbol is bound to nothing. -/
def undeclared : Name := ⟨"UNDECLARED", by decide, by decide⟩

/-- The program raised an error of its own. -/
def assert : Name := ⟨"ASSERT", by decide, by decide⟩

/-- A value would exceed a limit. -/
def argument : Name := ⟨"ARGUMENT", by decide, by decide⟩

/-- Ops nest too deep. -/
def depth : Name := ⟨"DEPTH", by decide, by decide⟩

/-- The juice did not last. -/
def juice : Name := ⟨"JUICE", by decide, by decide⟩

end Code

namespace Signal

/-- An error with a text as its message, clipped to what a string can hold. -/
def ofText (code : Name) (message : String) : Signal := error ⟨code, .text (Text.clip message), []⟩

/-- An error with any value as its message. -/
def ofValue (code : Name) (message : Cell) : Signal := error ⟨code, message, []⟩

/-- True of the signals that undo changes of the environment. -/
def isError : Signal → Bool
  | error _ | outOfJuice => true
  | halt _ | leave _ => false

/-- The code that a result reports for a signal. -/
def code? : Signal → Option Name
  | error f => some f.code
  | outOfJuice => some Code.juice
  | halt _ | leave _ => none

end Signal

/-! ## Faults -/

/-- Requirements on programs and results; values are mentioned by their descriptions. -/
inductive Requirement where
  /-- What is evaluated has to be an op. -/
  | op (got : String)
  /-- Bindings need an op for each symbol. -/
  | letOps (symbols ops : Nat)
  /-- An invocation needs a function op. -/
  | functionOp
  /-- A closure binds symbols only. -/
  | closureSymbol (got : String)
  /-- Symbols are bound. -/
  | symbol (got : String)
  /-- The id of a result is a long. -/
  | resultId (got : String)
  /-- Only an error has a trace. -/
  | traceCode
  /-- The code of an error is a keyword. -/
  | errorCode (got : String)
  /-- A trace is a vector. -/
  | traceVector (got : String)
  deriving DecidableEq, Repr

/-- Failures of an execution as a whole. -/
inductive Fault where
  /-- Data is missing or malformed. -/
  | data (e : DataError)
  /-- A requirement is not met. -/
  | invalid (r : Requirement)
  /-- Settings could not be read. -/
  | settings
  deriving DecidableEq

/-- The wording of a requirement that is not met. -/
def Requirement.message : Requirement → String
  | .op got => "not an op: " ++ got
  | .letOps symbols ops => s!"let binds {symbols} symbols with {ops} ops"
  | .functionOp => "invoke without a function op"
  | .closureSymbol got => "closure binds non-symbol " ++ got
  | .symbol got => "expected symbol, got " ++ got
  | .resultId got => "result id must be a long, got " ++ got
  | .traceCode => "result trace requires an error code"
  | .errorCode got => "error code must be a keyword, got " ++ got
  | .traceVector got => "trace must be a vector, got " ++ got

/-- The wording of a fault. -/
def Fault.message : Fault → String
  | .data e => "data: " ++ e.message
  | .invalid r => "validation: " ++ r.message
  | .settings => "config"

/-! ## Exits -/

/-- Any end of evaluation without a value. -/
inductive Exit where
  /-- An ordinary one, which ops on the way out may act upon. -/
  | signal (s : Signal)
  /-- One that nothing stops. -/
  | fault (f : Fault)

end CellMachine
