import CellMachine.Eval.Step
import CellMachine.Store.Load

/-!
# Contexts

A context is what one execution leaves to the next: the definitions, the juice that is left and
the outcome. Executing an op loads it from a store first. Halting, and returning outside of any
closure, end an execution with a value; an error or a lack of juice is an outcome of its own. Only
a fault leaves no context behind.

* `Context.start` is the context before the first execution, `Context.execute` runs one.
-/

namespace CellMachine

/-- What an execution produced. -/
inductive Outcome where
  /-- A value: that of the op, or the one it halted or returned with. -/
  | value (v : Cell)
  /-- An error, or a lack of juice. -/
  | exceptional (s : Signal)

/-- The state between executions. -/
structure Context where
  /-- The limits of its executions. -/
  settings : Settings
  /-- The definitions so far. -/
  env : Bindings
  /-- The juice that is left. -/
  juice : Nat
  /-- The outcome of the last execution. -/
  outcome : Outcome

namespace Context

/-- The context before the first execution. -/
def start (settings : Settings) : Context :=
  ⟨settings, .empty, settings.juiceLimit, .value .nil⟩

/-- The juice spent so far. -/
def juiceUsed (c : Context) : Nat := c.settings.juiceLimit - c.juice

/-- The value of the last execution, unless it ended in a signal. -/
def value? (c : Context) : Option Cell :=
  match c.outcome with
  | .value v => some v
  | .exceptional _ => none

/-- True if the last execution ended in a signal. -/
def isExceptional (c : Context) : Bool := c.value?.isNone

/-- The machine on which an execution starts. -/
def machine (c : Context) : Machine := ⟨c.env, .empty, c.juice⟩

/-- The context after an execution that left the machine `m`. -/
def finish (c : Context) (m : Machine) (outcome : Outcome) : Context :=
  { c with env := m.env, juice := m.juice, outcome := outcome }

/-- Evaluates a loaded op. -/
def run (c : Context) (op : Cell) : Except Fault Context :=
  match op.eval c.settings c.settings.maxDepth c.machine with
  | .ok v m => .ok (c.finish m (.value v))
  | .error (.signal (.halt v)) m => .ok (c.finish m (.value v))
  | .error (.signal (.leave v)) m => .ok (c.finish m (.value v))
  | .error (.signal s) m => .ok (c.finish m (.exceptional s))
  | .error (.fault f) _ => .error f

/-- Loads an op and evaluates it. -/
def execute (c : Context) (s : Store) (op : Cell) : Except Fault Context :=
  match op.load s with
  | .ok op => c.run op
  | .error e => .error (.data e)

end Context

end CellMachine
