import CellMachine.Eval.Bindings
import CellMachine.Eval.Signal

/-!
# The machine

What evaluation changes: the definitions of the transaction, the bindings of the current scope,
and the juice that is left. A step of evaluation takes a machine to a machine and yields a value or
an exit; the machine comes along on every exit, since juice that was spent stays spent.

* `charge` takes a price, or all that is left if the price cannot be paid.
* `enclosed` gives back the scope, and `rollback` the definitions if the step ends in an error.
-/

namespace CellMachine

/-- The state of an evaluation. -/
structure Machine where
  /-- The definitions of the transaction. -/
  env : Bindings
  /-- The bindings of the scope: those of enclosing bindings and of the closure being called. -/
  scope : Bindings
  /-- The juice that is left. -/
  juice : Nat

/-- A step of evaluation. -/
abbrev Eval (α : Type) := EStateM Exit Machine α

namespace Eval

/-- Ends evaluation with a signal. -/
def signal (s : Signal) : Eval α := throw (.signal s)

/-- Ends evaluation with a fault. -/
def fault (f : Fault) : Eval α := throw (.fault f)

/-- Ends evaluation because a requirement is not met. -/
def refuse (r : Requirement) : Eval α := fault (.invalid r)

/-- The value of an access to data, or a fault. -/
def ofData : Except DataError α → Eval α
  | .ok a => pure a
  | .error e => fault (.data e)

/-- A result that is independent of the machine. -/
def ofExcept : Except Exit α → Eval α
  | .ok a => pure a
  | .error e => throw e

/-- Pays a price. Juice that does not suffice is lost. -/
def charge (price : Nat) : Eval Unit := fun m =>
  if m.juice < price then .error (.signal .outOfJuice) { m with juice := 0 }
  else .ok () { m with juice := m.juice - price }

/-- Binds a symbol for the rest of the transaction. -/
def define (symbol : Name) (value : Cell) : Eval Unit :=
  modify fun m => { m with env := m.env.insert symbol value }

/-- Binds a symbol in the current scope. -/
def declare (symbol : Name) (value : Cell) : Eval Unit :=
  modify fun m => { m with scope := m.scope.insert symbol value }

/-- Runs a step in a scope of its own that starts as `scope`. -/
def inScope (scope : Bindings) (x : Eval α) : Eval α := fun m =>
  match x { m with scope := scope } with
  | .ok a after => .ok a { after with scope := m.scope }
  | .error e after => .error e { after with scope := m.scope }

/-- Runs a step whose bindings end with it. -/
def enclosed (x : Eval α) : Eval α := fun m => inScope m.scope x m

/-- Runs a step that leaves the definitions as they were if it ends in an error. -/
def rollback (x : Eval α) : Eval α := fun m =>
  match x m with
  | .error (.signal s) after =>
    .error (.signal s) (if s.isError then { after with env := m.env } else after)
  | r => r

/-! ## Steps in sequence -/

theorem charge_of_le {price : Nat} {m : Machine} (h : price ≤ m.juice) :
    charge price m = .ok () { m with juice := m.juice - price } := if_neg (Nat.not_lt.2 h)

theorem bind_of_ok {x : Eval α} {f : α → Eval β} {m m' : Machine} {a : α} (h : x m = .ok a m') :
    (x >>= f) m = f a m' := by
  show EStateM.bind x f m = _
  rw [EStateM.bind, h]

theorem bind_of_error {x : Eval α} {f : α → Eval β} {m m' : Machine} {e : Exit}
    (h : x m = .error e m') : (x >>= f) m = .error e m' := by
  show EStateM.bind x f m = _
  rw [EStateM.bind, h]

end Eval

end CellMachine
