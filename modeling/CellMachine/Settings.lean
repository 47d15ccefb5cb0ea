/-!
# Settings of an execution

The limits that an execution runs under. Costs, tags and shapes are fixed and are no settings.
-/

namespace CellMachine

/-- The limits of an execution. -/
structure Settings where
  /-- The juice that a fresh context starts with. -/
  juiceLimit : Nat := 1000000
  /-- How deep the evaluation of ops may nest. -/
  maxDepth : Nat := 256
  /-- Whether an error that leaves a closure notes its name. -/
  recordTrace : Bool := true
  deriving DecidableEq, Repr

instance : Inhabited Settings := ⟨{}⟩

/-- The settings with another supply of juice. -/
def Settings.withJuice (s : Settings) (juice : Nat) : Settings := { s with juiceLimit := juice }

end CellMachine
