import CellMachine.Proofs.Eval.Metering

/-!
# What evaluation leaves behind

A step of evaluation is *tidy* if it leaves the scope as it found it and no more juice than it found,
whether it yields a value or not. Declaring a symbol is not tidy, so that the loop over the bindings of
an op is not; the op is, since it gives back the scope around the loop (`Thrifty.enclosed`), and so is a
call (`Thrifty.inScope`).

Evaluation is tidy at every level (`tidy_eval`), and moreover an evaluation that ends in an error, or for
want of juice, leaves the definitions as it found them (`env_of_eval`).
-/

namespace CellMachine

/-- What a tidy step may leave of a machine. -/
structure Machine.Tidied (m after : Machine) : Prop where
  scope : after.scope = m.scope
  juice : after.juice ≤ m.juice

namespace Machine.Tidied

theorem refl (m : Machine) : m.Tidied m := ⟨rfl, Nat.le_refl _⟩

theorem trans {m m' m'' : Machine} (h : m.Tidied m') (h' : m'.Tidied m'') : m.Tidied m'' :=
  ⟨h'.scope.trans h.scope, Nat.le_trans h'.juice h.juice⟩

end Machine.Tidied

namespace Eval

variable {α β : Type}

/-- The machine that a step leaves. -/
def machineLeft : End α → Machine
  | .ok _ m => m
  | .error _ m => m

/-- A step that leaves no more juice than it finds. -/
def Thrifty (x : Eval α) : Prop := ∀ m, (machineLeft (x m)).juice ≤ m.juice

/-- A thrifty step that leaves the scope as it finds it. -/
def Tidy (x : Eval α) : Prop := ∀ m : Machine, m.Tidied (machineLeft (x m))

/-- A step that puts the scope back has nothing to lose by forgetting that it does. -/
theorem Tidy.thrifty {x : Eval α} (h : Tidy x) : Thrifty x := fun m => (h m).juice

/-! ## Single steps -/

theorem tidy_pure (a : α) : Tidy (pure a : Eval α) := .refl

theorem tidy_throw (e : Exit) : Tidy (throw e : Eval α) := .refl

/-- Charging takes juice or all that is left, and touches nothing else. -/
theorem tidy_charge (price : Nat) : Tidy (charge price) := by
  intro m
  by_cases hlt : m.juice < price
  · simp only [charge, if_pos hlt]
    exact ⟨rfl, Nat.zero_le _⟩
  · simp only [charge, if_neg hlt]
    exact ⟨rfl, Nat.sub_le _ _⟩

/-- Definitions are not part of what has to be put back. -/
theorem tidy_define (symbol : Name) (value : Cell) : Tidy (define symbol value) :=
  fun _ => ⟨rfl, Nat.le_refl _⟩

theorem thrifty_declare (symbol : Name) (value : Cell) : Thrifty (declare symbol value) :=
  fun _ => Nat.le_refl _

/-- A step that looks at the machine first. -/
theorem tidy_get_bind {f : Machine → Eval α} (h : ∀ m, Tidy (f m)) : Tidy (get >>= f) :=
  fun m => h m m

/-! ## One step after another -/

/-- A step after a tidy step starts in the scope of the first, with no more juice. -/
theorem Tidy.bind {x : Eval α} {f : α → Eval β} (hx : Tidy x) (hf : ∀ a, Tidy (f a)) :
    Tidy (x >>= f) := by
  intro m
  have hfirst := hx m
  cases h : x m with
  | ok a m' =>
    rw [h] at hfirst
    rw [bind_of_ok h]
    exact hfirst.trans (hf a m')
  | error e m' =>
    rw [h] at hfirst
    rw [bind_of_error h]
    exact hfirst

theorem Thrifty.bind {x : Eval α} {f : α → Eval β} (hx : Thrifty x) (hf : ∀ a, Thrifty (f a)) :
    Thrifty (x >>= f) := by
  intro m
  have hfirst := hx m
  cases h : x m with
  | ok a m' =>
    rw [h] at hfirst
    rw [bind_of_ok h]
    exact Nat.le_trans (hf a m') hfirst
  | error e m' =>
    rw [h] at hfirst
    rw [bind_of_error h]
    exact hfirst

/-! ## Steps around a step -/

/-- A scope of its own makes a step tidy. -/
theorem Thrifty.inScope {x : Eval α} (hx : Thrifty x) (scope : Bindings) :
    Tidy (inScope scope x) := by
  intro m
  have hjuice := hx { m with scope := scope }
  simp only [Eval.inScope]
  cases h : x { m with scope := scope } with
  | ok a after =>
    rw [h] at hjuice
    exact ⟨rfl, hjuice⟩
  | error e after =>
    rw [h] at hjuice
    exact ⟨rfl, hjuice⟩

/-- Whatever a step declares, the scope is put back around it. -/
theorem Thrifty.enclosed {x : Eval α} (hx : Thrifty x) : Tidy (enclosed x) :=
  fun m => hx.inScope m.scope m

theorem Tidy.rollback {x : Eval α} (hx : Tidy x) : Tidy (rollback x) := by
  intro m
  have htidied := hx m
  simp only [Eval.rollback]
  cases h : x m with
  | ok a after =>
    rw [h] at htidied
    exact htidied
  | error e after =>
    rw [h] at htidied
    cases e with
    | fault f => exact htidied
    | signal s => cases s <;> exact ⟨htidied.scope, htidied.juice⟩

/-- Catching a value changes how a step ends, not what it leaves behind. -/
theorem Tidy.catchReturn {x : Eval Cell} (hx : Tidy x) (settings : Settings) (name : Option Name) :
    Tidy (catchReturn settings name x) := by
  intro m
  have htidied := hx m
  simp only [Eval.catchReturn]
  cases h : x m with
  | ok a after =>
    rw [h] at htidied
    exact htidied
  | error e after =>
    rw [h] at htidied
    cases e with
    | fault f => exact htidied
    | signal s => cases s <;> exact htidied

/-! ## Evaluation -/

/-- Being tidy is handed on, and declarations in between are at least thrifty. -/
theorem closed_tidy : Closed Tidy Thrifty where
  pure := tidy_pure
  throw := tidy_throw
  charge := tidy_charge
  define := tidy_define
  inspect h _ := tidy_get_bind h
  bind := Tidy.bind
  rollback := Tidy.rollback
  catchReturn := Tidy.catchReturn
  weaken := Tidy.thrifty
  declare := thrifty_declare
  andThen := Thrifty.bind
  enclosed := Thrifty.enclosed
  inScope := Thrifty.inScope

/-- Evaluation leaves the scope as it found it, and no more juice than there was. -/
theorem tidy_eval (settings : Settings) (levels : Nat) (c : Cell) :
    Tidy (c.eval settings levels) :=
  closed_tidy.eval settings levels c

/-- Definitions are rolled back on an error, whatever has been defined on the way to it. -/
theorem env_of_rollback {x : Eval α} {m after : Machine} {s : Signal}
    (h : rollback x m = .error (.signal s) after) (hs : s.isError = true) : after.env = m.env := by
  simp only [rollback] at h
  cases hx : x m with
  | ok a m' =>
    rw [hx] at h
    cases h
  | error e m' =>
    rw [hx] at h
    cases e with
    | fault f => cases h
    | signal s' =>
      simp only [EStateM.Result.error.injEq, Exit.signal.injEq] at h
      obtain ⟨rfl, rfl⟩ := h
      rw [if_pos hs]

/-- An error of an op leaves the definitions that there were before the op. -/
theorem env_of_eval {settings : Settings} {levels : Nat} {c : Cell} {m after : Machine} {s : Signal}
    (h : c.eval settings levels m = .error (.signal s) after) (hs : s.isError = true) :
    after.env = m.env := by
  cases levels with
  -- without a level left only an op raises an error, and it has not run
  | zero =>
    cases c <;> cases h
    rfl
  | succ levels =>
    cases c with
    | op o => exact env_of_rollback h hs
    | _ => cases h

end Eval

end CellMachine
