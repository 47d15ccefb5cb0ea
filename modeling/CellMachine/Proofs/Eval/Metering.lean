import CellMachine.Context
import CellMachine.Proofs.Eval.Closed

/-!
# What evaluation costs does not depend on the supply

A step of evaluation is *metered* if it looks at the juice only in order to pay. Run on a machine
from which it comes back without having run dry, it has used some amount of juice; run on the same
machine with any other supply, it does the same and uses the same amount if the supply allows, and
runs dry with nothing left if it does not.

* `Metered` is the two-run statement, and `Starved` the second of its two cases.
* Each way in which steps are put together keeps it (`Metered.bind`, `Metered.inScope`,
  `Metered.rollback`, `Metered.catchReturn`), so that evaluation has it at every level
  (`metered_eval`).
* `execute_juice_threshold` reads it off for whole executions: the juice that an execution uses is
  an exact threshold.
-/

namespace CellMachine

/-- The machine with another supply of juice. -/
def Machine.withJuice (m : Machine) (juice : Nat) : Machine := { m with juice := juice }

namespace Eval

variable {α β : Type}

/-- What a step of evaluation ends in: a value or an exit, and the machine it leaves. -/
abbrev End (α : Type) := EStateM.Result Exit Machine α

/-- The juice that a step leaves. -/
def juiceLeft : End α → Nat
  | .ok _ m => m.juice
  | .error _ m => m.juice

/-- The same end with another amount of juice left. -/
def leaving (j : Nat) : End α → End α
  | .ok a m => .ok a (m.withJuice j)
  | .error e m => .error e (m.withJuice j)

/-- The step ended because the juice did not last. -/
def Dry (r : End α) : Prop := ∃ m, r = .error (.signal .outOfJuice) m

/-- The step ended because the juice did not last, and nothing is left. -/
def Starved (r : End α) : Prop := ∃ m : Machine, m.juice = 0 ∧ r = .error (.signal .outOfJuice) m

theorem not_dry_ok (a : α) (m : Machine) : ¬ Dry (.ok a m) := by
  rintro ⟨m', h⟩
  cases h

theorem starved_iff {r : End α} : Starved r ↔ Dry r ∧ juiceLeft r = 0 := by
  constructor
  · rintro ⟨m, hm, rfl⟩
    exact ⟨⟨m, rfl⟩, hm⟩
  · rintro ⟨⟨m, rfl⟩, hm⟩
    exact ⟨m, hm, rfl⟩

/-- A step that uses an amount of juice of its own, whatever the supply is: with more it does the
same, with less it runs dry. -/
def Metered (x : Eval α) : Prop :=
  ∀ m, ¬ Dry (x m) → ∃ used, m.juice = juiceLeft (x m) + used ∧
    ∀ j, (used ≤ j → x (m.withJuice j) = leaving (j - used) (x m)) ∧
      (j < used → Starved (x (m.withJuice j)))

/-! ## Steps that are paid for elsewhere -/

/-- A step that neither reads nor pays juice is metered. -/
theorem Metered.of_free {x : Eval α}
    (h : ∀ m, juiceLeft (x m) = m.juice ∧ ∀ j, x (m.withJuice j) = leaving j (x m)) :
    Metered x := by
  intro m _
  obtain ⟨hj, hx⟩ := h m
  refine ⟨0, by omega, fun j => ⟨fun _ => ?_, fun hlt => absurd hlt (Nat.not_lt_zero j)⟩⟩
  exact hx j

theorem metered_pure (a : α) : Metered (pure a : Eval α) :=
  .of_free fun _ => ⟨rfl, fun _ => rfl⟩

theorem metered_throw (e : Exit) : Metered (throw e : Eval α) :=
  .of_free fun _ => ⟨rfl, fun _ => rfl⟩

theorem metered_define (symbol : Name) (value : Cell) : Metered (define symbol value) :=
  .of_free fun _ => ⟨rfl, fun _ => rfl⟩

theorem metered_declare (symbol : Name) (value : Cell) : Metered (declare symbol value) :=
  .of_free fun _ => ⟨rfl, fun _ => rfl⟩

/-- A step that looks at the machine is metered if it does not look at the juice. -/
theorem metered_get_bind {f : Machine → Eval α} (h : ∀ m, Metered (f m))
    (hf : ∀ m j, f (m.withJuice j) = f m) : Metered (get >>= f) := by
  intro m hm
  obtain ⟨used, hused, hj⟩ := h m m hm
  refine ⟨used, hused, fun j => ?_⟩
  show (used ≤ j → f (m.withJuice j) (m.withJuice j) = leaving (j - used) (f m m)) ∧
    (j < used → Starved (f (m.withJuice j) (m.withJuice j)))
  rw [hf m j]
  exact hj j

/-! ## Paying -/

theorem metered_charge (price : Nat) : Metered (charge price) := by
  intro m hm
  by_cases hlt : m.juice < price
  · -- the price cannot be paid, so this run is dry itself
    exact absurd ⟨{ m with juice := 0 }, by simp only [charge, if_pos hlt]⟩ hm
  · have hpaid : charge price m = .ok () { m with juice := m.juice - price } := by
      simp only [charge, if_neg hlt]
    refine ⟨price, ?_, fun j => ⟨fun hle => ?_, fun hj => ?_⟩⟩
    · rw [hpaid]
      show m.juice = m.juice - price + price
      omega
    · rw [hpaid]
      show (if j < price then _ else _) = _
      rw [if_neg (by omega)]
      rfl
    · refine ⟨{ m with juice := 0 }, rfl, ?_⟩
      show (if j < price then _ else _) = _
      rw [if_pos hj]
      rfl

/-! ## One step after another -/

theorem Metered.bind {x : Eval α} {f : α → Eval β} (hx : Metered x) (hf : ∀ a, Metered (f a)) :
    Metered (x >>= f) := by
  intro m hm
  cases hxm : x m with
  -- the first step stops the run, and its threshold is that of both
  | error e m' =>
    rw [bind_of_error hxm] at hm ⊢
    obtain ⟨used, hused, hj⟩ := hx m (by rw [hxm]; rintro ⟨m'', h⟩; cases h; exact hm ⟨_, rfl⟩)
    rw [hxm] at hused hj
    refine ⟨used, hused, fun j => ⟨fun hle => bind_of_error ((hj j).1 hle), fun hlt => ?_⟩⟩
    obtain ⟨dry, hdry, h⟩ := (hj j).2 hlt
    exact ⟨dry, hdry, bind_of_error h⟩
  | ok a m' =>
    rw [bind_of_ok hxm] at hm ⊢
    obtain ⟨used, hused, hj⟩ := hx m (by rw [hxm]; exact not_dry_ok a m')
    obtain ⟨used', hused', hj'⟩ := hf a m' hm
    rw [hxm] at hused hj
    have hsum : m.juice = m'.juice + used := hused
    refine ⟨used + used', by omega, fun j => ⟨fun hle => ?_, fun hlt => ?_⟩⟩
    · -- the supply lasts for both steps
      rw [bind_of_ok ((hj j).1 (by omega)), (hj' (j - used)).1 (by omega)]
      congr 1
      omega
    · by_cases hfirst : j < used
      · -- it does not last for the first step
        obtain ⟨dry, hdry, h⟩ := (hj j).2 hfirst
        exact ⟨dry, hdry, bind_of_error h⟩
      · -- it lasts for the first step only
        obtain ⟨dry, hdry, h⟩ := (hj' (j - used)).2 (by omega)
        exact ⟨dry, hdry, by rw [bind_of_ok ((hj j).1 (by omega))]; exact h⟩

/-! ## Steps around a step -/

/-- A step that runs a metered one and does not interfere with its juice. The inner step may start
on an altered machine, and its end may be altered, as long as both are done regardless of juice and
an end for want of juice stays one. -/
theorem Metered.around {x : Eval α} {y : Eval β} {g : Machine → Machine} (hx : Metered x)
    (hg : ∀ m j, g (m.withJuice j) = (g m).withJuice j) (hjuice : ∀ m, (g m).juice = m.juice)
    (hleft : ∀ m, juiceLeft (y m) = juiceLeft (x (g m)))
    (hdry : ∀ m, Dry (x (g m)) → Dry (y m))
    (hleaving : ∀ m j k, x (g (m.withJuice j)) = leaving k (x (g m)) →
      y (m.withJuice j) = leaving k (y m)) : Metered y := by
  intro m hm
  obtain ⟨used, hused, hj⟩ := hx (g m) fun h => hm (hdry m h)
  refine ⟨used, ?_, fun j => ⟨fun hle => ?_, fun hlt => ?_⟩⟩
  · rw [hleft, ← hjuice]
    exact hused
  -- with enough juice the inner run ends in the same way
  · refine hleaving m j (j - used) ?_
    rw [hg]
    exact (hj j).1 hle
  -- with too little the inner run is starved, and so is the outer one
  · have hstarved := (hj j).2 hlt
    rw [← hg] at hstarved
    obtain ⟨hdry', hzero⟩ := starved_iff.1 hstarved
    exact starved_iff.2 ⟨hdry _ hdry', (hleft _).trans hzero⟩

theorem Metered.inScope {x : Eval α} (hx : Metered x) (scope : Bindings) :
    Metered (inScope scope x) := by
  refine hx.around (g := fun m => { m with scope := scope }) (fun _ _ => rfl) (fun _ => rfl)
    (fun m => ?_) (fun m h => ?_) fun m j k h => ?_
  · simp only [Eval.inScope]
    cases x { m with scope := scope } <;> rfl
  · obtain ⟨after, h⟩ := h
    exact ⟨{ after with scope := m.scope }, by simp only [Eval.inScope, h]⟩
  · simp only [Eval.inScope, h]
    cases x { m with scope := scope } <;> rfl

theorem Metered.enclosed {x : Eval α} (hx : Metered x) : Metered (enclosed x) := by
  intro m hm
  exact hx.inScope m.scope m hm

/-- A step that ran dry has its definitions undone. -/
theorem rollback_of_starved {x : Eval α} {m : Machine} (h : Starved (x m)) :
    ∃ dry : Machine, dry.juice = 0 ∧ dry.env = m.env ∧
      rollback x m = .error (.signal .outOfJuice) dry := by
  obtain ⟨dry, hdry, hx⟩ := h
  refine ⟨{ dry with env := m.env }, hdry, rfl, ?_⟩
  simp only [rollback, hx]
  rfl

/-- Undoing definitions does not look at the juice. -/
theorem Metered.rollback {x : Eval α} (hx : Metered x) : Metered (rollback x) := by
  refine hx.around (g := id) (fun _ _ => rfl) (fun _ => rfl) (fun m => ?_) (fun m h => ?_)
    fun m j k h => ?_
  -- giving definitions back costs nothing
  · simp only [Eval.rollback, id]
    cases x m with
    | ok a after => rfl
    | error e after =>
      cases e with
      | fault f => rfl
      | signal s => cases s <;> rfl
  · obtain ⟨after, h⟩ := h
    refine ⟨{ after with env := m.env }, ?_⟩
    rw [id] at h
    simp only [Eval.rollback, h]
    rfl
  · simp only [id] at h
    simp only [Eval.rollback, h]
    cases x m with
    | ok a after => rfl
    | error e after =>
      cases e with
      | fault f => rfl
      | signal s => cases s <;> rfl

/-- Neither returning nor noting an error in the trace stops a step from running dry. -/
theorem Metered.catchReturn {x : Eval Cell} (hx : Metered x) (settings : Settings)
    (name : Option Name) : Metered (catchReturn settings name x) := by
  refine hx.around (g := id) (fun _ _ => rfl) (fun _ => rfl) (fun m => ?_) (fun m h => ?_)
    fun m j k h => ?_
  -- the signal that ends at a call is none of running dry
  · simp only [Eval.catchReturn, id]
    cases x m with
    | ok a after => rfl
    | error e after =>
      cases e with
      | fault f => rfl
      | signal s => cases s <;> rfl
  · obtain ⟨after, h⟩ := h
    refine ⟨after, ?_⟩
    rw [id] at h
    simp only [Eval.catchReturn, h]
  · simp only [id] at h
    simp only [Eval.catchReturn, h]
    cases x m with
    | ok a after => rfl
    | error e after =>
      cases e with
      | fault f => rfl
      | signal s => cases s <;> rfl

/-! ## Evaluation -/

/-- Being metered is handed on; declaring a symbol is metered like any other step. -/
theorem closed_metered : Closed Metered Metered where
  pure := metered_pure
  throw := metered_throw
  charge := metered_charge
  define := metered_define
  inspect := metered_get_bind
  bind := Metered.bind
  rollback := Metered.rollback
  catchReturn := Metered.catchReturn
  weaken := id
  declare := metered_declare
  andThen := Metered.bind
  enclosed := Metered.enclosed
  inScope := Metered.inScope

/-- Evaluation is metered at every level of nesting. -/
theorem metered_eval (settings : Settings) (levels : Nat) (c : Cell) :
    Metered (c.eval settings levels) :=
  closed_metered.eval settings levels c

/-- Evaluation that runs dry leaves the definitions as it found them. -/
theorem eval_starved {settings : Settings} {levels : Nat} {c : Cell} {m : Machine}
    (h : Starved (c.eval settings levels m)) :
    ∃ dry : Machine, dry.juice = 0 ∧ dry.env = m.env ∧
      c.eval settings levels m = .error (.signal .outOfJuice) dry := by
  obtain ⟨dry, hdry, hrun⟩ := h
  cases levels with
  | zero => cases c <;> cases hrun
  | succ levels =>
    cases c with
    | op o =>
      -- the step itself must have run dry, since nothing else ends for want of juice
      have hstep : Starved (o.step settings (Cell.eval settings levels) m) := by
        have hroll : Eval.rollback (o.step settings (Cell.eval settings levels)) m =
            .error (.signal .outOfJuice) dry := hrun
        simp only [Eval.rollback] at hroll
        cases hx : o.step settings (Cell.eval settings levels) m with
        | ok a after => rw [hx] at hroll; cases hroll
        | error e after =>
          rw [hx] at hroll
          cases e with
          | fault f => cases hroll
          | signal s =>
            cases s with
            | outOfJuice =>
              cases hroll
              exact ⟨after, hdry, rfl⟩
            | _ => cases hroll
      exact rollback_of_starved hstep
    | _ => cases hrun

end Eval

/-! ## Executions -/

namespace Context

open Eval

/-- The context with another supply of juice. -/
def withJuice (c : Context) (juice : Nat) : Context := { c with juice := juice }

/-- The context after an execution for which the juice did not last: the definitions are those
from before it, and nothing is left. -/
def dried (c : Context) : Context :=
  { c with juice := 0, outcome := .exceptional .outOfJuice }

/-- An evaluation that runs dry is an execution that ends for want of juice. -/
theorem run_of_starved {c : Context} {op : Cell}
    (h : Starved (op.eval c.settings c.settings.maxDepth c.machine)) : c.run op = .ok c.dried := by
  obtain ⟨dry, hzero, henv, hrun⟩ := eval_starved h
  have hfinish : c.finish dry (.exceptional .outOfJuice) = c.dried := by
    show ({ c with env := dry.env, juice := dry.juice, outcome := _ } : Context) = _
    rw [hzero, henv]
    rfl
  simp only [run, hrun, hfinish]

/-- An execution leaves the juice that its evaluation leaves. -/
theorem juice_of_run {c after : Context} {op : Cell} (h : c.run op = .ok after) :
    after.juice = juiceLeft (op.eval c.settings c.settings.maxDepth c.machine) := by
  simp only [run] at h
  split at h <;> cases h <;> simp_all [juiceLeft, finish]

/-- What an execution makes of an evaluation does not depend on the juice. -/
theorem run_leaving {c after : Context} {op : Cell} {j k : Nat} (h : c.run op = .ok after)
    (hk : op.eval c.settings c.settings.maxDepth (c.machine.withJuice j) =
      leaving k (op.eval c.settings c.settings.maxDepth c.machine)) :
    (c.withJuice j).run op = .ok (after.withJuice k) := by
  have hrun : op.eval (c.withJuice j).settings (c.withJuice j).settings.maxDepth
      (c.withJuice j).machine =
        leaving k (op.eval c.settings c.settings.maxDepth c.machine) := hk
  simp only [run] at h ⊢
  rw [hrun]
  cases hx : op.eval c.settings c.settings.maxDepth c.machine with
  | ok v m =>
    rw [hx] at h
    cases h
    rfl
  -- a fault gives no context, and any signal is put into the outcome
  | error e m =>
    rw [hx] at h
    cases e with
    | fault f => cases h
    | signal s => cases s <;> cases h <;> rfl

/-- An evaluation that runs dry is no other outcome. -/
theorem not_dry_of_run {c after : Context} {op : Cell} (h : c.run op = .ok after)
    (hout : after.outcome ≠ .exceptional .outOfJuice) :
    ¬ Dry (op.eval c.settings c.settings.maxDepth c.machine) := by
  rintro ⟨m, hm⟩
  simp only [run, hm] at h
  cases h
  exact hout rfl

/-- The juice that an execution uses is an exact threshold. With at least as much, the execution
has the same outcome and definitions and uses the same amount; with less it ends for want of juice,
with nothing left and the definitions from before it. -/
theorem execute_juice_threshold {c after : Context} {s : Store} {op : Cell}
    (h : c.execute s op = .ok after) (hout : after.outcome ≠ .exceptional .outOfJuice) :
    after.juice ≤ c.juice ∧ ∀ j,
      (c.juice - after.juice ≤ j → (c.withJuice j).execute s op =
        .ok (after.withJuice (j - (c.juice - after.juice)))) ∧
      (j < c.juice - after.juice → (c.withJuice j).execute s op = .ok c.dried) := by
  simp only [execute] at h ⊢
  cases hload : op.load s with
  | error e =>
    rw [hload] at h
    cases h
  | ok loaded =>
    rw [hload] at h
    have hrun : c.run loaded = .ok after := h
    -- what evaluation uses is what the context has lost
    obtain ⟨used, hused, hj⟩ := metered_eval c.settings c.settings.maxDepth loaded c.machine
      (not_dry_of_run hrun hout)
    rw [← juice_of_run hrun] at hused
    have hsum : c.juice = after.juice + used := hused
    have hu : c.juice - after.juice = used := by omega
    rw [hu]
    refine ⟨by omega, fun j => ⟨fun hle => ?_, fun hlt => ?_⟩⟩
    · exact run_leaving hrun ((hj j).1 hle)
    · exact run_of_starved (c := c.withJuice j) ((hj j).2 hlt)

/-- A program that binds `x` to 1 and calls a closure which adds `x` to its argument 2. -/
def addToDefined : Cell :=
  let x : Name := ⟨"x", by decide, by decide⟩
  let y : Name := ⟨"y", by decide, by decide⟩
  let plus : Name := ⟨"+", by decide, by decide⟩
  let ops (cells : List Cell) : Ref := .of (Vec.of cells).cell
  let sum := Cell.op (.invoke (ops [Op.ofLookup plus, Op.ofLookup x, Op.ofLookup y]))
  let call := Cell.op (.invoke (ops [.op (.lambda (symbolVector [y]) (.of sum)),
    Op.ofConstant (.long 2)]))
  .op (.sequence (ops [.op (.define x (.of (Op.ofConstant (.long 1)))), call]))

/-- The context in which `addToDefined` has yielded 3. -/
def afterAdding : Context :=
  ⟨{}, ⟨[(⟨"x", by decide, by decide⟩, .long 1)]⟩, 999685, .value (.long 3)⟩

/-- The program needs a juice of 315: it ends alike with 315 and with more, and runs dry with 314. -/
theorem execute_addToDefined :
    (start {}).execute .empty addToDefined = .ok afterAdding ∧
      afterAdding.outcome ≠ .exceptional .outOfJuice ∧
      ((start {}).withJuice 315).execute .empty addToDefined = .ok (afterAdding.withJuice 0) ∧
      ((start {}).withJuice 314).execute .empty addToDefined = .ok (start {}).dried := by
  have h : (start {}).execute .empty addToDefined = .ok afterAdding := rfl
  have hout : afterAdding.outcome ≠ .exceptional .outOfJuice := by
    rintro ⟨⟩
  obtain ⟨-, hj⟩ := execute_juice_threshold h hout
  exact ⟨h, hout, (hj 315).1 (by decide), (hj 314).2 (by decide)⟩

end Context

end CellMachine
