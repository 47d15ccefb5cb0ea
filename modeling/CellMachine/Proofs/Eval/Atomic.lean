import CellMachine.Proofs.Eval.Registers
import CellMachine.Proofs.Eval.Unwinding

/-!
# Executions are atomic

A session is a context together with the registers of the interpreter, which are not cleared before an
execution: what one leaves in them the next one finds. A session at rest, with no locals and at depth
zero, executes as its context does (`Session.execute_context`), and executions start and end at rest.

This rests on what every evaluation of every op leaves behind, whatever it is a part of and whichever way
it ends (`Interpreter.unwinds_eval`): the locals and the depth are as they were, there is no more juice
than before, and if it ends in an error or for want of juice the definitions are as they were.

Main statement: `Session.execute_atomic`.
-/

namespace CellMachine

/-! ## What an evaluation leaves behind -/

/-- What an evaluation may leave in the registers, however it ends. -/
structure Registers.Unwound (r after : Registers) : Prop where
  scope : after.scope = r.scope
  depth : after.depth = r.depth
  juice : after.juice ≤ r.juice

namespace Interpreter

variable {α : Type}

/-- The registers that a step leaves. -/
def registersLeft : EStateM.Result Exit Registers α → Registers
  | .ok _ r => r
  | .error _ r => r

/-- A step that gives back the scope, the depth and, if it ends in an error, the definitions. -/
structure Unwinds (x : Interpreter α) : Prop where
  unwound : ∀ r : Registers, r.Unwound (registersLeft (x r))
  env : ∀ (r after : Registers) (s : Signal), x r = .error (.signal s) after → s.isError = true →
    after.env = r.env

theorem registersLeft_lift (x : Eval α) (r : Registers) :
    registersLeft (lift x r) = ⟨Eval.machineLeft (x r.toMachine), r.depth⟩ := by
  simp only [lift]
  cases x r.toMachine <;> rfl

/-- The interpreter unwinds since evaluation does, which it follows at every depth. -/
theorem unwinds_eval (settings : Settings) (fuel : Nat) (c : Cell) :
    Unwinds (eval settings fuel c) := by
  refine ⟨fun r => ?_, fun r after s h hs => ?_⟩
  · rw [follows_eval settings fuel r.depth c r.toMachine, registersLeft_lift]
    have htidied := Eval.tidy_eval settings (min fuel (settings.maxDepth - r.depth)) c r.toMachine
    exact ⟨htidied.scope, rfl, htidied.juice⟩
  · rw [follows_eval settings fuel r.depth c r.toMachine] at h
    simp only [lift] at h
    cases hrun : c.eval settings (min fuel (settings.maxDepth - r.depth)) r.toMachine with
    | ok v m =>
      rw [hrun] at h
      cases h
    | error e m =>
      rw [hrun] at h
      cases h
      exact Eval.env_of_eval hrun hs

end Interpreter

/-! ## Sessions -/

/-- A context with the registers of the interpreter in it. -/
structure Session where
  /-- The limits of its executions. -/
  settings : Settings
  /-- The registers as the last execution left them. -/
  registers : Registers
  /-- The outcome of the last execution. -/
  outcome : Outcome

namespace Session

/-- The session before the first execution. -/
def start (settings : Settings) : Session :=
  ⟨settings, ⟨⟨.empty, .empty, settings.juiceLimit⟩, 0⟩, .value .nil⟩

/-- What a session is as a context. -/
def context (s : Session) : Context :=
  ⟨s.settings, s.registers.env, s.registers.juice, s.outcome⟩

/-- The session after an evaluation: locals and depth are cleared. -/
def finish (s : Session) (r : Registers) (outcome : Outcome) : Session :=
  { s with registers := { r with scope := .empty, depth := 0 }, outcome := outcome }

/-- Evaluates a loaded op on the registers as they are. -/
def run (s : Session) (op : Cell) : Except Fault Session :=
  match Interpreter.eval s.settings s.settings.maxDepth op s.registers with
  | .ok v r => .ok (s.finish r (.value v))
  | .error (.signal (.halt v)) r => .ok (s.finish r (.value v))
  | .error (.signal (.leave v)) r => .ok (s.finish r (.value v))
  | .error (.signal sig) r => .ok (s.finish r (.exceptional sig))
  | .error (.fault f) _ => .error f

/-- Loads an op and evaluates it. -/
def execute (s : Session) (store : Store) (op : Cell) : Except Fault Session :=
  match op.load store with
  | .ok op => s.run op
  | .error e => .error (.data e)

/-- The sessions to which successful executions lead, of whatever ops. -/
inductive Reachable : Session → Prop where
  | start (settings : Settings) : Reachable (start settings)
  | execute {s after : Session} {store : Store} {op : Cell} (hs : Reachable s)
    (h : s.execute store op = .ok after) : Reachable after

/-- A session between executions: no locals, not inside of any op, and juice within the limit. -/
structure AtRest (s : Session) : Prop where
  scope : s.registers.scope = .empty
  depth : s.registers.depth = 0
  juice : s.registers.juice ≤ s.settings.juiceLimit

/-- What one execution may change. -/
structure Next (s after : Session) : Prop where
  settings : after.settings = s.settings
  juice : after.registers.juice ≤ s.registers.juice
  env : after.context.isExceptional = true → after.registers.env = s.registers.env

theorem atRest_start (settings : Settings) : (start settings).AtRest :=
  ⟨rfl, rfl, Nat.le_refl _⟩

/-- The interpreter starts where evaluation starts, with all levels left. -/
theorem run_context {s : Session} (hs : s.AtRest) (op : Cell) :
    (s.run op).map context = s.context.run op := by
  have hmachine : s.registers.toMachine = s.context.machine := by
    show _ = Machine.mk s.registers.env .empty s.registers.juice
    rw [← hs.scope]
  have heval : Interpreter.eval s.settings s.settings.maxDepth op s.registers =
      Interpreter.lift (op.eval s.settings s.settings.maxDepth) s.registers := by
    have hfollows := Interpreter.follows_eval s.settings s.settings.maxDepth s.registers.depth op
    rw [hs.depth, Nat.sub_zero, Nat.min_self, ← hs.depth] at hfollows
    exact hfollows s.registers.toMachine
  have hsettings : s.context.settings = s.settings := rfl
  simp only [run, Context.run, heval, hsettings, Interpreter.lift, hmachine]
  cases op.eval s.settings s.settings.maxDepth s.context.machine with
  | ok v m => rfl
  | error e m =>
    cases e with
    | fault f => rfl
    | signal sig => cases sig <;> rfl

/-- A session at rest executes as its context does. -/
theorem execute_context {s : Session} (hs : s.AtRest) (store : Store) (op : Cell) :
    (s.execute store op).map context = s.context.execute store op := by
  simp only [execute, Context.execute]
  cases op.load store with
  | error e => rfl
  | ok op => exact run_context hs op

/-- One execution leaves a session at rest, with the definitions it had if it ends in an error. -/
theorem next_of_execute {s after : Session} {store : Store} {op : Cell}
    (h : s.execute store op = .ok after) :
    s.Next after ∧ after.registers.scope = .empty ∧ after.registers.depth = 0 := by
  simp only [execute] at h
  cases hload : op.load store with
  | error e =>
    rw [hload] at h
    cases h
  | ok op =>
    rw [hload] at h
    have hunwinds := Interpreter.unwinds_eval s.settings s.settings.maxDepth op
    have hunwound := hunwinds.unwound s.registers
    have henv := hunwinds.env s.registers
    simp only [run] at h
    cases hrun : Interpreter.eval s.settings s.settings.maxDepth op s.registers with
    | ok v r =>
      rw [hrun] at h hunwound
      cases h
      exact ⟨⟨rfl, hunwound.juice, fun h => by cases h⟩, rfl, rfl⟩
    | error e r =>
      rw [hrun] at h hunwound
      cases e with
      | fault f => cases h
      | signal sig =>
        have henv := henv r sig hrun
        cases sig with
        | halt v | leave v =>
          cases h
          exact ⟨⟨rfl, hunwound.juice, fun h => by cases h⟩, rfl, rfl⟩
        | outOfJuice | error f =>
          cases h
          exact ⟨⟨rfl, hunwound.juice, fun _ => henv rfl⟩, rfl, rfl⟩

theorem Reachable.atRest {s : Session} (h : s.Reachable) : s.AtRest := by
  induction h with
  | start settings => exact atRest_start settings
  | execute _ h ih =>
    obtain ⟨hnext, hscope, hdepth⟩ := next_of_execute h
    exact ⟨hscope, hdepth, Nat.le_trans hnext.juice (hnext.settings ▸ ih.juice)⟩

/-- Executions are atomic and leave no residue. In every session to which successful executions have led:

* every evaluation of every op, from whatever registers it may be reached, leaves locals and depth as it
  found them, does not add to the juice, and leaves the definitions as it found them if it ends in an
  error or for want of juice;
* an execution with an exceptional outcome leaves the definitions as they were before it;
* the next execution starts without locals and at depth zero;
* the juice that is left does not exceed the limit and no execution adds to it, so that what is left and
  what has been used add up to the limit.

An execution of the session is one of its context, to which the same juice and the same definitions
belong. -/
theorem execute_atomic {s : Session} (hs : s.Reachable) :
    (∀ fuel c, Interpreter.Unwinds (Interpreter.eval s.settings fuel c)) ∧
      (∀ store op after, s.execute store op = .ok after → s.Next after) ∧
      s.AtRest ∧ s.context.juiceUsed + s.context.juice = s.settings.juiceLimit ∧
      ∀ store op, (s.execute store op).map context = s.context.execute store op := by
  have hrest := hs.atRest
  refine ⟨Interpreter.unwinds_eval s.settings, fun store op after h => (next_of_execute h).1, hrest, ?_,
    execute_context hrest⟩
  exact Nat.sub_add_cancel hrest.juice

/-- A program that binds `one` to 1 and then looks up `two`, which is bound to nothing. -/
def defineThenFail : Cell :=
  let one : Name := ⟨"one", by decide, by decide⟩
  let two : Name := ⟨"two", by decide, by decide⟩
  .op (.sequence (.of (Vec.of
    [.op (.define one (.of (Op.ofConstant (.long 1)))), Op.ofLookup two]).cell))

/-- The program ends in an error, which takes the definition back but not the juice. -/
theorem execute_atomic_defineThenFail : ∃ after, (start {}).execute .empty defineThenFail = .ok after ∧
    after.context.isExceptional = true ∧ after.registers.env = .empty ∧
    after.registers.scope = .empty ∧ after.registers.depth = 0 ∧
    after.context.juice = 999870 ∧ after.context.juiceUsed + after.context.juice = 1000000 := by
  obtain ⟨after, h, hexceptional, hjuice⟩ : ∃ after,
      (start {}).execute .empty defineThenFail = .ok after ∧
        after.context.isExceptional = true ∧ after.context.juice = 999870 := ⟨_, rfl, rfl, rfl⟩
  have hstart : (start {}).Reachable := .start {}
  obtain ⟨-, hnext, -⟩ := execute_atomic hstart
  obtain ⟨-, -, hrest, hsum, -⟩ := execute_atomic (hstart.execute h)
  have hsettings := (hnext _ _ _ h).settings
  refine ⟨after, h, hexceptional, (hnext _ _ _ h).env hexceptional, hrest.scope, hrest.depth, hjuice, ?_⟩
  rw [hsum, hsettings]
  rfl

end Session

end CellMachine
