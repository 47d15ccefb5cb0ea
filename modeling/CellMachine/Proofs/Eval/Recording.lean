import CellMachine.Proofs.Eval.Coupled
import CellMachine.Proofs.Eval.Reporting

/-!
# Recording traces only observes

Whether traces are recorded is asked in one place only, where an error leaves the body of a closure, and what
depends on it is one line of the trace of that error. No step ever reads a trace. So a step under settings that
do not record ends as it does under settings that do, except that its error has no trace: one step is the other
*unrecorded*, which is a coupled relation (`Eval.coupled_unrecorded`).

Main statement: `Context.execute_recording`.
-/

namespace CellMachine

/-- The settings with traces recorded or not. -/
def Settings.recording (s : Settings) (record : Bool) : Settings := { s with recordTrace := record }

/-- The signal without the trace of an error. -/
def Signal.withoutTrace : Signal → Signal
  | .error f => .error { f with trace := [] }
  | s => s

/-- The exit without the trace of an error. -/
def Exit.withoutTrace : Exit → Exit
  | .signal s => .signal s.withoutTrace
  | .fault f => .fault f

/-- The outcome without the trace of an error. -/
def Outcome.withoutTrace : Outcome → Outcome
  | .value v => .value v
  | .exceptional s => .exceptional s.withoutTrace

@[simp] theorem Signal.isError_withoutTrace (s : Signal) : s.withoutTrace.isError = s.isError := by
  cases s <;> rfl

/-- An exit that has not left any closure has no trace to lose. -/
theorem Exit.Traced.withoutTrace_eq {e : Exit} (h : e.Traced 0) : e.withoutTrace = e := by
  cases e with
  | fault f => rfl
  | signal s =>
    cases s with
    | error f =>
      obtain ⟨code, message, trace⟩ := f
      obtain rfl : trace = [] := List.length_eq_zero_iff.1 (Nat.le_zero.1 h.1)
      rfl
    | outOfJuice | halt v | leave v => rfl

namespace Eval

variable {α β : Type}

/-- The same end without the trace of an error. -/
def withoutTrace : End α → End α
  | .ok a m => .ok a m
  | .error e m => .error e.withoutTrace m

/-- The second step ends as the first does, without the trace of an error. -/
def Unrecorded (x x' : Eval α) : Prop := ∀ m, x' m = withoutTrace (x m)

/-- A step that raises nothing with a trace is the same when its trace is taken away. -/
theorem Traced.unrecorded {x : Eval α} (hx : Traced 0 x) : Unrecorded x x := by
  intro m
  cases hend : x m with
  | ok a after => rfl
  | error e after => rw [withoutTrace, (hx.exit hend).withoutTrace_eq]

/-- A step that goes on does so on the same machine, and one that does not raises the same without
its trace. -/
theorem Unrecorded.bind {x x' : Eval α} {f f' : α → Eval β} (hx : Unrecorded x x')
    (hf : ∀ a, Unrecorded (f a) (f' a)) : Unrecorded (x >>= f) (x' >>= f') := by
  intro m
  have hfirst := hx m
  cases hend : x m with
  | ok a after =>
    rw [hend] at hfirst
    rw [bind_of_ok hend, bind_of_ok hfirst]
    exact hf a after
  | error e after =>
    rw [hend] at hfirst
    rw [bind_of_error hend, bind_of_error hfirst]
    rfl

/-- Definitions are rolled back for what the exit is, not for its trace. -/
theorem Unrecorded.rollback {x x' : Eval Cell} (hx : Unrecorded x x') :
    Unrecorded (rollback x) (rollback x') := by
  intro m
  simp only [Eval.rollback, hx m]
  cases x m with
  | ok a after => rfl
  | error e after =>
    cases e with
    | fault f => rfl
    | signal s => simp only [withoutTrace, Exit.withoutTrace, Signal.isError_withoutTrace]

theorem Unrecorded.inScope {x x' : Eval Cell} (hx : Unrecorded x x') (scope : Bindings) :
    Unrecorded (inScope scope x) (inScope scope x') := by
  intro m
  simp only [Eval.inScope, hx { m with scope := scope }]
  cases x { m with scope := scope } <;> rfl

theorem Unrecorded.enclosed {x x' : Eval Cell} (hx : Unrecorded x x') :
    Unrecorded (enclosed x) (enclosed x') :=
  fun m => hx.inScope m.scope m

/-- A line is added to a trace that the other error does not have. -/
theorem Unrecorded.catchReturn {x x' : Eval Cell} (hx : Unrecorded x x') (settings : Settings)
    (name : Option Name) :
    Unrecorded (catchReturn settings name x) (catchReturn (settings.recording false) name x') := by
  intro m
  simp only [Eval.catchReturn, hx m]
  cases x m with
  | ok a after => rfl
  | error e after =>
    cases e with
    | fault f => rfl
    | signal s =>
      cases s with
      | error f => by_cases hrecord : settings.recordTrace = true <;> simp only [hrecord] <;> rfl
      | outOfJuice | halt v | leave v => rfl

/-- Without recording, evaluation goes the same way and only the traces are missing. -/
theorem coupled_unrecorded (settings : Settings) :
    Coupled settings (settings.recording false) Unrecorded where
  alike := Traced.unrecorded
  bind := Unrecorded.bind
  rollback := Unrecorded.rollback
  enclosed := Unrecorded.enclosed
  inScope := Unrecorded.inScope
  catchReturn hx name := hx.catchReturn settings name

/-- Evaluation under settings that do not record is evaluation under the given ones, unrecorded. -/
theorem unrecorded_eval (settings : Settings) (levels : Nat) (c : Cell) :
    Unrecorded (c.eval settings levels) (c.eval (settings.recording false) levels) := by
  -- without levels left, both raise the same error, which has not left any closure
  have hend (o : Op) : Unrecorded ((Cell.op o).eval settings 0) ((Cell.op o).eval (settings.recording false) 0) :=
    fun _ => rfl
  exact (coupled_unrecorded settings).eval hend levels c

end Eval

/-! ## Executions -/

namespace Context

variable (c : Context) (op : Cell)

/-- The context with traces recorded or not. -/
def recording (record : Bool) : Context := { c with settings := c.settings.recording record }

/-- The context as it is without traces: none is recorded, and none has been. -/
def withoutTrace : Context := { c.recording false with outcome := c.outcome.withoutTrace }

/-- A run that does not record leaves the context of one that does, without its trace. -/
theorem run_recording_false : (c.recording false).run op = (c.run op).map withoutTrace := by
  have hsame := Eval.unrecorded_eval c.settings c.settings.maxDepth op c.machine
  simp only [run]
  rw [show op.eval (c.recording false).settings (c.recording false).settings.maxDepth
    (c.recording false).machine = _ from hsame]
  cases op.eval c.settings c.settings.maxDepth c.machine with
  | ok v m => rfl
  | error e m =>
    cases e with
    | fault f => rfl
    | signal s => cases s <;> rfl

theorem execute_recording_false (store : Store) :
    (c.recording false).execute store op = (c.execute store op).map withoutTrace := by
  simp only [execute]
  cases op.load store with
  | error e => rfl
  | ok op => exact c.run_recording_false op

end Context

/-! ## Results -/

namespace ExecutionResult

/-- The second result is the first without a trace. -/
structure Untraced (r r' : ExecutionResult) : Prop where
  id : r'.id = r.id
  value : r'.value = r.value
  errorCode : r'.errorCode = r.errorCode
  trace : r'.trace = none

/-- Where a trace may stand, it may as well be absent. -/
theorem paired_create (id value : Cell) {code : Option Name} {trace : Option Vec}
    (h : trace.isSome = true → code.isSome = true) :
    Paired Eq Untraced (create id value code trace) (create id value code none) := by
  have habsent : create id value code none = _ := create_eq id value nofun
  rw [create_eq id value h, habsent]
  cases idOf id with
  | error e => exact .error rfl
  | ok n => exact .ok ⟨rfl, rfl, rfl, rfl⟩

/-- Only the trace of a result depends on the trace of the outcome. -/
theorem paired_ofContext (id : Cell) (c : Context) :
    Paired Eq Untraced (ofContext id c) (ofContext id c.withoutTrace) := by
  obtain ⟨settings, env, juice, outcome⟩ := c
  cases outcome with
  | value v => exact paired_create id v nofun
  | exceptional s =>
    cases s with
    | error f => exact paired_create id f.message fun _ => rfl
    | outOfJuice => exact paired_create id .nil nofun
    | halt v | leave v => exact paired_create id v nofun

end ExecutionResult

/-- Recording traces only observes. Whether a context records or not, an op ends in the same fault, or leaves
the same juice and the same definitions and has the same outcome, except that an error has no trace if none is
recorded. A result is then refused alike under every id, or has the same id, value and code. -/
theorem Context.execute_recording (c : Context) (store : Store) (op : Cell) :
    Paired Eq
        (fun on off => off.juice = on.juice ∧ off.env = on.env ∧ off.outcome = on.outcome.withoutTrace)
        ((c.recording true).execute store op) ((c.recording false).execute store op) ∧
      ∀ id : Cell, Paired Eq ExecutionResult.Untraced
        ((c.recording true).execute store op >>= ExecutionResult.ofContext id)
        ((c.recording false).execute store op >>= ExecutionResult.ofContext id) := by
  have hoff : (c.recording false).execute store op =
      ((c.recording true).execute store op).map withoutTrace :=
    (c.recording true).execute_recording_false op store
  rw [hoff]
  cases (c.recording true).execute store op with
  | error f => exact ⟨.error rfl, fun _ => .error rfl⟩
  | ok after => exact ⟨.ok ⟨rfl, rfl, rfl⟩, fun id => ExecutionResult.paired_ofContext id after⟩

/-- The two closures that the error of `failInside` has left are all that there is to tell. -/
example : ∃ on off f, ((Context.start {}).recording true).execute .empty failInside = .ok on ∧
    on.outcome = .exceptional (.error f) ∧
    f.trace = ["In function: inner", "In function: <anonymous>"] ∧
    ((Context.start {}).recording false).execute .empty failInside = .ok off ∧
    off.outcome = .exceptional (.error { f with trace := [] }) :=
  ⟨_, _, _, rfl, rfl, rfl, rfl, rfl⟩

end CellMachine
