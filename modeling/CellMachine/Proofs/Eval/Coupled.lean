import CellMachine.Proofs.Eval.Tracing

/-!
# Evaluation under two settings

Two settings can make a difference to an evaluation in two places only: where there are no levels left, and
where an error leaves the body of a closure. A relation between a step under the one settings and a step under
the other is *coupled* if it relates the bodies of closures when it relates what happens inside of them, is
handed on by all the other ways of putting steps together, and holds between each step and itself that raises
its errors without a trace.

Evaluations are then related as soon as their ends are (`Coupled.eval`), also if there are more levels in the
second one; no statement about two settings has to look at ops.
-/

namespace CellMachine.Eval

/-- A value that is no op is refused under any settings and at any level. -/
theorem eval_of_not_op {c : Cell} (hc : ¬ ∃ o, c = .op o) (settings : Settings) (levels : Nat) :
    c.eval settings levels = refuse (.op c.describe) := by
  cases c with
  | op o => exact absurd ⟨o, rfl⟩ hc
  | _ => cases levels <;> rfl

/-- A relation between steps under two settings that is handed on from steps to what is put together from
them. -/
structure Coupled (settings settings' : Settings) (R : ∀ {α : Type}, Eval α → Eval α → Prop) :
    Prop where
  alike {α : Type} {x : Eval α} (hx : Traced 0 x) : R x x
  bind {α β : Type} {x x' : Eval α} {f f' : α → Eval β} (hx : R x x') (hf : ∀ a, R (f a) (f' a)) :
    R (x >>= f) (x' >>= f')
  rollback {x x' : Eval Cell} (hx : R x x') : R (rollback x) (rollback x')
  enclosed {x x' : Eval Cell} (hx : R x x') : R (enclosed x) (enclosed x')
  inScope {x x' : Eval Cell} (hx : R x x') (scope : Bindings) : R (inScope scope x) (inScope scope x')
  catchReturn {x x' : Eval Cell} (hx : R x x') (name : Option Name) :
    R (catchReturn settings name x) (catchReturn settings' name x')

namespace Coupled

variable {settings settings' : Settings} {R : ∀ {α : Type}, Eval α → Eval α → Prop}
  (h : Coupled settings settings' R) {α β : Type}
include h

/-- After a step that is the same under both settings. -/
theorem after {x : Eval α} {f f' : α → Eval β} (hx : Traced 0 x) (hf : ∀ a, R (f a) (f' a)) :
    R (x >>= f) (x >>= f') :=
  h.bind (h.alike hx) hf

/-! ## Ops, given that their parts are related -/

section Step
variable {eval eval' : Cell → Eval Cell} (heval : ∀ c, R (eval c) (eval' c))
include heval

/-- The values before the last are forgotten under both settings. -/
theorem runAll (last : Cell) (ops : List Cell) : R (runAll eval last ops) (runAll eval' last ops) := by
  induction ops generalizing last with
  | nil => exact h.alike (traced_pure _)
  | cons op ops ih => exact h.bind (heval op) ih

/-- Arguments are evaluated in order under both settings. -/
theorem runEach (ops : List Cell) : R (runEach eval ops) (runEach eval' ops) := by
  induction ops with
  | nil => exact h.alike (traced_pure _)
  | cons op ops ih =>
    exact h.bind (heval op) fun v => h.bind ih fun vs => h.alike (traced_pure _)

/-- A declaration does not depend on the settings. -/
theorem runBind (symbols : List Name) (ops : List Cell) :
    R (runBind eval symbols ops) (runBind eval' symbols ops) := by
  induction symbols generalizing ops with
  | nil => exact h.runAll heval _ _
  | cons symbol symbols ih =>
    cases ops with
    | nil => exact h.runAll heval _ _
    | cons op ops =>
      exact h.bind (heval op) fun v => h.after (traced_declare symbol _) fun _ => ih ops

theorem runChoose (ops : List Cell) : R (runChoose eval ops) (runChoose eval' ops) := by
  -- tests and branches come in pairs, so the recursion takes two ops at a time
  match ops with
  | [] => exact h.alike (traced_pure _)
  | [default] => exact heval default
  | test :: branch :: rest =>
    refine h.bind (heval test) fun v => ?_
    by_cases hv : v.isTruthy = true
    · rw [if_pos hv, if_pos hv]
      exact heval branch
    · rw [if_neg hv, if_neg hv]
      exact runChoose rest

/-- Settings are looked at only where a call catches what its body raises. -/
theorem callClosure (f : Cell) (c : Closure) (args : List Cell) :
    R (callClosure settings eval f c args) (callClosure settings' eval' f c args) := by
  refine h.after (traced_ofData _) fun params => ?_
  by_cases hlen : params.length ≠ args.length
  · rw [if_pos hlen, if_pos hlen]
    exact h.alike (traced_complain (.parameters params.length args.length))
  · rw [if_neg hlen, if_neg hlen]
    refine h.after (traced_ofData _) fun table => ?_
    refine h.after (traced_ofData _) fun entries => ?_
    refine h.after (traced_bindingsOf entries) fun captured => ?_
    refine h.after (traced_ofData _) fun body => ?_
    exact h.catchReturn (h.inScope (heval body) _) c.name

/-- Core functions and values that cannot be called have nothing to do with settings. -/
theorem apply (f : Cell) (args : List Cell) :
    R (apply settings eval f args) (apply settings' eval' f args) := by
  cases f with
  | core g => exact h.alike (traced_callCore g args)
  | fn c => exact h.callClosure heval _ c args
  | _ => exact h.alike (traced_complain (.notFunction _))

/-- What an op does by itself is traced and the same under both settings; its parts are related by
assumption. -/
theorem step (o : Op) : R (o.step settings eval) (o.step settings' eval') := by
  cases o with
  | constant value => exact h.alike ((traced_charge _).bind fun _ => traced_ofData _)
  | lookup symbol => exact h.alike ((traced_charge _).bind fun _ => traced_resolve symbol)
  | sequence ops =>
    refine h.after (traced_charge _) fun _ => ?_
    exact h.after (traced_opList ops) fun cells => h.runAll heval _ cells
  | define symbol value =>
    refine h.after (traced_charge _) fun _ => ?_
    refine h.after (traced_ofData _) fun op => ?_
    -- evaluation of a part is coupled; what surrounds it is the same on both sides
    refine h.bind (heval op) fun v => ?_
    exact h.alike ((traced_define symbol _).bind fun _ => traced_pure _)
  | bind symbols ops =>
    refine h.after (traced_charge _) fun _ => ?_
    refine h.after (traced_symbolList symbols) fun names => ?_
    refine h.after (traced_opList ops) fun cells => ?_
    by_cases hlen : cells.length < names.length
    · rw [if_pos hlen, if_pos hlen]
      exact h.alike (traced_fault _)
    · rw [if_neg hlen, if_neg hlen]
      exact h.enclosed (h.runBind heval names cells)
  | choose ops =>
    refine h.after (traced_charge _) fun _ => ?_
    exact h.after (traced_opList ops) fun cells => h.runChoose heval cells
  | invoke ops =>
    refine h.after (traced_charge _) fun _ => ?_
    refine h.after (traced_opList ops) fun cells => ?_
    cases cells with
    | nil => exact h.alike (traced_fault _)
    | cons function args =>
      refine h.bind (heval function) fun f => ?_
      exact h.bind (h.runEach heval args) fun values => h.apply heval f values
  | lambda params body =>
    refine h.alike ((traced_charge _).bind fun _ => (traced_ofData _).bind fun params => ?_)
    exact traced_captureScope.bind fun captured => (traced_ofData _).bind fun body => traced_ofData _

end Step

/-- Evaluations are related if those at the end of the first are, by induction on the levels above it. -/
theorem eval {more : Nat} (hend : ∀ o, R ((Cell.op o).eval settings 0) ((Cell.op o).eval settings' more))
    (levels : Nat) (c : Cell) : R (c.eval settings levels) (c.eval settings' (levels + more)) := by
  induction levels generalizing c with
  | zero =>
    rw [Nat.zero_add]
    by_cases hop : ∃ o, c = .op o
    · obtain ⟨o, rfl⟩ := hop
      exact hend o
    · rw [eval_of_not_op hop, eval_of_not_op hop]
      exact h.alike (traced_fault _)
  | succ levels ih =>
    -- one level is used up on each side, so `more` levels remain the difference
    rw [Nat.add_right_comm]
    cases c with
    | op o => exact h.rollback (h.step ih o)
    | _ => exact h.alike (traced_fault _)

end Coupled

end CellMachine.Eval
