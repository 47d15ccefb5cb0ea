import CellMachine.Eval.Step

/-!
# What evaluation inherits from its steps

Evaluation is put together from a few single steps in a few ways. A property of steps that the single
steps have, and that every way of putting steps together hands on, is a property of evaluation at every
level of nesting (`Closed.eval`), so that each such property is proved without looking at ops.

Declaring a symbol is the one step that changes the scope for what comes after it. A property may be lost
there and come back where the scope is given back, so it comes with a weaker one that declarations have.
-/

namespace CellMachine.Eval

/-- A property `P` of steps, and a weaker one `Q` for steps that may declare symbols, which are handed on
from steps to what is put together from them. Steps that look at the machine do not look at the juice. -/
structure Closed (P Q : ∀ {α : Type}, Eval α → Prop) : Prop where
  pure {α : Type} (a : α) : P (pure a : Eval α)
  throw {α : Type} (e : Exit) : P (throw e : Eval α)
  charge (price : Nat) : P (charge price)
  define (symbol : Name) (value : Cell) : P (define symbol value)
  inspect {α : Type} {f : Machine → Eval α} (h : ∀ m, P (f m))
    (hf : ∀ m j, f { m with juice := j } = f m) : P (get >>= f)
  bind {α β : Type} {x : Eval α} {f : α → Eval β} (hx : P x) (hf : ∀ a, P (f a)) : P (x >>= f)
  rollback {x : Eval Cell} (hx : P x) : P (rollback x)
  catchReturn {x : Eval Cell} (hx : P x) (settings : Settings) (name : Option Name) :
    P (catchReturn settings name x)
  weaken {α : Type} {x : Eval α} (hx : P x) : Q x
  declare (symbol : Name) (value : Cell) : Q (declare symbol value)
  andThen {α β : Type} {x : Eval α} {f : α → Eval β} (hx : Q x) (hf : ∀ a, Q (f a)) : Q (x >>= f)
  enclosed {x : Eval Cell} (hx : Q x) : P (enclosed x)
  inScope {x : Eval Cell} (hx : Q x) (scope : Bindings) : P (inScope scope x)

namespace Closed

variable {P Q : ∀ {α : Type}, Eval α → Prop} (h : Closed P Q) {α β : Type}
include h

/-! ## What ops are made of -/

theorem signal (s : Signal) : P (signal s : Eval α) := h.throw _

theorem fault (f : Fault) : P (fault f : Eval α) := h.throw _

theorem refuse (r : Requirement) : P (refuse r : Eval α) := h.throw _

/-- Data either gives a value or raises a fault, and both are steps by themselves. -/
theorem ofData (r : Except DataError α) : P (ofData r) := by
  cases r with
  | ok a => exact h.pure a
  | error e => exact h.throw _

theorem ofExcept (r : Except Exit α) : P (ofExcept r) := by
  cases r with
  | ok a => exact h.pure a
  | error e => exact h.throw e

/-- By induction on the list, since going through it is a chain of steps. -/
theorem mapM {f : α → Eval β} (hf : ∀ a, P (f a)) (l : List α) : P (l.mapM f) := by
  induction l with
  | nil => exact h.pure []
  | cons a l ih =>
    rw [List.mapM_cons]
    exact h.bind (hf a) fun b => h.bind ih fun bs => h.pure (b :: bs)

/-- The accumulator is passed along, whatever it is. -/
theorem foldlM {f : β → α → Eval β} (hf : ∀ b a, P (f b a)) (b : β) (l : List α) :
    P (l.foldlM f b) := by
  induction l generalizing b with
  | nil => exact h.pure b
  | cons a l ih =>
    rw [List.foldlM_cons]
    exact h.bind (hf b a) ih

theorem opList (r : Ref) : P (opList r) := h.bind (h.ofData _) fun _ => h.ofData _

theorem symbolOf (c : Cell) : P (symbolOf c) := by
  cases c with
  | symbol n => exact h.pure n
  | _ => exact h.refuse _

theorem symbolList (r : Ref) : P (symbolList r) :=
  h.bind (h.opList r) fun cells => h.mapM h.symbolOf cells

/-- A lookup inspects the machine and leaves it as it is. -/
theorem resolve (symbol : Name) : P (resolve symbol) := by
  -- both places are looked at before the machine is left, so one rule serves for all four ends
  refine h.inspect (fun m => ?_) fun _ _ => rfl
  cases m.scope.find? symbol with
  | some v => exact h.pure v
  | none =>
    cases m.env.find? symbol with
    | some v => exact h.pure v
    | none =>
      cases CoreFn.ofName? symbol.val with
      | some f => exact h.pure _
      | none => exact h.signal _

/-- Capturing inspects the scope and leaves the machine as it is. -/
theorem captureScope : P captureScope := by
  refine h.inspect (fun m => ?_) fun _ _ => rfl
  cases Table.ofList (m.scope.entries.map fun e => (.symbol e.1, e.2)) with
  | ok t => exact h.pure t
  | error e =>
    cases e with
    | violation v => exact h.signal _
    | _ => exact h.fault _

theorem bindingsOf (entries : List (Cell × Cell)) : P (bindingsOf entries) := by
  refine h.foldlM (fun b e => ?_) _ entries
  -- only symbols can be bound
  obtain ⟨key, value⟩ := e
  cases key with
  | symbol n => exact h.pure _
  | _ => exact h.refuse _

/-- A core function is charged for and then runs without the machine. -/
theorem callCore (f : CoreFn) (args : List Cell) : P (callCore f args) :=
  h.bind (h.charge _) fun _ => h.ofExcept _

/-! ## Ops, given that their parts have the property -/

section Step
variable {settings : Settings} {eval : Cell → Eval Cell} (heval : ∀ c, P (eval c))
include heval

/-- The ops of a sequence run one after another. -/
theorem runAll (last : Cell) (ops : List Cell) : P (runAll eval last ops) := by
  induction ops generalizing last with
  | nil => exact h.pure last
  | cons op ops ih => exact h.bind (heval op) ih

/-- The arguments of a call run one after another. -/
theorem runEach (ops : List Cell) : P (runEach eval ops) := by
  induction ops with
  | nil => exact h.pure []
  | cons op ops ih => exact h.bind (heval op) fun v => h.bind ih fun vs => h.pure (v :: vs)

/-- The loop over bindings declares symbols as it goes. -/
theorem runBind (symbols : List Name) (ops : List Cell) : Q (runBind eval symbols ops) := by
  induction symbols generalizing ops with
  | nil => exact h.weaken (h.runAll heval _ _)
  | cons symbol symbols ih =>
    cases ops with
    | nil => exact h.weaken (h.runAll heval _ _)
    | cons op ops =>
      refine h.andThen (h.weaken (heval op)) fun v => ?_
      exact h.andThen (h.declare symbol _) fun _ => ih ops

/-- Tests run until one is true, and then its branch. -/
theorem runChoose (ops : List Cell) : P (runChoose eval ops) := by
  -- tests and branches come in pairs, so the recursion takes two ops at a time
  match ops with
  | [] => exact h.pure _
  | [default] => exact heval default
  | test :: branch :: rest =>
    refine h.bind (heval test) fun v => ?_
    by_cases hv : v.isTruthy = true
    · rw [if_pos hv]
      exact heval branch
    · rw [if_neg hv]
      exact runChoose rest

/-- A body runs in the scope that its call makes, and the call catches what it returns. -/
theorem callClosure (f : Cell) (c : Closure) (args : List Cell) :
    P (callClosure settings eval f c args) := by
  refine h.bind (h.ofData _) fun params => ?_
  by_cases hlen : params.length ≠ args.length
  · rw [if_pos hlen]
    exact h.signal _
  · rw [if_neg hlen]
    refine h.bind (h.ofData _) fun table => ?_
    refine h.bind (h.ofData _) fun entries => ?_
    refine h.bind (h.bindingsOf entries) fun captured => ?_
    refine h.bind (h.ofData _) fun body => ?_
    exact h.catchReturn (h.inScope (h.weaken (heval body)) _) settings c.name

/-- Whether a callee can be called depends on nothing but itself. -/
theorem apply (f : Cell) (args : List Cell) : P (apply settings eval f args) := by
  cases f with
  | core g => exact h.callCore g args
  | fn c => exact h.callClosure heval _ c args
  | _ => exact h.signal _

/-- One case for each op, by the rule for the way in which it puts its parts together. -/
theorem step (o : Op) : P (o.step settings eval) := by
  cases o with
  | constant value => exact h.bind (h.charge _) fun _ => h.ofData _
  | lookup symbol => exact h.bind (h.charge _) fun _ => h.resolve symbol
  | sequence ops =>
    refine h.bind (h.charge _) fun _ => ?_
    exact h.bind (h.opList ops) fun cells => h.runAll heval _ cells
  | define symbol value =>
    refine h.bind (h.charge _) fun _ => ?_
    refine h.bind (h.ofData _) fun op => ?_
    refine h.bind (heval op) fun v => ?_
    exact h.bind (h.define symbol _) fun _ => h.pure _
  | bind symbols ops =>
    refine h.bind (h.charge _) fun _ => ?_
    refine h.bind (h.symbolList symbols) fun names => ?_
    refine h.bind (h.opList ops) fun cells => ?_
    by_cases hlen : cells.length < names.length
    · rw [if_pos hlen]
      exact h.refuse _
    -- the definitions of a binding are taken back at its end
    · rw [if_neg hlen]
      exact h.enclosed (h.runBind heval names cells)
  | choose ops =>
    refine h.bind (h.charge _) fun _ => ?_
    exact h.bind (h.opList ops) fun cells => h.runChoose heval cells
  | invoke ops =>
    refine h.bind (h.charge _) fun _ => ?_
    refine h.bind (h.opList ops) fun cells => ?_
    cases cells with
    | nil => exact h.refuse _
    -- the function is evaluated in front of its arguments
    | cons function args =>
      refine h.bind (heval function) fun f => ?_
      exact h.bind (h.runEach heval args) fun values => h.apply heval f values
  | lambda params body =>
    refine h.bind (h.charge _) fun _ => ?_
    refine h.bind (h.ofData _) fun params => ?_
    refine h.bind h.captureScope fun captured => ?_
    exact h.bind (h.ofData _) fun body => h.ofData _

end Step

/-- Evaluation has the property at every level of nesting. -/
theorem eval (settings : Settings) (levels : Nat) (c : Cell) : P (c.eval settings levels) := by
  induction levels generalizing c with
  | zero =>
    cases c with
    | op o => exact h.signal _
    | _ => exact h.refuse _
  | succ levels ih =>
    cases c with
    | op o => exact h.rollback (h.step ih o)
    | _ => exact h.refuse _

end Closed

end CellMachine.Eval
