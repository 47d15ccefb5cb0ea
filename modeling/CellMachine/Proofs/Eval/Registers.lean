import CellMachine.Proofs.Eval.Metering

/-!
# The interpreter with its registers

`Cell.eval` knows how many levels are left to it, and has the scope given back by `enclosed` and
`inScope`. An interpreter that works in place keeps the number of ops it is inside of in a register,
counts it up and down, compares it with the limit, and copies the scope and the definitions aside in
order to put them back. This is that interpreter, step by step, over the same single steps.

It *follows* evaluation: at depth `d` it does what evaluation does with the levels that are left at that
depth, and ends at depth `d` again, whichever way it ends (`Interpreter.follows_eval`). The fuel that
makes its recursion structural does not show, as long as there is as much of it as there are levels left.
-/

namespace CellMachine

/-- A machine, and the number of ops that are being evaluated around it. -/
structure Registers extends Machine where
  depth : Nat

/-- A step of the interpreter. -/
abbrev Interpreter (α : Type) := EStateM Exit Registers α

namespace Interpreter

variable {α β : Type}

/-- A single step of evaluation, which does not touch the depth. -/
def lift (x : Eval α) : Interpreter α := fun r =>
  match x r.toMachine with
  | .ok a m => .ok a ⟨m, r.depth⟩
  | .error e m => .error e ⟨m, r.depth⟩

/-- Runs a step with the depth counted up before it and down after it. -/
def nested (x : Interpreter α) : Interpreter α := fun r =>
  match x { r with depth := r.depth + 1 } with
  | .ok a after => .ok a { after with depth := after.depth - 1 }
  | .error e after => .error e { after with depth := after.depth - 1 }

/-- Runs a step and puts the scope back that was copied aside before it. -/
def restoring (x : Interpreter α) : Interpreter α := fun r =>
  match x r with
  | .ok a after => .ok a { after with scope := r.scope }
  | .error e after => .error e { after with scope := r.scope }

/-- Runs a step and, if it ends in an error, puts the definitions back that were copied aside. -/
def unwinding (x : Interpreter α) : Interpreter α := fun r =>
  match x r with
  | .error (.signal s) after =>
    .error (.signal s) (if s.isError then { after with env := r.env } else after)
  | r => r

/-- The scope of a call replaces the scope of the caller. -/
def enter (scope : Bindings) : Interpreter Unit := fun r => .ok () { r with scope := scope }

/-- Ends the body of a call: returning yields a value, and an error is noted in the trace. -/
def endCall (settings : Settings) (name : Option Name) (x : Interpreter Cell) : Interpreter Cell :=
  fun r =>
    match x r with
    | .error (.signal (.leave v)) after => .ok v after
    | .error (.signal (.error f)) after =>
      .error (.signal (.error
        (if settings.recordTrace then { f with trace := f.trace ++ [Eval.traceLine name] } else f)))
        after
    | r => r

section Step
variable (settings : Settings) (eval : Cell → Interpreter Cell)

/-- Evaluates ops in order; yields the last result, or `last` if there is none. -/
def runAll (last : Cell) : List Cell → Interpreter Cell
  | [] => pure last
  | op :: ops => do runAll (← eval op) ops

/-- The results of ops in order. -/
def runEach : List Cell → Interpreter (List Cell)
  | [] => pure []
  | op :: ops => do
    let v ← eval op
    let vs ← runEach ops
    pure (v :: vs)

/-- Declares symbols as the results of the first ops and evaluates the rest. -/
def runBind : List Name → List Cell → Interpreter Cell
  | symbol :: symbols, op :: ops => do
    let v ← eval op
    lift (Eval.declare symbol (Eval.named v symbol))
    runBind symbols ops
  | _, ops => runAll eval .nil ops

/-- Evaluates the branch of the first test that succeeds, or the default. -/
def runChoose : List Cell → Interpreter Cell
  | test :: branch :: rest => do
    let v ← eval test
    if v.isTruthy then eval branch else runChoose rest
  | [default] => eval default
  | [] => pure .nil

/-- Calls a closure, which is the cell `f`. -/
def callClosure (f : Cell) (c : Closure) (args : List Cell) : Interpreter Cell := do
  let params ← lift (Eval.ofData c.paramNames)
  if params.length ≠ args.length then
    lift (Eval.signal (.ofText Code.arity s!"expected {params.length} arguments, got {args.length}"))
  else
    let table ← lift (Eval.ofData c.bindings)
    let entries ← lift (Eval.ofData table.toList)
    let captured ← lift (Eval.bindingsOf entries)
    let scope := match c.name with
      | some n => captured.insert n f
      | none => captured
    let body ← lift (Eval.ofData c.body.cell)
    endCall settings c.name (restoring do
      enter (scope.insertAll (params.zip args))
      eval body)

/-- Applies a function to arguments. -/
def apply (f : Cell) (args : List Cell) : Interpreter Cell :=
  match f with
  | .core g => lift (Eval.callCore g args)
  | .fn c => callClosure settings eval f c args
  | f => lift (Eval.signal (.ofText Code.cast (f.describe ++ " is not a function")))

open Eval in
/-- Evaluates an op, with `eval` for its parts. -/
def step : Op → Interpreter Cell
  | .constant value => do
    lift (charge Juice.constant)
    lift (ofData value.cell)
  | .lookup symbol => do
    lift (charge Juice.lookup)
    lift (resolve symbol)
  | .sequence ops => do
    lift (charge Juice.sequence)
    runAll eval .nil (← lift (opList ops))
  | .define symbol value => do
    lift (charge Juice.define)
    let op ← lift (ofData value.cell)
    let v ← eval op
    let v := named v symbol
    lift (Eval.define symbol v)
    pure v
  | .bind symbols ops => do
    lift (charge Juice.bind)
    let symbols ← lift (symbolList symbols)
    let ops ← lift (opList ops)
    if ops.length < symbols.length then lift (refuse (.letOps symbols.length ops.length))
    else restoring (runBind eval symbols ops)
  | .choose ops => do
    lift (charge Juice.choose)
    runChoose eval (← lift (opList ops))
  | .invoke ops => do
    lift (charge Juice.invoke)
    match ← lift (opList ops) with
    | [] => lift (refuse .functionOp)
    | function :: args => do
      let f ← eval function
      let values ← runEach eval args
      apply settings eval f values
  | .lambda params body => do
    lift (charge Juice.lambda)
    let params ← lift (ofData params.vec)
    let captured ← lift captureScope
    let body ← lift (ofData body.cell)
    lift (ofData (Closure.create params body captured none))

end Step

/-- The error that ends evaluation at the limit. -/
def tooDeep (settings : Settings) : Interpreter Cell :=
  lift (Eval.signal (.ofText Code.depth s!"depth limit {settings.maxDepth} reached"))

/-- Evaluates a cell that is an op, unless the registers are at the limit. -/
def eval (settings : Settings) : Nat → Cell → Interpreter Cell
  | 0, .op _ => tooDeep settings
  | fuel + 1, .op o => fun r =>
    if settings.maxDepth ≤ r.depth then tooDeep settings r
    else unwinding (nested (step settings (eval settings fuel) o)) r
  | _, c => lift (Eval.refuse (.op c.describe))

/-! ## Following evaluation -/

/-- A step that does what a step of evaluation does, and leaves the depth at `d` where it finds it. -/
def Follows (d : Nat) (x : Interpreter α) (y : Eval α) : Prop := ∀ m, x ⟨m, d⟩ = lift y ⟨m, d⟩

/-- A step that does not look at the depth follows itself. -/
theorem follows_lift (d : Nat) (y : Eval α) : Follows d (lift y) y := fun _ => rfl

theorem follows_pure (d : Nat) (a : α) : Follows d (pure a) (pure a) := fun _ => rfl

/-- A step leaves the depth as it found it, so what goes on starts at the same depth. -/
theorem Follows.bind {d : Nat} {x : Interpreter α} {y : Eval α} {f : α → Interpreter β}
    {g : α → Eval β} (h : Follows d x y) (hf : ∀ a, Follows d (f a) (g a)) :
    Follows d (x >>= f) (y >>= g) := by
  intro m
  have hx := h m
  show EStateM.bind x f ⟨m, d⟩ = lift (EStateM.bind y g) ⟨m, d⟩
  rw [EStateM.bind, hx]
  simp only [lift, EStateM.bind]
  cases y m with
  | ok a m' => exact hf a m'
  | error e m' => rfl

/-- What runs one level further down follows evaluation there; the depth is back afterwards. -/
theorem Follows.nested {d : Nat} {x : Interpreter α} {y : Eval α} (h : Follows (d + 1) x y) :
    Follows d (nested x) y := by
  intro m
  simp only [Interpreter.nested, h m, lift]
  cases y m <;> rfl

/-- Giving the saved definitions back after an error is rolling back. -/
theorem Follows.unwinding {d : Nat} {x : Interpreter α} {y : Eval α} (h : Follows d x y) :
    Follows d (unwinding x) (Eval.rollback y) := by
  intro m
  simp only [Interpreter.unwinding, h m, lift, Eval.rollback]
  cases y m with
  | ok a m' => rfl
  | error e m' =>
    cases e with
    | fault f => rfl
    | signal s => cases s <;> rfl

/-- A value that is returned ends the call, and a failure gets a line of trace. -/
theorem Follows.endCall {d : Nat} {x : Interpreter Cell} {y : Eval Cell} (h : Follows d x y)
    (settings : Settings) (name : Option Name) :
    Follows d (endCall settings name x) (Eval.catchReturn settings name y) := by
  intro m
  simp only [Interpreter.endCall, h m, lift, Eval.catchReturn]
  cases y m with
  | ok a m' => rfl
  | error e m' =>
    cases e with
    | fault f => rfl
    | signal s => cases s <;> rfl

/-- Putting the saved scope back is evaluating in a scope that is dropped. -/
theorem Follows.enclosed {d : Nat} {x : Interpreter α} {y : Eval α} (h : Follows d x y) :
    Follows d (restoring x) (Eval.enclosed y) := by
  intro m
  simp only [restoring, h m, lift, Eval.enclosed, Eval.inScope]
  cases y m <;> rfl

/-- A call puts the scope of its own in place and the scope of the caller back. -/
theorem Follows.inScope {d : Nat} {x : Interpreter α} {y : Eval α} (h : Follows d x y)
    (scope : Bindings) : Follows d (restoring (enter scope >>= fun _ => x)) (Eval.inScope scope y) := by
  intro m
  have hx : (enter scope >>= fun _ => x) ⟨m, d⟩ = lift y ⟨{ m with scope := scope }, d⟩ :=
    h { m with scope := scope }
  simp only [restoring, hx, lift, Eval.inScope]
  cases y { m with scope := scope } <;> rfl

/-! ## Ops, given that the interpreter follows the evaluation of their parts -/

section Step
variable {d : Nat} {settings : Settings} {eval : Cell → Interpreter Cell} {eval' : Cell → Eval Cell}
  (heval : ∀ c, Follows d (eval c) (eval' c))
include heval

/-- The ops of a sequence are evaluated one after another. -/
theorem follows_runAll (last : Cell) (ops : List Cell) :
    Follows d (runAll eval last ops) (Eval.runAll eval' last ops) := by
  induction ops generalizing last with
  | nil => exact follows_pure d last
  | cons op ops ih => exact (heval op).bind ih

/-- The arguments of a call are evaluated one after another. -/
theorem follows_runEach (ops : List Cell) :
    Follows d (runEach eval ops) (Eval.runEach eval' ops) := by
  induction ops with
  | nil => exact follows_pure d []
  | cons op ops ih => exact (heval op).bind fun v => ih.bind fun vs => follows_pure d (v :: vs)

/-- A symbol is declared in the scope register before the next op is evaluated. -/
theorem follows_runBind (symbols : List Name) (ops : List Cell) :
    Follows d (runBind eval symbols ops) (Eval.runBind eval' symbols ops) := by
  induction symbols generalizing ops with
  | nil => exact follows_runAll heval _ _
  | cons symbol symbols ih =>
    cases ops with
    | nil => exact follows_runAll heval _ _
    | cons op ops =>
      refine (heval op).bind fun v => ?_
      exact (follows_lift d _).bind fun _ => ih ops

/-- The interpreter takes the branch that evaluation takes. -/
theorem follows_runChoose (ops : List Cell) :
    Follows d (runChoose eval ops) (Eval.runChoose eval' ops) := by
  -- two ops at a time, as the definition takes them
  match ops with
  | [] => exact follows_pure d _
  | [default] => exact heval default
  | test :: branch :: rest =>
    refine (heval test).bind fun v => ?_
    by_cases hv : v.isTruthy = true
    · rw [if_pos hv, if_pos hv]
      exact heval branch
    · rw [if_neg hv, if_neg hv]
      exact follows_runChoose rest

/-- The scope register is overwritten for the body of a call, which evaluation does by `inScope`. -/
theorem follows_callClosure (f : Cell) (c : Closure) (args : List Cell) :
    Follows d (callClosure settings eval f c args) (Eval.callClosure settings eval' f c args) := by
  refine (follows_lift d _).bind fun params => ?_
  by_cases hlen : params.length ≠ args.length
  · rw [if_pos hlen, if_pos hlen]
    exact follows_lift d _
  · rw [if_neg hlen, if_neg hlen]
    refine (follows_lift d _).bind fun table => ?_
    refine (follows_lift d _).bind fun entries => ?_
    refine (follows_lift d _).bind fun captured => ?_
    refine (follows_lift d _).bind fun body => ?_
    exact ((heval body).inScope _).endCall settings c.name

/-- Only calls of closures involve the registers. -/
theorem follows_apply (f : Cell) (args : List Cell) :
    Follows d (apply settings eval f args) (Eval.apply settings eval' f args) := by
  cases f with
  | fn c => exact follows_callClosure heval _ c args
  | _ => exact fun _ => rfl

/-- One case for each op: what it does by itself is lifted, and its parts follow by assumption. -/
theorem follows_step (o : Op) : Follows d (step settings eval o) (o.step settings eval') := by
  cases o with
  | constant value => exact (follows_lift d _).bind fun _ => follows_lift d _
  | lookup symbol => exact (follows_lift d _).bind fun _ => follows_lift d _
  | sequence ops =>
    refine (follows_lift d _).bind fun _ => ?_
    exact (follows_lift d _).bind fun cells => follows_runAll heval _ cells
  | define symbol value =>
    refine (follows_lift d _).bind fun _ => ?_
    refine (follows_lift d _).bind fun op => ?_
    refine (heval op).bind fun v => ?_
    exact (follows_lift d _).bind fun _ => follows_pure d _
  | bind symbols ops =>
    refine (follows_lift d _).bind fun _ => ?_
    refine (follows_lift d _).bind fun names => ?_
    refine (follows_lift d _).bind fun cells => ?_
    by_cases hlen : cells.length < names.length
    · rw [if_pos hlen, if_pos hlen]
      exact follows_lift d _
    · rw [if_neg hlen, if_neg hlen]
      -- the interpreter copies the bindings aside, which is what a rollback gives back
      exact (follows_runBind heval names cells).enclosed
  | choose ops =>
    refine (follows_lift d _).bind fun _ => ?_
    exact (follows_lift d _).bind fun cells => follows_runChoose heval cells
  | invoke ops =>
    refine (follows_lift d _).bind fun _ => ?_
    refine (follows_lift d _).bind fun cells => ?_
    cases cells with
    | nil => exact follows_lift d _
    | cons function args =>
      refine (heval function).bind fun f => ?_
      exact (follows_runEach heval args).bind fun values => follows_apply heval f values
  | lambda params body =>
    refine (follows_lift d _).bind fun _ => ?_
    refine (follows_lift d _).bind fun params => ?_
    refine (follows_lift d _).bind fun captured => ?_
    exact (follows_lift d _).bind fun body => follows_lift d _

end Step

/-- The interpreter evaluates with the levels that the depth and the fuel leave. -/
theorem follows_eval (settings : Settings) (fuel d : Nat) (c : Cell) :
    Follows d (eval settings fuel c) (c.eval settings (min fuel (settings.maxDepth - d))) := by
  -- on the fuel, for every depth at once: the parts of an op are one level further down
  induction fuel generalizing d c with
  | zero =>
    rw [Nat.zero_min]
    cases c <;> exact fun _ => rfl
  | succ fuel ih =>
    cases c with
    | op o =>
      intro m
      by_cases hdepth : settings.maxDepth ≤ d
      -- the interpreter compares the depth, evaluation has run out of levels
      · rw [Nat.sub_eq_zero_of_le hdepth, Nat.min_zero]
        exact if_pos hdepth
      · -- one level is spent on this op, and the depth is up by one for its parts
        have hlevels : min (fuel + 1) (settings.maxDepth - d) =
            min fuel (settings.maxDepth - (d + 1)) + 1 := by omega
        rw [hlevels]
        have hstep : Follows (d + 1) (step settings (eval settings fuel) o) _ :=
          follows_step (ih (d + 1)) o
        exact (if_neg hdepth).trans (hstep.nested.unwinding m)
    | _ =>
      generalize min (fuel + 1) (settings.maxDepth - d) = levels
      cases levels <;> exact fun _ => rfl

end Interpreter

end CellMachine
