import CellMachine.Eval.Core
import CellMachine.Program
import CellMachine.Settings

/-!
# Evaluation of ops

Every op pays for itself before any of its parts is evaluated. Definitions last until the end of
the transaction unless an error undoes them: an op that ends in an error, or for want of juice,
leaves the definitions as it found them. Bindings last until the end of the op that makes them, and
a closure sees the bindings it was created among, its own name, and its arguments.

How an op is evaluated is said with the evaluation of its parts as an argument (`Op.step`), and
`Cell.eval` ties the knot level by level: its parts are evaluated with one level less, and at level
zero an op ends in an error with the code `:DEPTH`.
-/

namespace CellMachine

namespace Eval

/-- The ops in the vector behind a reference. -/
def opList (r : Ref) : Eval (List Cell) := do
  let v ← ofData r.vec
  ofData v.toList

/-- A cell that is a symbol. -/
def symbolOf (c : Cell) : Eval Name :=
  match c with
  | .symbol n => pure n
  | c => refuse (.symbol c.describe)

/-- The symbols in the vector behind a reference. -/
def symbolList (r : Ref) : Eval (List Name) := do (← opList r).mapM symbolOf

/-- A closure without a name takes the symbol that it is bound to. -/
def named (v : Cell) (symbol : Name) : Cell :=
  match v with
  | .fn ⟨params, body, env, none⟩ => .fn ⟨params, body, env, some symbol⟩
  | v => v

/-- What a symbol is bound to: in the scope, by a definition, or as a core function. -/
def resolve (symbol : Name) : Eval Cell := do
  let m ← get
  match m.scope.find? symbol with
  | some v => pure v
  | none =>
    match m.env.find? symbol with
    | some v => pure v
    | none =>
      match CoreFn.ofName? symbol.val with
      | some f => pure (.core f)
      | none => signal (.ofText Code.undeclared symbol.val)

/-- The map of the bindings of the current scope. -/
def captureScope : Eval Table := do
  let m ← get
  match Table.ofList (m.scope.entries.map fun e => (.symbol e.1, e.2)) with
  | .ok t => pure t
  | .error (.violation v) => signal (.ofText Code.argument v.message)
  | .error e => fault (.data e)

/-- The bindings that a map of symbols holds. -/
def bindingsOf (entries : List (Cell × Cell)) : Eval Bindings :=
  entries.foldlM (fun b e =>
    match e.1 with
    | .symbol n => pure (b.insert n e.2)
    | c => refuse (.closureSymbol c.describe)) Bindings.empty

/-- The line that a trace gains when an error leaves a closure. -/
def traceLine (name : Option Name) : String :=
  "In function: " ++ (match name with
    | some n => n.val
    | none => "<anonymous>")

/-- The body of a call: returning ends it with a value, and an error is noted in the trace. -/
def catchReturn (settings : Settings) (name : Option Name) (x : Eval Cell) : Eval Cell := fun m =>
  match x m with
  | .error (.signal (.leave v)) after => .ok v after
  | .error (.signal (.error f)) after =>
    .error (.signal (.error
      (if settings.recordTrace then { f with trace := f.trace ++ [traceLine name] } else f))) after
  | r => r

/-! ## Ops over the evaluation of their parts -/

section Step
variable (settings : Settings) (eval : Cell → Eval Cell)

/-- Evaluates ops in order; yields the last result, or `last` if there is none. -/
def runAll (last : Cell) : List Cell → Eval Cell
  | [] => pure last
  | op :: ops => do
    let v ← eval op
    runAll v ops

/-- The results of ops in order. -/
def runEach : List Cell → Eval (List Cell)
  | [] => pure []
  | op :: ops => do
    let v ← eval op
    let vs ← runEach ops
    pure (v :: vs)

/-- Declares symbols as the results of the first ops and evaluates the rest. -/
def runBind : List Name → List Cell → Eval Cell
  | symbol :: symbols, op :: ops => do
    let v ← eval op
    declare symbol (named v symbol)
    runBind symbols ops
  | _, ops => runAll eval .nil ops

/-- Evaluates the branch of the first test that succeeds, or the default. -/
def runChoose : List Cell → Eval Cell
  | test :: branch :: rest => do
    let v ← eval test
    if v.isTruthy then eval branch else runChoose rest
  | [default] => eval default
  | [] => pure .nil

/-- Calls a closure, which is the cell `f`. -/
def callClosure (f : Cell) (c : Closure) (args : List Cell) : Eval Cell := do
  let params ← ofData c.paramNames
  if params.length ≠ args.length then
    signal (.ofText Code.arity s!"expected {params.length} arguments, got {args.length}")
  else
    let table ← ofData c.bindings
    let entries ← ofData table.toList
    let captured ← bindingsOf entries
    -- arguments hide the name of the closure, which hides what the closure captured
    let scope := match c.name with
      | some n => captured.insert n f
      | none => captured
    let body ← ofData c.body.cell
    catchReturn settings c.name (inScope (scope.insertAll (params.zip args)) (eval body))

/-- Applies a function to arguments. -/
def apply (f : Cell) (args : List Cell) : Eval Cell :=
  match f with
  | .core g => callCore g args
  | .fn c => callClosure settings eval f c args
  | f => signal (.ofText Code.cast (f.describe ++ " is not a function"))

end Step

end Eval

open Eval in
/-- Evaluates an op, with `eval` for its parts. -/
def Op.step (settings : Settings) (eval : Cell → Eval Cell) : Op → Eval Cell
  | .constant value => do
    charge Juice.constant
    ofData value.cell
  | .lookup symbol => do
    charge Juice.lookup
    resolve symbol
  | .sequence ops => do
    charge Juice.sequence
    runAll eval .nil (← opList ops)
  | .define symbol value => do
    charge Juice.define
    let op ← ofData value.cell
    let v ← eval op
    let v := named v symbol
    Eval.define symbol v
    pure v
  | .bind symbols ops => do
    charge Juice.bind
    let symbols ← symbolList symbols
    let ops ← opList ops
    if ops.length < symbols.length then refuse (.letOps symbols.length ops.length)
    else enclosed (runBind eval symbols ops)
  | .choose ops => do
    charge Juice.choose
    runChoose eval (← opList ops)
  | .invoke ops => do
    charge Juice.invoke
    match ← opList ops with
    | [] => refuse .functionOp
    | function :: args => do
      let f ← eval function
      let values ← runEach eval args
      apply settings eval f values
  | .lambda params body => do
    charge Juice.lambda
    let params ← ofData params.vec
    let captured ← captureScope
    let body ← ofData body.cell
    ofData (Closure.create params body captured none)

/-- Evaluates a cell that is an op, with at most `levels` ops nested in one another. -/
def Cell.eval (settings : Settings) : Nat → Cell → Eval Cell
  | 0, .op _ =>
    Eval.signal (.ofText Code.depth s!"depth limit {settings.maxDepth} reached")
  | levels + 1, .op o => Eval.rollback (o.step settings (Cell.eval settings levels))
  | _, c => Eval.refuse (.op c.describe)

end CellMachine
