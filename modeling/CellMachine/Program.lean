import CellMachine.Table

/-!
# Programs

Programs are values: ops hold ops, and a closure holds its parameters, its body and the bindings
it was created among. The constructors of this module check the parts of an op that they are
given, so that what they build can be evaluated.

* `Op.ofSequence`, `ofBind`, `ofChoice` and `ofInvocation` put lists of ops into one op.
* `Closure.create` makes a function value, and `Closure.rename` gives it the name by which its
  body can call it.
-/

namespace CellMachine

/-- Refuses a cell that is not an op. -/
def Cell.requireOp (c : Cell) : Except DataError Unit :=
  if c.isOp then .ok () else .error (.violation (.notAnOp c.print))

/-- A reference to the vector of a list of ops. -/
def opVector (ops : List Cell) : Except DataError Ref := do
  ops.forM Cell.requireOp
  .ok (.of (Vec.of ops).cell)

/-- A reference to the vector of a list of symbols. -/
def symbolVector (symbols : List Name) : Ref := .of (Vec.of (symbols.map .symbol)).cell

/-- The symbol that a cell is. -/
def Cell.requireSymbol (c : Cell) : Except DataError Name :=
  match c with
  | .symbol n => .ok n
  | c => .error (.format (.malformed (.wrongKind "symbol" c.print)))

namespace Op

/-- The op that yields a value. -/
def ofConstant (value : Cell) : Cell := .op (.constant (.of value))

/-- The op that looks a symbol up. -/
def ofLookup (symbol : Name) : Cell := .op (.lookup symbol)

/-- The op that binds a symbol to the result of an op. -/
def ofDefinition (symbol : Name) (op : Cell) : Except DataError Cell := do
  op.requireOp
  .ok (.op (.define symbol (.of op)))

/-- The op that evaluates ops in order. -/
def ofSequence (ops : List Cell) : Except DataError Cell := do
  .ok (.op (.sequence (← opVector ops)))

/-- The op that binds symbols to the results of the first ops and evaluates the rest. -/
def ofBind (symbols : List Name) (ops : List Cell) : Except DataError Cell := do
  if ops.length < symbols.length then
    .error (.violation (.letOps symbols.length ops.length))
  else .ok (.op (.bind (symbolVector symbols) (← opVector ops)))

/-- The op that chooses among branches. -/
def ofChoice (ops : List Cell) : Except DataError Cell := do
  .ok (.op (.choose (← opVector ops)))

/-- The op that applies the result of the first op to the results of the rest. -/
def ofInvocation (ops : List Cell) : Except DataError Cell := do
  if ops.isEmpty then .error (.violation .emptyInvoke)
  else .ok (.op (.invoke (← opVector ops)))

/-- The op that yields a closure. -/
def ofLambda (params : List Name) (body : Cell) : Except DataError Cell := do
  body.requireOp
  .ok (.op (.lambda (symbolVector params) (.of body)))

end Op

namespace Closure

/-- The symbols in a vector of parameters; the first missing or foreign element is reported. -/
def requireSymbols (params : Vec) : Except DataError (List Name) :=
  params.traverse Cell.requireSymbol

/-- A function value. -/
def create (params : Vec) (body : Cell) (env : Table) (name : Option Name) :
    Except DataError Cell := do
  body.requireOp
  let _ ← requireSymbols params
  .ok (.fn ⟨.of params.cell, .of body, .of env.cell, name⟩)

/-- The vector of the parameters. -/
def paramVec (c : Closure) : Except DataError Vec := c.params.vec

/-- The parameters. -/
def paramNames (c : Closure) : Except DataError (List Name) := do requireSymbols (← c.paramVec)

/-- The bindings that a closure was created among. -/
def bindings (c : Closure) : Except DataError Table := do Table.ofCell (← c.env.cell)

/-- The number of parameters. -/
def arity (c : Closure) : Except DataError Nat := do .ok (← c.paramVec).count

/-- The closure under another name. -/
def rename (c : Closure) (name : Name) : Closure := { c with name := some name }

end Closure

end CellMachine
