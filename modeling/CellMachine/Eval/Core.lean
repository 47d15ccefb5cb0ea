import CellMachine.Eval.Juice
import CellMachine.Eval.Machine
import CellMachine.Table
import CellMachine.Vec.Slice

/-!
# Core functions at work

What the core functions cost and what they yield. Arithmetic is that of 64-bit integers, modulo
`2 ^ 64`. Where a vector is wanted, `nil` stands for the empty one. Arguments are checked in
order, and the first that does not fit is mentioned in the error.

* `CoreFn.price` is the juice of a call and `CoreFn.run` its result.
-/

namespace CellMachine

namespace CoreFn

/-! ## Prices -/

/-- The number of elements of a vector; other values have none. -/
def elementCount (c : Cell) : Nat := (c.vector?.map Vec.count).getD 0

/-- The sum of some numbers. -/
def total (ns : List Nat) : Nat := ns.foldr (· + ·) 0

/-- The juice of a call. What builds a vector is paid by the elements it adds, what hashes by the
bytes it reads. -/
def price (f : CoreFn) (args : List Cell) : Nat :=
  match f with
  | vector => Juice.build args.length
  | conj => Juice.build (args.length - 1)
  | concat => Juice.build (total ((args.drop 1).map elementCount))
  | hash | encoding => Juice.hash (total (args.map fun c => c.encode.length))
  | _ => Juice.simple

/-! ## Refusals -/

/-- The error of a call with the wrong number of arguments. -/
def arityError (f : CoreFn) (expected : String) (got : Nat) : Exit :=
  .signal (.ofText Code.arity (f.name ++ " expects " ++ expected ++ s!" arguments, got {got}"))

/-- The error of a call with an argument of the wrong kind. -/
def castError (f : CoreFn) (arg : Cell) : Exit :=
  .signal (.ofText Code.cast (f.name ++ " cannot use " ++ arg.describe))

/-- Data that a call needs, or a fault. -/
def access : Except DataError α → Except Exit α
  | .ok a => .ok a
  | .error e => .error (.fault (.data e))

/-- The only argument of a call. -/
def only (f : CoreFn) : List Cell → Except Exit Cell
  | [x] => .ok x
  | args => .error (f.arityError "1" args.length)

/-- The two arguments of a call. -/
def both (f : CoreFn) : List Cell → Except Exit (Cell × Cell)
  | [x, y] => .ok (x, y)
  | args => .error (f.arityError "2" args.length)

/-- The argument of a call that may have none, which stands for `nil`. -/
def optional (f : CoreFn) : List Cell → Except Exit Cell
  | [] => .ok .nil
  | [x] => .ok x
  | args => .error (f.arityError "0 or 1" args.length)

/-- Arguments that are numbers. -/
def longs (f : CoreFn) (args : List Cell) : Except Exit (List Int64) :=
  args.mapM fun
    | .long n => .ok n
    | c => .error (f.castError c)

/-- An argument that is a vector; `nil` is the empty one. -/
def sequence (f : CoreFn) : Cell → Except Exit Vec
  | .nil => .ok .empty
  | .vector v => .ok v
  | c => .error (f.castError c)

/-- A byte string as a value; too long a one is an error of the program. -/
def bytesCell (f : CoreFn) (bs : Bytes) : Except Exit Cell :=
  match Blob.ofBytes bs with
  | .ok b => .ok (.blob b)
  | .error (.violation v) =>
    .error (.signal (.ofText Code.argument (f.name ++ ": " ++ v.message)))
  | .error e => .error (.fault (.data e))

/-! ## Results -/

/-- True if a relation holds between each member of a list and the next. -/
def adjacent (r : α → α → Bool) : List α → Bool
  | x :: y :: rest => r x y && adjacent r (y :: rest)
  | _ => true

/-- A count as a value. -/
def countCell (n : Nat) : Cell := .long (Int64.ofNat n)

/-- The first argument less the others, or its negation if it is alone. -/
def runSub (f : CoreFn) (args : List Cell) : Except Exit Cell := do
  match ← f.longs args with
  | [] => .error (f.arityError "at least 1" 0)
  | [x] => .ok (.long (-x))
  | x :: xs => .ok (.long (xs.foldl (· - ·) x))

/-- The number of elements, entries or bytes of a value. -/
def runCount (f : CoreFn) (args : List Cell) : Except Exit Cell := do
  match ← f.only args with
  | .nil => .ok (countCell 0)
  | .vector v => .ok (countCell v.count)
  | .text s => .ok (countCell s.val.utf8ByteSize)
  | .blob b => .ok (countCell b.bytes.length)
  | .map entries => .ok (countCell entries.length)
  | c => .error (f.castError c)

/-- The element of a vector at a position. -/
def runNth (f : CoreFn) (args : List Cell) : Except Exit Cell := do
  let (coll, index) ← f.both args
  let v ← f.sequence coll
  match index with
  | .long i =>
    if i.toInt < 0 ∨ (v.count : Int) ≤ i.toInt then
      .error (.signal (.ofText Code.bounds
        (s!"index {i.toInt} out of bounds for count {v.count}")))
    else access (v.get i.toInt.toNat)
  | c => .error (f.castError c)

/-- A vector with elements added at its end. -/
def runConj (f : CoreFn) (args : List Cell) : Except Exit Cell := do
  match args with
  | [] => .error (f.arityError "at least 1" 0)
  | coll :: items =>
    let v ← f.sequence coll
    let v ← access (items.foldlM Vec.push v)
    .ok v.cell

/-- The elements of vectors, one vector after another. -/
def runConcat (f : CoreFn) (args : List Cell) : Except Exit Cell := do
  let v ← args.foldlM (fun acc x => do
    let w ← f.sequence x
    access (acc.append w)) Vec.empty
  .ok v.cell

/-- Raises an error: without a message, with one, or with a code and a message. -/
def runFail (f : CoreFn) (args : List Cell) : Except Exit Cell :=
  match args with
  | [] => .error (.signal (.ofValue Code.assert .nil))
  | [message] => .error (.signal (.ofValue Code.assert message))
  | [.keyword code, message] => .error (.signal (.ofValue code message))
  | [code, _] => .error (f.castError code)
  | args => .error (f.arityError "0 to 2" args.length)

/-- The result of a call. -/
def run (f : CoreFn) (args : List Cell) : Except Exit Cell :=
  match f with
  | add => do .ok (.long ((← f.longs args).foldl (· + ·) 0))
  | mul => do .ok (.long ((← f.longs args).foldl (· * ·) 1))
  | sub => f.runSub args
  | eq => .ok (.bool (adjacent (· == ·) (args.map Cell.hash)))
  | lt => do .ok (.bool (adjacent (fun x y => decide (x < y)) (← f.longs args)))
  | gt => do .ok (.bool (adjacent (fun x y => decide (y < x)) (← f.longs args)))
  | not => do .ok (.bool (!(← f.only args).isTruthy))
  | vector => .ok (Vec.of args).cell
  | count => f.runCount args
  | nth => f.runNth args
  | conj => f.runConj args
  | concat => f.runConcat args
  | fail => f.runFail args
  | halt => do .error (.signal (.halt (← f.optional args)))
  | .return => do .error (.signal (.leave (← f.optional args)))
  | hash => do f.bytesCell (← f.only args).hash.bytes
  | encoding => do f.bytesCell (← f.only args).encode

end CoreFn

namespace Eval

/-- Pays for a call of a core function and makes it. -/
def callCore (f : CoreFn) (args : List Cell) : Eval Cell := do
  charge (f.price args)
  ofExcept (f.run args)

end Eval

end CellMachine
