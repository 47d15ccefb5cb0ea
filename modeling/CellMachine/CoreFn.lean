/-!
# Core functions

The functions that every program can name without defining them. A core function is written as
its number, and looked up by its name; what it does is the business of the evaluator.

Main statements: `ofId?_id` and `ofName?_name` (numbers and names identify a core function).
-/

namespace CellMachine

/-- The built-in functions, in the order of their numbers. -/
inductive CoreFn where
  | add
  | sub
  | mul
  | eq
  | lt
  | gt
  | not
  | vector
  | count
  | nth
  | conj
  | concat
  | fail
  | halt
  | return
  | hash
  | encoding
  deriving DecidableEq, Repr

namespace CoreFn

/-- Every core function, in the order of their numbers. -/
def all : List CoreFn :=
  [.add, .sub, .mul, .eq, .lt, .gt, .not, .vector, .count, .nth, .conj, .concat, .fail, .halt,
   .return, .hash, .encoding]

/-- The number under which a core function is encoded. -/
def id : CoreFn → UInt8
  | .add => 0
  | .sub => 1
  | .mul => 2
  | .eq => 3
  | .lt => 4
  | .gt => 5
  | .not => 6
  | .vector => 7
  | .count => 8
  | .nth => 9
  | .conj => 10
  | .concat => 11
  | .fail => 12
  | .halt => 13
  | .return => 14
  | .hash => 15
  | .encoding => 16

/-- The name under which a core function is looked up and printed. -/
def name : CoreFn → String
  | .add => "+"
  | .sub => "-"
  | .mul => "*"
  | .eq => "="
  | .lt => "<"
  | .gt => ">"
  | .not => "not"
  | .vector => "vector"
  | .count => "count"
  | .nth => "nth"
  | .conj => "conj"
  | .concat => "concat"
  | .fail => "fail"
  | .halt => "halt"
  | .return => "return"
  | .hash => "hash"
  | .encoding => "encoding"

/-- The core function with the given number. -/
def ofId? (n : UInt8) : Option CoreFn := all.find? fun f => f.id == n

/-- The core function with the given name. -/
def ofName? (s : String) : Option CoreFn := all.find? fun f => f.name == s

@[simp] theorem ofId?_id (f : CoreFn) : ofId? f.id = some f := by cases f <;> rfl

@[simp] theorem ofName?_name (f : CoreFn) : ofName? f.name = some f := by cases f <;> rfl

end CoreFn

end CellMachine
