import CellMachine.CoreFn
import CellMachine.Name
import CellMachine.Payload
import CellMachine.RecordFormat

/-!
# Cells and references

A cell is an immutable value. Compound cells hold their parts through references, and a reference
always knows the hash of the cell it stands for:

* an *embedded* reference holds a cell that is small enough to be written inside its parent;
* a *direct* reference holds a larger cell, which the parent writes as a hash;
* a *cached* reference is known to stand for stored content and holds a copy of it;
* a *remote* reference is a hash and nothing else.

A reference that holds a cell has worked out two things about it once and for all: its hash, and
whether it is *loaded*, which it is if every reference in it holds a cell that is loaded in turn.
Parts can be shared many times over, so neither is worked out anew by walking through them.

Vectors, ops and closures are types of their own inside the same family, so that what works on
vectors takes a `Vec`. A vector is a single chunk of at most 32 items, a tail of items behind a
front that is a multiple of 32 long, or a tree of such fronts.

Main statement: `cell_eq_ok_iff` (a reference leads to the cell that it holds).
-/

namespace CellMachine

mutual

/-- An immutable value. -/
inductive Cell where
  /-- The absence of a value. -/
  | nil
  /-- A truth value. -/
  | bool (b : Bool)
  /-- A 64-bit integer. -/
  | long (n : Int64)
  /-- A string. -/
  | text (s : Text)
  /-- Raw bytes. -/
  | blob (b : Blob)
  /-- A name that programs bind. -/
  | symbol (name : Name)
  /-- A name that stands for itself. -/
  | keyword (name : Name)
  /-- A sequence of cells. -/
  | vector (v : Vec)
  /-- Keys with their values, in the order of the key hashes. -/
  | map (entries : List (Ref × Ref))
  /-- Fields that a format names. -/
  | record (format : RecordFormat) (fields : List Ref)
  /-- A step of a program. -/
  | op (o : Op)
  /-- A built-in function. -/
  | core (f : CoreFn)
  /-- A function that a program made. -/
  | fn (c : Closure)

/-- A sequence of cells, cut into chunks. -/
inductive Vec where
  /-- The items themselves. -/
  | chunk (items : List Ref)
  /-- A front, itself a vector, and the items after it; `count` elements in all. -/
  | tailed (count : Nat) (front : Ref) (items : List Ref)
  /-- Subvectors one after another; `count` elements in all. -/
  | tree (count : Nat) (children : List Ref)

/-- A step of a program. -/
inductive Op where
  /-- Yields its value. -/
  | constant (value : Ref)
  /-- Evaluates an op and binds the result for the rest of the transaction. -/
  | define (symbol : Name) (value : Ref)
  /-- Evaluates a vector of ops in order and yields the last result. -/
  | sequence (ops : Ref)
  /-- Binds symbols to the results of the first ops, then evaluates the rest. -/
  | bind (symbols ops : Ref)
  /-- Tests and branches in turn, with an optional default at the end. -/
  | choose (ops : Ref)
  /-- Yields what a symbol is bound to. -/
  | lookup (symbol : Name)
  /-- Applies the result of the first op to the results of the others. -/
  | invoke (ops : Ref)
  /-- Yields a closure over the current scope. -/
  | lambda (params body : Ref)

/-- A function value: its parameters, its body, the bindings it was created among, and the name
by which its body can call it. -/
structure Closure where
  /-- The vector of the parameters, which are symbols. -/
  params : Ref
  /-- The op that a call evaluates. -/
  body : Ref
  /-- The map of the bindings. -/
  env : Ref
  /-- The name, if the closure has been bound to one. -/
  name : Option Name

/-- A handle from a cell to one of its parts. -/
inductive Ref where
  /-- A small cell, which is written inside the parent. -/
  | embedded (hash : Hash) (loaded : Bool) (cell : Cell)
  /-- A larger cell, which the parent writes as a hash and which need not be stored anywhere. -/
  | direct (hash : Hash) (loaded : Bool) (cell : Cell)
  /-- A copy of stored content. -/
  | cached (hash : Hash) (loaded : Bool) (cell : Cell)
  /-- Content that is known by its hash only. -/
  | remote (hash : Hash)

end

instance : Inhabited Cell := ⟨.nil⟩

/-! ## References -/

namespace Ref

/-- The hash of the cell that a reference stands for. -/
def hash : Ref → Hash
  | embedded h _ _ | direct h _ _ | cached h _ _ | remote h => h

/-- True of a reference that holds a loaded cell. -/
def loaded : Ref → Bool
  | embedded _ l _ | direct _ l _ | cached _ l _ => l
  | remote _ => false

/-- The cell that a reference holds, if it holds one. -/
def held? : Ref → Option Cell
  | embedded _ _ c | direct _ _ c | cached _ _ c => some c
  | remote _ => none

/-- The cell that a reference holds, or the fact that it is missing. -/
def cell : Ref → Except DataError Cell
  | embedded _ _ c | direct _ _ c | cached _ _ c => .ok c
  | remote h => .error (.missing h)

/-- True of a reference whose cell is written inside the parent. -/
def isEmbedded : Ref → Bool
  | embedded _ _ _ => true
  | _ => false

/-- True of a reference that holds a cell which need not be stored anywhere. -/
def isDirect : Ref → Bool
  | embedded _ _ _ | direct _ _ _ => true
  | _ => false

/-- True of a reference to stored content. -/
def isSoft : Ref → Bool
  | cached _ _ _ | remote _ => true
  | _ => false

/-- Forgets a cached copy. References that own their cell keep it. -/
def evict : Ref → Ref
  | cached h _ _ => .remote h
  | r => r

theorem cell_eq_ok_iff {r : Ref} {c : Cell} : r.cell = .ok c ↔ r.held? = some c := by
  cases r <;> simp [cell, held?]

end Ref

/-! ## Kinds -/

namespace Cell

/-- The word for the kind of a value. -/
def kind : Cell → String
  | nil => "nil"
  | bool _ => "boolean"
  | long _ => "long"
  | text _ => "string"
  | blob _ => "blob"
  | symbol _ => "symbol"
  | keyword _ => "keyword"
  | vector _ => "vector"
  | map _ => "map"
  | record _ _ => "record"
  | op _ => "op"
  | core _ => "core function"
  | fn _ => "function"

/-- The byte that starts the encoding of a value. -/
def tag : Cell → UInt8
  | nil => 0x00
  | bool true => 0xb1
  | bool false => 0xb0
  | long _ => 0x09
  | text _ => 0x30
  | blob _ => 0x31
  | symbol _ => 0x32
  | keyword _ => 0x33
  | vector _ => 0x80
  | map _ => 0x82
  | record format _ => format.tag
  | op _ => 0xc0
  | core _ => 0xcd
  | fn _ => 0xcf

/-- True of `nil`. -/
def isNil : Cell → Bool
  | nil => true
  | _ => false

/-- True of every value except `nil` and `false`. -/
def isTruthy : Cell → Bool
  | nil | bool false => false
  | _ => true

/-- True of vectors. -/
def isVector : Cell → Bool
  | vector _ => true
  | _ => false

/-- True of maps. -/
def isMap : Cell → Bool
  | map _ => true
  | _ => false

/-- True of ops. -/
def isOp : Cell → Bool
  | op _ => true
  | _ => false

/-- The number, of a long. -/
def long? : Cell → Option Int64
  | long n => some n
  | _ => none

/-- The name, of a symbol. -/
def symbol? : Cell → Option Name
  | symbol n => some n
  | _ => none

/-- The name, of a keyword. -/
def keyword? : Cell → Option Name
  | keyword n => some n
  | _ => none

/-- The sequence, of a vector. -/
def vector? : Cell → Option Vec
  | vector v => some v
  | _ => none

/-- The sequence of a vector; a value of another kind is refused. -/
def expectVector : Cell → Except DataError Vec
  | vector v => .ok v
  | c => .error (.format (.malformed (.wrongTag "vector" c.tag)))

end Cell

/-- The byte that follows the tag of an op. -/
def Op.typeByte : Op → UInt8
  | .invoke _ => 0
  | .choose _ => 1
  | .constant _ => 2
  | .define _ _ => 3
  | .sequence _ => 4
  | .lambda _ _ => 5
  | .bind _ _ => 6
  | .lookup _ => 7

/-- The number of elements of a vector. -/
def Vec.count : Vec → Nat
  | .chunk items => items.length
  | .tailed count _ _ | .tree count _ => count

end CellMachine
