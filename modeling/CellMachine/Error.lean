import CellMachine.Hash

/-!
# Errors of the data layer

What can go wrong with bytes, with values and with the references between them. Each error is a
cause; `message` gives its wording. Values that a message shows are kept as their printed text.
-/

namespace CellMachine

/-- Ways in which a well-formed byte string is not the one canonical form of a value. -/
inductive Noncanonical where
  /-- The leading byte of an integer only repeats the sign. -/
  | redundantLead
  /-- A child too large to be written inside its parent is written there. -/
  | oversizedChild
  /-- The keys of a map do not increase. -/
  | keysOutOfOrder
  /-- A child small enough to be written inside its parent stands behind a hash. -/
  | embeddableByHash
  deriving DecidableEq, Repr

/-- Ways in which bytes that read as numbers, tags and text do not make a value. -/
inductive Malformation where
  /-- A count is below zero. -/
  | negativeCount (n : Int)
  /-- A count is above its limit. -/
  | countExceeds (n max : Nat)
  /-- A name is empty or too long. -/
  | nameLength (n : Nat)
  /-- A byte other than the tag of a symbol stands where a symbol is due. -/
  | symbolTag (found : UInt8)
  /-- Neither a name nor its absence stands at the end of a closure. -/
  | closureNameTag (found : UInt8)
  /-- A reference stands where a value is due. -/
  | bareReference
  /-- A record has the wrong number of fields. -/
  | recordArity (format : String) (arity got : Nat)
  /-- A child vector does not have the number of elements that its parent implies. -/
  | childCount (got expected : Nat)
  /-- A value of another kind stands where a vector, a map or a record is due. -/
  | wrongTag (expected : String) (found : UInt8)
  /-- A value of another kind stands where the parent needs a certain kind. -/
  | wrongKind (expected : String) (got : String)
  deriving DecidableEq, Repr

/-- Malformed, truncated, oversized or non-canonical bytes. -/
inductive FormatError where
  /-- The input ends inside a value. -/
  | truncated
  /-- Bytes are left after the value. -/
  | trailingBytes (n : Nat)
  /-- No kind of value has this tag. -/
  | unknownTag (tag : UInt8)
  /-- No kind of op has this type byte. -/
  | unknownOpType (type : UInt8)
  /-- No core function has this number. -/
  | unknownCoreFn (id : UInt8)
  /-- An integer has more than ten bytes. -/
  | vlcTooLong
  /-- An integer does not fit 64 bits. -/
  | vlcOverflow
  /-- The bytes are not the canonical form of a value. -/
  | nonCanonical (reason : Noncanonical)
  /-- An encoding is longer than the limit. -/
  | tooLong (length limit : Nat)
  /-- Text is not UTF-8. -/
  | invalidUtf8
  /-- The length in front of a message is not positive. -/
  | badMessageLength (n : Int)
  /-- Content does not have the hash it is filed under. -/
  | hashMismatch (expected actual : Hash)
  /-- The parts do not make a value. -/
  | malformed (reason : Malformation)
  deriving DecidableEq

/-- Limits and requirements that a value under construction does not meet. -/
inductive Violation where
  /-- A string has more bytes than a string may have. -/
  | stringSize (got limit : Nat)
  /-- A blob has more bytes than a blob may have. -/
  | blobSize (got limit : Nat)
  /-- A name is empty or too long. -/
  | nameSize (kind : String) (limit got : Nat)
  /-- The encoding of a map is too long. -/
  | mapSize (got limit : Nat)
  /-- A record is given the wrong number of fields. -/
  | recordArity (format : String) (arity got : Nat)
  /-- A value that is not an op stands where an op is due. -/
  | notAnOp (got : String)
  /-- A let has fewer ops than symbols. -/
  | letOps (symbols ops : Nat)
  /-- An invocation has no function. -/
  | emptyInvoke
  deriving DecidableEq, Repr

/-- What can go wrong with values and references. -/
inductive DataError where
  /-- Bytes or structure are malformed. -/
  | format (e : FormatError)
  /-- A value cannot be built from these parts. -/
  | violation (v : Violation)
  /-- A value is known by its hash only. -/
  | missing (h : Hash)
  /-- A position is at or past the end. -/
  | outOfBounds (index count : Nat)
  deriving DecidableEq

instance : Coe FormatError DataError := ⟨.format⟩

/-! ## Wording -/

/-- Two lower-case hexadecimal digits after `0x`. -/
def byteText (b : UInt8) : String := "0x" ++ Bytes.toHex [b]

/-- The wording of a non-canonical form. -/
def Noncanonical.message : Noncanonical → String
  | .redundantLead => "redundant leading VLC byte"
  | .oversizedChild => "oversized child written inline"
  | .keysOutOfOrder => "map keys out of order"
  | .embeddableByHash => "embeddable value referenced by hash"

/-- The wording of a record of the wrong size. -/
def arityMessage (format : String) (arity got : Nat) : String :=
  s!"{format} record needs {arity} fields, got {got}"

/-- The wording of a malformation. -/
def Malformation.message : Malformation → String
  | .negativeCount n => s!"negative count {n}"
  | .countExceeds n max => s!"count {n} exceeds {max}"
  | .nameLength n => s!"name length {n}"
  | .symbolTag found => "expected symbol, found tag " ++ byteText found
  | .closureNameTag found => "closure name tag " ++ byteText found
  | .bareReference => "reference outside a parent"
  | .recordArity format arity got => arityMessage format arity got
  | .childCount got expected => s!"vector child has {got} elements, expected {expected}"
  | .wrongTag expected found => s!"expected {expected}, got tag " ++ byteText found
  | .wrongKind expected got => s!"expected {expected}, got {got}"

/-- The wording of a format error. -/
def FormatError.message : FormatError → String
  | .truncated => "truncated input"
  | .trailingBytes n => s!"{n} trailing bytes after encoded value"
  | .unknownTag tag => "unknown tag " ++ byteText tag
  | .unknownOpType type => "unknown op type " ++ byteText type
  | .unknownCoreFn id => s!"unknown core function id {id}"
  | .vlcTooLong => "VLC integer longer than 10 bytes"
  | .vlcOverflow => "VLC integer out of 64-bit range"
  | .nonCanonical reason => "non-canonical encoding: " ++ reason.message
  | .tooLong length limit => s!"encoding length {length} exceeds limit {limit}"
  | .invalidUtf8 => "invalid UTF-8 text"
  | .badMessageLength n => s!"bad message length {n}"
  | .hashMismatch expected actual =>
    "hash mismatch: expected " ++ expected.toHex ++ ", got " ++ actual.toHex
  | .malformed reason => "invalid structure: " ++ reason.message

/-- The wording of a violated limit or requirement. -/
def Violation.message : Violation → String
  | .stringSize got limit => s!"string of {got} bytes exceeds {limit}"
  | .blobSize got limit => s!"blob of {got} bytes exceeds {limit}"
  | .nameSize kind limit got => s!"{kind} name must be 1..={limit} bytes, got {got}"
  | .mapSize got limit => s!"map encoding of {got} bytes exceeds {limit}"
  | .recordArity format arity got => arityMessage format arity got
  | .notAnOp got => "expected op, got " ++ got
  | .letOps symbols ops => s!"let binds {symbols} symbols but has {ops} ops"
  | .emptyInvoke => "invoke needs a function op"

/-- The wording of a data error. -/
def DataError.message : DataError → String
  | .format e => "format: " ++ e.message
  | .violation v => "validation: " ++ v.message
  | .missing h => "missing data: " ++ h.toHex
  | .outOfBounds index count => s!"index {index} out of bounds for count {count}"

end CellMachine
