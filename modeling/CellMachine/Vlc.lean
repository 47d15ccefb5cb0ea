import CellMachine.Error

/-!
# Variable-length integers

A signed 64-bit integer is written in groups of seven bits, high group first. Every byte except
the last has its top bit set, and the leading group carries the sign in its own top bit. Only the
shortest spelling is a code word: a leading group that merely repeats the sign is refused.

`encode` writes a code word, `read` takes one off the front of a byte string, and `length` says in
advance how many bytes `encode` will write.
-/

namespace CellMachine.Vlc

/-- The greatest number of bytes in a code word. -/
def maxLength : Nat := 10

/-! ## Writing -/

/-- The seven low bits of an integer. -/
def lowBits (x : Int) : UInt8 := UInt8.ofNat (x % 128).toNat

/-- An integer in the range of one group with its sign. -/
def Short (x : Int) : Prop := -64 ≤ x ∧ x < 64

instance (x : Int) : Decidable (Short x) := inferInstanceAs (Decidable (_ ∧ _))

/-- The groups above the last one, each marked as followed by another. -/
def leading (x : Int) : Bytes :=
  if Short x then [0x80 ||| lowBits x] else leading (x / 128) ++ [0x80 ||| lowBits x]
termination_by x.natAbs
decreasing_by simp only [Short] at *; omega

/-- The code word of an integer. -/
def encodeInt (x : Int) : Bytes :=
  if Short x then [lowBits x] else leading (x / 128) ++ [lowBits x]

/-- The code word of a 64-bit integer. -/
def encode (x : Int64) : Bytes := encodeInt x.toInt

/-- The code word of a count. -/
def encodeNat (n : Nat) : Bytes := encodeInt n

/-- The number of binary digits of a natural number. -/
def bitLength (n : Nat) : Nat := if n = 0 then 0 else Nat.log2 n + 1

/-- The number of groups that hold an integer and its sign. -/
def length (x : Int64) : Nat :=
  let magnitude := if x.toInt < 0 then (-x.toInt - 1).toNat else x.toInt.toNat
  (bitLength magnitude + 1 + 6) / 7

/-! ## Reading -/

/-- The value of a leading byte: seven bits, the highest of which counts negatively. -/
def leadValue (b : UInt8) : Int :=
  let low := b.toNat % 128
  if low < 64 then low else low - 128

/-- True of a byte that another byte of the same code word follows. -/
def continues (b : UInt8) : Bool := 0x80 ≤ b

/-- True when the leading byte `first` only repeats the sign of the byte after it. -/
def redundant (first second : UInt8) : Bool :=
  (first.toNat % 128 == 0 && second.toNat % 128 < 64) ||
    (first.toNat % 128 == 127 && 64 ≤ second.toNat % 128)

/-- Reads the groups that follow one or more groups of value `acc`; at most `left` may follow. -/
def readGroups : Nat → Int → Bytes → Except FormatError (Int × Bytes)
  | 0, _, _ => .error .vlcTooLong
  | _ + 1, _, [] => .error .truncated
  | left + 1, acc, b :: bs =>
    let acc := acc * 128 + (b.toNat % 128 : Nat)
    if continues b then readGroups left acc bs else .ok (acc, bs)

/-- Reads the groups of one code word, of whatever size its value has. -/
def readInt : Bytes → Except FormatError (Int × Bytes)
  | [] => .error .truncated
  | first :: bs =>
    if continues first then
      match bs with
      | [] => .error .truncated
      | second :: _ =>
        if redundant first second then .error (.nonCanonical .redundantLead)
        else readGroups (maxLength - 1) (leadValue first) bs
    else .ok (leadValue first, bs)

/-- Takes one code word off the front of a byte string: its value and the rest. -/
def read (bs : Bytes) : Except FormatError (Int64 × Bytes) := do
  let (x, rest) ← readInt bs
  if Int64.minValue.toInt ≤ x ∧ x ≤ Int64.maxValue.toInt then .ok (Int64.ofInt x, rest)
  else .error .vlcOverflow

/-- Takes the code word of a count of at most `max` off the front of a byte string. -/
def readCount (max : Nat) (bs : Bytes) : Except FormatError (Nat × Bytes) := do
  let (x, rest) ← read bs
  if x.toInt < 0 then .error (.malformed (.negativeCount x.toInt))
  else if max < x.toInt.toNat then .error (.malformed (.countExceeds x.toInt.toNat max))
  else .ok (x.toInt.toNat, rest)

end CellMachine.Vlc
