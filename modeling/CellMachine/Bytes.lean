/-!
# Byte strings

A byte string is a list of octets. This module holds the two ways a byte string is read as
text: as hexadecimal digits, two to a byte, and as UTF-8.

Main statements: `ofHex?_toHex` (the hexadecimal form of a byte string reads back as that byte
string) and `toText?_eq_some_iff` (a byte string is the UTF-8 form of at most one string).
-/

namespace CellMachine

/-- A sequence of octets. -/
abbrev Bytes := List UInt8

namespace Bytes

/-! ## Hexadecimal text -/

/-- The lower-case digit for a value below sixteen. -/
def digitChar (n : Nat) : Char :=
  if n < 10 then Char.ofNat (48 + n) else Char.ofNat (87 + n)

/-- The value of a hexadecimal digit of either case. -/
def digitValue? (c : Char) : Option Nat :=
  if '0' ≤ c ∧ c ≤ '9' then some (c.toNat - 48)
  else if 'a' ≤ c ∧ c ≤ 'f' then some (c.toNat - 87)
  else if 'A' ≤ c ∧ c ≤ 'F' then some (c.toNat - 55)
  else none

/-- The hexadecimal digits of a byte string, in order. -/
def hexDigits : Bytes → List Char
  | [] => []
  | b :: bs => digitChar (b.toNat / 16) :: digitChar (b.toNat % 16) :: hexDigits bs

/-- The bytes that a list of hexadecimal digits spells, if it has even length. -/
def ofHexDigits? : List Char → Option Bytes
  | [] => some []
  | [_] => none
  | c :: d :: rest => do
    let hi ← digitValue? c
    let lo ← digitValue? d
    let bs ← ofHexDigits? rest
    some (UInt8.ofNat (16 * hi + lo) :: bs)

/-- Lower-case hexadecimal text, two digits to a byte. -/
def toHex (bs : Bytes) : String := String.ofList bs.hexDigits

/-- Reads hexadecimal text of either case. -/
def ofHex? (s : String) : Option Bytes := ofHexDigits? s.toList

theorem digitValue?_digitChar : ∀ n < 16, digitValue? (digitChar n) = some n := by decide

theorem ofHexDigits?_hexDigits (bs : Bytes) : ofHexDigits? bs.hexDigits = some bs := by
  induction bs with
  | nil => rfl
  | cons b bs ih =>
    have hb := b.toNat_lt
    rw [hexDigits, ofHexDigits?, digitValue?_digitChar _ (by omega),
      digitValue?_digitChar _ (by omega), ih]
    simp only [Option.bind_eq_bind, Option.bind_some, Option.some.injEq, List.cons.injEq, and_true]
    rw [Nat.div_add_mod, UInt8.ofNat_toNat]

@[simp] theorem ofHex?_toHex (bs : Bytes) : ofHex? bs.toHex = some bs := by
  simp [ofHex?, toHex, ofHexDigits?_hexDigits]

/-- A byte string shown for inspection. -/
def inspect (bs : Bytes) : String := "Blob(0x" ++ bs.toHex ++ ")"

/-! ## Slices -/

/-- The bytes from `start` to just before `stop`, if these are positions in order. -/
def slice? (bs : Bytes) (start stop : Nat) : Option Bytes :=
  if start ≤ stop ∧ stop ≤ bs.length then some ((bs.drop start).take (stop - start)) else none

/-! ## UTF-8 -/

/-- The UTF-8 form of a string. -/
def ofText (s : String) : Bytes := s.toByteArray.data.toList

/-- The string that a byte string spells in UTF-8, if it is well formed. -/
def toText? (bs : Bytes) : Option String := String.fromUTF8? bs.toByteArray

@[simp] theorem length_ofText (s : String) : (ofText s).length = s.utf8ByteSize := rfl

theorem toByteArray_ofText (s : String) : (ofText s).toByteArray = s.toByteArray := by
  apply ByteArray.ext
  apply Array.toList_inj.1
  rw [List.toList_data_toByteArray, ofText]

/-- Well-formed UTF-8 is exactly the image of `ofText`, and each string has one spelling. -/
theorem toText?_eq_some_iff {bs : Bytes} {s : String} : bs.toText? = some s ↔ bs = ofText s := by
  constructor
  · intro h
    unfold toText? String.fromUTF8? at h
    split at h
    · next hv =>
      have hs : String.fromUTF8 bs.toByteArray _ = s := Option.some.inj h
      rw [← hs, ofText, String.fromUTF8, List.toList_data_toByteArray]
    · cases h
  · rintro rfl
    unfold toText? String.fromUTF8?
    have hv : (ofText s).toByteArray.IsValidUTF8 := by
      rw [toByteArray_ofText]
      exact s.isValidUTF8
    rw [dif_pos hv]
    refine congrArg some ?_
    apply String.toByteArray_inj.1
    exact toByteArray_ofText s

@[simp] theorem toText?_ofText (s : String) : (ofText s).toText? = some s :=
  toText?_eq_some_iff.2 rfl

end Bytes

end CellMachine
