import CellMachine.Error

/-!
# Strings and blobs

The payloads of bounded size that a value can hold: text of at most 4096 bytes, and raw bytes of
at most that number.

Main statements: `ofString_eq_ok_iff` and `Blob.ofBytes_eq_ok_iff` (what fits is accepted as it
is), and `clip_eq_self` (clipping leaves text that fits alone).
-/

namespace CellMachine

/-- The greatest number of bytes in a string or in a blob. -/
def maxPayloadSize : Nat := 4096

/-- A string that is short enough to be a value. -/
structure Text where
  /-- The characters. -/
  val : String
  fits : val.utf8ByteSize ≤ maxPayloadSize
  deriving DecidableEq

namespace Text

/-- The string, if it fits. -/
def ofString? (s : String) : Option Text :=
  if h : s.utf8ByteSize ≤ maxPayloadSize then some ⟨s, h⟩ else none

/-- The string, or the reason why it is no value. -/
def ofString (s : String) : Except DataError Text :=
  match ofString? s with
  | some t => .ok t
  | none => .error (.violation (.stringSize s.utf8ByteSize maxPayloadSize))

theorem ofString_eq_ok_iff {s : String} {t : Text} : ofString s = .ok t ↔ t.val = s := by
  constructor
  · intro h
    unfold ofString ofString? at h
    split at h
    · next heq =>
      split at heq
      · cases heq; cases h; rfl
      · cases heq
    · cases h
  · rintro rfl
    simp [ofString, ofString?, t.fits]

/-! ## Clipping -/

/-- The characters that come first and whose UTF-8 forms together fit `budget` bytes. -/
def firstWithin : Nat → List Char → List Char
  | _, [] => []
  | budget, c :: cs =>
    if c.utf8Size ≤ budget then c :: firstWithin (budget - c.utf8Size) cs else []

theorem utf8ByteSize_cons (c : Char) (cs : List Char) :
    (String.ofList (c :: cs)).utf8ByteSize = c.utf8Size + (String.ofList cs).utf8ByteSize := by
  simp only [String.utf8ByteSize, String.toByteArray_ofList]
  rw [List.utf8Encode_cons, ByteArray.size_append, List.utf8Encode_singleton,
    List.size_toByteArray, String.length_utf8EncodeChar]

theorem utf8ByteSize_firstWithin (budget : Nat) (cs : List Char) :
    (String.ofList (firstWithin budget cs)).utf8ByteSize ≤ budget := by
  induction cs generalizing budget with
  | nil => simp [firstWithin]
  | cons c cs ih =>
    rw [firstWithin]
    split
    · have := ih (budget - c.utf8Size)
      rw [utf8ByteSize_cons]
      omega
    · simp

theorem firstWithin_eq_self {budget : Nat} {cs : List Char}
    (h : (String.ofList cs).utf8ByteSize ≤ budget) : firstWithin budget cs = cs := by
  induction cs generalizing budget with
  | nil => rfl
  | cons c cs ih =>
    rw [utf8ByteSize_cons] at h
    rw [firstWithin, if_pos (by omega), ih (by omega)]

/-- As much of the string as fits, cut between characters. -/
def clip (s : String) : Text :=
  ⟨String.ofList (firstWithin maxPayloadSize s.toList), utf8ByteSize_firstWithin _ _⟩

theorem clip_eq_self (t : Text) : clip t.val = t := by
  cases t with
  | mk val fits =>
    have : firstWithin maxPayloadSize val.toList = val.toList :=
      firstWithin_eq_self (by simpa using fits)
    simp [clip, this]

end Text

/-- A byte string that is short enough to be a value. -/
structure Blob where
  /-- The bytes. -/
  bytes : Bytes
  fits : bytes.length ≤ maxPayloadSize
  deriving DecidableEq

namespace Blob

/-- The byte string, if it fits. -/
def ofBytes? (bs : Bytes) : Option Blob :=
  if h : bs.length ≤ maxPayloadSize then some ⟨bs, h⟩ else none

/-- The byte string, or the reason why it is no value. -/
def ofBytes (bs : Bytes) : Except DataError Blob :=
  match ofBytes? bs with
  | some b => .ok b
  | none => .error (.violation (.blobSize bs.length maxPayloadSize))

theorem ofBytes_eq_ok_iff {bs : Bytes} {b : Blob} : ofBytes bs = .ok b ↔ b.bytes = bs := by
  constructor
  · intro h
    unfold ofBytes ofBytes? at h
    split at h
    · next heq =>
      split at heq
      · cases heq; cases h; rfl
      · cases heq
    · cases h
  · rintro rfl
    simp [ofBytes, ofBytes?, b.fits]

end Blob

end CellMachine
