import CellMachine.Hash.Blake3

/-!
# Content hashes

The identity of a value is the BLAKE3 digest of its encoding. A `Hash` is any byte string of that
width; hashes are ordered by their bytes, from the first to the last.

Main statements: `ofHex?_toHex` (a hash reads back from its text) and `lt_trichotomy` (the order is
total, so a list that increases in it has one arrangement).
-/

namespace CellMachine

/-- The number of bytes in a hash. -/
def hashSize : Nat := 32

/-- A content hash: thirty-two bytes. -/
structure Hash where
  /-- The bytes, first to last. -/
  bytes : Bytes
  size_eq : bytes.length = hashSize
  deriving DecidableEq

namespace Hash

/-- The hash of the content `bs`. -/
def digest (bs : Bytes) : Hash := ⟨Blake3.digest bs, Blake3.length_digest bs⟩

/-- The hash that has exactly these bytes, if their number is right. -/
def ofBytes? (bs : Bytes) : Option Hash :=
  if h : bs.length = hashSize then some ⟨bs, h⟩ else none

@[simp] theorem ofBytes?_bytes (h : Hash) : ofBytes? h.bytes = some h := by
  simp [ofBytes?, h.size_eq]

theorem bytes_injective {a b : Hash} (h : a.bytes = b.bytes) : a = b := by
  cases a; cases b; cases h; rfl

/-- Mixes the bytes, for tables that are keyed by hashes. -/
instance : Hashable Hash where
  hash h := h.bytes.foldl (fun acc b => acc * 257 + b.toUInt64) 7

/-! ## Order -/

instance : LT Hash where
  lt a b := a.bytes < b.bytes

instance (a b : Hash) : Decidable (a < b) := inferInstanceAs (Decidable (a.bytes < b.bytes))

theorem lt_irrefl (a : Hash) : ¬ a < a := List.lt_irrefl a.bytes

theorem lt_trans {a b c : Hash} (h : a < b) (h' : b < c) : a < c := List.lt_trans h h'

theorem ne_of_lt {a b : Hash} (h : a < b) : a ≠ b := fun heq => lt_irrefl b (heq ▸ h)

theorem lt_trichotomy (a b : Hash) : a < b ∨ a = b ∨ b < a := by
  rcases Decidable.em (a.bytes < b.bytes) with h | h
  · exact .inl h
  rcases Decidable.em (b.bytes < a.bytes) with h' | h'
  · exact .inr (.inr h')
  · exact .inr (.inl (bytes_injective (List.le_antisymm (List.not_lt.1 h') (List.not_lt.1 h))))

/-! ## Text -/

/-- Sixty-four lower-case hexadecimal digits. -/
def toHex (h : Hash) : String := Bytes.toHex h.bytes

/-- Reads sixty-four hexadecimal digits of either case. -/
def ofHex? (s : String) : Option Hash := (Bytes.ofHex? s).bind ofBytes?

@[simp] theorem ofHex?_toHex (h : Hash) : ofHex? h.toHex = some h := by simp [ofHex?, toHex]

/-- The first `n` digits of the text, which stand for a hash where it is shown in short. -/
def short (h : Hash) (n : Nat) : String := String.ofList (h.bytes.hexDigits.take n)

/-- A hash shown for inspection: its first sixteen digits. -/
def inspect (h : Hash) : String := "Hash(" ++ h.short 16 ++ ")"

end Hash

end CellMachine
