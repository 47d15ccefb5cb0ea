import CellMachine.Cell.Parts
import CellMachine.Vlc

/-!
# Canonical encoding

Every value has one encoding, which starts with the tag of its kind. A part is written inside its
parent if the reference to it is embedded; every other part is written as the reference tag and
the hash of the part. The hash of a cell is the digest of its encoding, and two cells are the same
cell if their hashes agree.

`Ref.of` chooses how a new parent refers to a cell: embedded if the encoding has at most 140 bytes,
directly otherwise.

Main statements: `Ref.hash_of` and `Ref.held?_of` (the reference to a cell knows its hash and holds
it), and `Cell.head?_encode` (an encoding starts with the tag of its kind).
-/

namespace CellMachine

/-- The greatest length of an encoding that is written inside a parent. -/
def maxEmbedded : Nat := 140

/-- The greatest length of the encoding of any cell. -/
def maxEncoding : Nat := 8191

/-- The byte in front of a hash that stands for a part. -/
def refTag : UInt8 := 0x20

/-- The byte in front of the name of a symbol. -/
def symbolTag : UInt8 := 0x32

/-- The byte in front of the name of a keyword. -/
def keywordTag : UInt8 := 0x33

/-- The byte that stands for the absence of a name. -/
def absentTag : UInt8 := 0x00

/-- A name behind its tag and its size. -/
def encodeName (tag : UInt8) (n : Name) : Bytes :=
  tag :: UInt8.ofNat n.val.utf8ByteSize :: Bytes.ofText n.val

/-- Bytes behind a tag and their number. -/
def encodeBytes (tag : UInt8) (bs : Bytes) : Bytes := tag :: (Vlc.encodeNat bs.length ++ bs)

/-- The name of a closure, or its absence. -/
def encodeClosureName : Option Name → Bytes
  | some n => encodeName symbolTag n
  | none => [absentTag]

mutual

/-- The canonical encoding of a cell. -/
def Cell.encode : Cell → Bytes
  | .nil => [0x00]
  | .bool true => [0xb1]
  | .bool false => [0xb0]
  | .long n => 0x09 :: Vlc.encode n
  | .text s => encodeBytes 0x30 (Bytes.ofText s.val)
  | .blob b => encodeBytes 0x31 b.bytes
  | .symbol n => encodeName symbolTag n
  | .keyword n => encodeName keywordTag n
  | .vector v => 0x80 :: v.encode
  | .map entries => 0x82 :: (Vlc.encodeNat entries.length ++ encodeEntries entries)
  | .record format fields => format.tag :: (Vlc.encodeNat fields.length ++ encodeRefs fields)
  | .op o => 0xc0 :: o.encode
  | .core f => [0xcd, f.id]
  | .fn c => 0xcf :: c.encode

/-- The count of a vector and its parts. -/
def Vec.encode : Vec → Bytes
  | .chunk items => Vlc.encodeNat items.length ++ encodeRefs items
  | .tailed count front items => Vlc.encodeNat count ++ (encodeRefs items ++ front.encode)
  | .tree count children => Vlc.encodeNat count ++ encodeRefs children

/-- The type of an op and its parts. -/
def Op.encode : Op → Bytes
  | .invoke ops => 0 :: ops.encode
  | .choose ops => 1 :: ops.encode
  | .constant value => 2 :: value.encode
  | .define symbol value => 3 :: (encodeName symbolTag symbol ++ value.encode)
  | .sequence ops => 4 :: ops.encode
  | .lambda params body => 5 :: (params.encode ++ body.encode)
  | .bind symbols ops => 6 :: (symbols.encode ++ ops.encode)
  | .lookup symbol => 7 :: encodeName symbolTag symbol

/-- The parts of a closure and its name. -/
def Closure.encode : Closure → Bytes
  | ⟨params, body, env, name⟩ =>
    params.encode ++ (body.encode ++ (env.encode ++ encodeClosureName name))

/-- A part as it is written in its parent. -/
def Ref.encode : Ref → Bytes
  | .embedded _ _ c => c.encode
  | .direct h _ _ | .cached h _ _ | .remote h => refTag :: h.bytes

/-- Parts one after another. -/
def encodeRefs : List Ref → Bytes
  | [] => []
  | r :: rs => r.encode ++ encodeRefs rs

/-- Keys and values in turn. -/
def encodeEntries : List (Ref × Ref) → Bytes
  | [] => []
  | (k, v) :: es => k.encode ++ (v.encode ++ encodeEntries es)

end

namespace Cell

/-- An encoding starts with the tag of its kind. -/
theorem head?_encode (c : Cell) : c.encode.head? = some c.tag := by
  cases c with
  | bool b => cases b <;> simp [encode, tag]
  | _ => simp [encode, encodeBytes, encodeName, symbolTag, keywordTag, tag]

theorem encode_ne_nil (c : Cell) : c.encode ≠ [] := fun h => by
  have head := c.head?_encode
  simp [h] at head

/-- The identity of a cell: the digest of its encoding. -/
def hash (c : Cell) : Hash := .digest c.encode

/-- Two cells are the same if their hashes are. -/
def same (a b : Cell) : Bool := a.hash == b.hash

/-- True of a cell that is written inside its parents. -/
def isEmbeddable (c : Cell) : Bool := c.encode.length ≤ maxEmbedded

end Cell

namespace Ref

theorem encode_of_not_embedded {r : Ref} (h : r.isEmbedded = false) :
    r.encode = refTag :: r.hash.bytes := by
  cases r with
  | embedded => cases h
  | _ => rw [Ref.encode, Ref.hash]

theorem encode_of_embedded {r : Ref} (h : r.isEmbedded = true) :
    ∃ c, r.held? = some c ∧ r.encode = c.encode := by
  cases r with
  | embedded _ _ c => exact ⟨c, rfl, by rw [Ref.encode]⟩
  | _ => cases h

/-- The reference by which a new parent holds a cell. -/
def of (c : Cell) : Ref :=
  let bs := c.encode
  if bs.length ≤ maxEmbedded then embedded (.digest bs) c.loaded c
  else direct (.digest bs) c.loaded c

@[simp] theorem hash_of (c : Cell) : (of c).hash = c.hash := by
  simp only [of]
  split <;> rfl

@[simp] theorem held?_of (c : Cell) : (of c).held? = some c := by
  simp only [of]
  split <;> rfl

@[simp] theorem cell_of (c : Cell) : (of c).cell = .ok c := cell_eq_ok_iff.2 (held?_of c)

@[simp] theorem loaded_of (c : Cell) : (of c).loaded = c.loaded := by
  simp only [of]
  split <;> rfl

@[simp] theorem isEmbedded_of (c : Cell) : (of c).isEmbedded = c.isEmbeddable := by
  simp only [of, Cell.isEmbeddable]
  split <;> simp_all [isEmbedded]

end Ref

end CellMachine
