import CellMachine.Error

/-!
# Names

A name is a string of at least one and at most sixty-four bytes. Symbols, which are bound in
environments, and keywords, which stand for themselves, are named by the same rule; only the
wording of a refusal tells them apart. Names are ordered by their characters, which is also the
order of their UTF-8 bytes.

Main statement: `ofString?_eq_some_iff` (which strings are names).
-/

namespace CellMachine

/-- The greatest number of bytes in a name. -/
def maxNameSize : Nat := 64

/-- A string that may serve as a name. -/
structure Name where
  /-- The characters of the name. -/
  val : String
  nonempty : 0 < val.utf8ByteSize
  fits : val.utf8ByteSize ≤ maxNameSize
  deriving DecidableEq

namespace Name

/-- The name that consists of these characters, if its size is right. -/
def ofString? (s : String) : Option Name :=
  if h : 0 < s.utf8ByteSize ∧ s.utf8ByteSize ≤ maxNameSize then some ⟨s, h.1, h.2⟩ else none

theorem ofString?_eq_some_iff {s : String} {n : Name} : ofString? s = some n ↔ n.val = s := by
  constructor
  · intro h
    unfold ofString? at h
    split at h
    · cases h; rfl
    · cases h
  · rintro rfl
    simp [ofString?, n.nonempty, n.fits]

@[simp] theorem ofString?_val (n : Name) : ofString? n.val = some n := ofString?_eq_some_iff.2 rfl

theorem val_injective {a b : Name} (h : a.val = b.val) : a = b := by
  cases a; cases b; cases h; rfl

/-- The name of a value of the given kind, or the reason why there is none. -/
def ofString (kind : String) (s : String) : Except DataError Name :=
  match ofString? s with
  | some n => .ok n
  | none => .error (.violation (.nameSize kind maxNameSize s.utf8ByteSize))

/-- A string as the name of a symbol. -/
def ofSymbol : String → Except DataError Name := ofString "symbol"

/-- A string as the name of a keyword. -/
def ofKeyword : String → Except DataError Name := ofString "keyword"

instance : LT Name where
  lt a b := a.val < b.val

instance (a b : Name) : Decidable (a < b) := inferInstanceAs (Decidable (a.val < b.val))

/-- Names in increasing order. -/
def sort (names : List Name) : List Name := names.mergeSort fun a b => !decide (b < a)

/-- A keyword as it is printed. -/
def keywordText (n : Name) : String := ":" ++ n.val

end Name

end CellMachine
