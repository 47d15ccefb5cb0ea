import CellMachine.Cell.Basic

/-!
# Bindings

Symbols with the values they are bound to, in the order of the symbols. Binding a symbol again
replaces its value.

Main statement: `find?_insert` (a symbol has the value it was last bound to).
-/

namespace CellMachine

/-- Symbols and their values, in the order of the symbols; no symbol occurs twice. -/
structure Bindings where
  /-- The symbols with their values. -/
  entries : List (Name × Cell)

namespace Bindings

/-- No bindings. -/
def empty : Bindings := ⟨[]⟩

instance : Inhabited Bindings := ⟨empty⟩

/-- Bindings in a list with one symbol bound. -/
def insertEntry (symbol : Name) (value : Cell) : List (Name × Cell) → List (Name × Cell)
  | [] => [(symbol, value)]
  | (s, v) :: es =>
    if s = symbol then (symbol, value) :: es
    else if s < symbol then (s, v) :: insertEntry symbol value es
    else (symbol, value) :: (s, v) :: es

/-- The bindings with one symbol bound. -/
def insert (b : Bindings) (symbol : Name) (value : Cell) : Bindings :=
  ⟨insertEntry symbol value b.entries⟩

/-- The value in a list of bindings. -/
def findEntry (symbol : Name) : List (Name × Cell) → Option Cell
  | [] => none
  | (s, v) :: es => if s = symbol then some v else findEntry symbol es

/-- What a symbol is bound to. -/
def find? (b : Bindings) (symbol : Name) : Option Cell := findEntry symbol b.entries

theorem findEntry_insertEntry (s t : Name) (v : Cell) (es : List (Name × Cell)) :
    findEntry t (insertEntry s v es) = if s = t then some v else findEntry t es := by
  induction es with
  | nil => rfl
  | cons e es ih =>
    obtain ⟨s', v'⟩ := e
    rw [insertEntry]
    split
    · next h =>
      subst h
      simp only [findEntry]
      split <;> rfl
    · next h =>
      split
      · simp only [findEntry, ih]
        split
        · next h' => rw [if_neg (fun hs => h (h'.trans hs.symm))]
        · rfl
      · simp only [findEntry]

theorem find?_insert (b : Bindings) (s t : Name) (v : Cell) :
    (b.insert s v).find? t = if s = t then some v else b.find? t :=
  findEntry_insertEntry s t v b.entries

/-- The bindings with several symbols bound, in order. -/
def insertAll (b : Bindings) (es : List (Name × Cell)) : Bindings :=
  es.foldl (fun b e => b.insert e.1 e.2) b

end Bindings

end CellMachine
