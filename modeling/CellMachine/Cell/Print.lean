import CellMachine.Text.Quoted
import CellMachine.Vec.Basic

/-!
# Printed form

A value prints as the text of a literal: strings are quoted, blobs are hexadecimal, vectors stand
in square brackets, maps and the fields of records in braces, and ops in parentheses, with the ops
of a compound op listed without the brackets of the vector that holds them. A part that is known
by its hash only prints as the first eight digits of the hash; so does the inside of a vector of
which an element, or a node on the way to one, is not held.

`describe` is the text by which messages mention a value. It is short whatever the value: a small
value all of whose parts are written inside it prints in full, any other value prints as its kind,
its size and the first digits of its hash.
-/

namespace CellMachine

/-- What stands for a value that is not held. -/
def Hash.placeholder (h : Hash) : String := "#<" ++ h.short 8 ++ ">"

/-- The inside of a vector with the given hash whose elements print as `texts`, if all are held. -/
def elementsText (h : Hash) (texts : Option (List String)) : String :=
  match texts with
  | some ts => " ".intercalate ts
  | none => h.placeholder

mutual

/-- The printed form of a value. -/
def Cell.print : Cell → String
  | .nil => "nil"
  | .bool true => "true"
  | .bool false => "false"
  | .long n => toString n.toInt
  | .text s => Text.quote s.val
  | .blob b => "0x" ++ Bytes.toHex b.bytes
  | .symbol n => n.val
  | .keyword n => n.keywordText
  | .vector v => "[" ++ elementsText v.hash (vecTexts v) ++ "]"
  | .map entries => "\x7b" ++ ", ".intercalate (entryTexts entries) ++ "\x7d"
  | .record format fields =>
    "#" ++ format.name ++ " \x7b" ++ ", ".intercalate (fieldTexts format.keys fields) ++ "\x7d"
  | .op o => o.print
  | .core f => f.name
  | .fn ⟨params, body, _, _⟩ => "(fn " ++ params.print ++ " " ++ body.print ++ ")"

/-- The printed form of an op. -/
def Op.print : Op → String
  | .constant value => value.print
  | .lookup symbol => symbol.val
  | .define symbol value => "(def " ++ symbol.val ++ " " ++ value.print ++ ")"
  | .sequence ops => "(do " ++ refElementsText ops ++ ")"
  | .choose ops => "(cond " ++ refElementsText ops ++ ")"
  | .invoke ops => "(" ++ refElementsText ops ++ ")"
  | .bind symbols ops =>
    "(let [" ++ refElementsText symbols ++ "] " ++ refElementsText ops ++ ")"
  | .lambda params body => "(fn " ++ params.print ++ " " ++ body.print ++ ")"

/-- The printed form of a part. -/
def Ref.print : Ref → String
  | .embedded _ _ c | .direct _ _ c | .cached _ _ c => c.print
  | .remote h => h.placeholder

/-- The elements of the vector behind a reference, without brackets if all of them are held. -/
def refElementsText : Ref → String
  | .embedded _ _ c | .direct _ _ c | .cached _ _ c =>
    match c with
    | .vector v =>
      match vecTexts v with
      | some ts => " ".intercalate ts
      | none => "[" ++ v.hash.placeholder ++ "]"
    | c => c.print
  | .remote h => h.placeholder

/-- The printed elements of a vector, if all of them are held. -/
def vecTexts : Vec → Option (List String)
  | .chunk items => heldTexts items
  | .tailed _ front items => do
    let before ← refTexts front
    let after ← heldTexts items
    some (before ++ after)
  | .tree _ children => refsTexts children

/-- The printed elements of the vector behind a reference, if all of them are held. -/
def refTexts : Ref → Option (List String)
  | .embedded _ _ (.vector v) => vecTexts v
  | .direct _ _ (.vector v) => vecTexts v
  | .cached _ _ (.vector v) => vecTexts v
  | _ => none

/-- The printed elements of the vectors behind references, if all of them are held. -/
def refsTexts : List Ref → Option (List String)
  | [] => some []
  | r :: rs => do
    let first ← refTexts r
    let rest ← refsTexts rs
    some (first ++ rest)

/-- The printed forms of parts, if all of them are held. -/
def heldTexts : List Ref → Option (List String)
  | [] => some []
  | .embedded _ _ c :: rs => (heldTexts rs).map (c.print :: ·)
  | .direct _ _ c :: rs => (heldTexts rs).map (c.print :: ·)
  | .cached _ _ c :: rs => (heldTexts rs).map (c.print :: ·)
  | .remote _ :: _ => none

/-- The printed entries of a map. -/
def entryTexts : List (Ref × Ref) → List String
  | [] => []
  | (k, v) :: es => (k.print ++ " " ++ v.print) :: entryTexts es

/-- The printed fields of a record, each behind its key. -/
def fieldTexts : List String → List Ref → List String
  | key :: keys, r :: rs => (":" ++ key ++ " " ++ r.print) :: fieldTexts keys rs
  | _, _ => []

end

/-- A cell shown for inspection. -/
def Cell.inspect (c : Cell) : String := "Cell(" ++ c.print ++ ")"

/-- A reference shown for inspection: how it holds its cell, and what it knows of it. -/
def Ref.inspect : Ref → String
  | .embedded _ _ c => "Ref::Embedded(" ++ c.print ++ ")"
  | .direct h _ _ => "Ref::Direct(" ++ h.inspect ++ ")"
  | .cached h _ _ => "Ref::Soft(" ++ h.inspect ++ ", loaded=true)"
  | .remote h => "Ref::Soft(" ++ h.inspect ++ ", loaded=false)"

/-! ## Descriptions -/

mutual

/-- True of a cell all of whose parts, at any depth, are written inside it. -/
def Cell.selfContained : Cell → Bool
  | .vector v => v.selfContained
  | .map entries => entriesSelfContained entries
  | .record _ fields => refsSelfContained fields
  | .op o => o.selfContained
  | .fn ⟨params, body, env, _⟩ =>
    params.selfContained && body.selfContained && env.selfContained
  | _ => true

@[inherit_doc Cell.selfContained] def Vec.selfContained : Vec → Bool
  | .chunk items => refsSelfContained items
  | .tailed _ front items => refsSelfContained items && front.selfContained
  | .tree _ children => refsSelfContained children

@[inherit_doc Cell.selfContained] def Op.selfContained : Op → Bool
  | .constant r | .define _ r | .sequence r | .choose r | .invoke r => r.selfContained
  | .bind symbols ops => symbols.selfContained && ops.selfContained
  | .lambda params body => params.selfContained && body.selfContained
  | .lookup _ => true

/-- True of an embedded reference to a self-contained cell. -/
def Ref.selfContained : Ref → Bool
  | .embedded _ _ c => c.selfContained
  | _ => false

/-- True if every reference of a list is embedded and leads to a self-contained cell. -/
def refsSelfContained : List Ref → Bool
  | [] => true
  | r :: rs => r.selfContained && refsSelfContained rs

/-- True if all keys and values are embedded and self-contained. -/
def entriesSelfContained : List (Ref × Ref) → Bool
  | [] => true
  | (k, v) :: es => k.selfContained && v.selfContained && entriesSelfContained es

end

/-- The greatest size of a printed form that a message repeats. -/
def maxDescription : Nat := 64

/-- The size of a value as a description gives it. -/
def Cell.sizeText : Cell → String
  | .vector v => s!" of {v.count} elements"
  | .map entries => s!" of {entries.length} entries"
  | .text s => s!" of {s.val.utf8ByteSize} bytes"
  | .blob b => s!" of {b.bytes.length} bytes"
  | _ => ""

/-- A value by its kind, its size and the first digits of its hash. -/
def Cell.summaryText (c : Cell) : String :=
  "#<" ++ c.kind ++ c.sizeText ++ " " ++ c.hash.short 8 ++ ">"

/-- The text by which a message mentions a value. -/
def Cell.describe (c : Cell) : String :=
  if c.isEmbeddable && c.selfContained then
    let printed := c.print
    if printed.utf8ByteSize ≤ maxDescription then printed else c.summaryText
  else c.summaryText

end CellMachine
