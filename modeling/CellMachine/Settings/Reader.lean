import CellMachine.Bytes
import CellMachine.Settings

/-!
# Reading settings

Settings are written as a JSON object with the members `juice_limit`, `max_depth` and
`record_trace`, or as a JSON array of their values in that order. Members may be left out, in
which case they keep their usual value, but none may be unknown or given twice. Numbers are
unsigned 64-bit integers without sign, fraction or exponent.

* `Settings.ofJson?` reads settings, and has no answer for any other text.
-/

namespace CellMachine.Settings

/-! ## Lexical structure -/

/-- True of the characters that may stand between tokens. -/
def isBlank (c : Char) : Bool := c == ' ' || c == '\t' || c == '\n' || c == '\r'

/-- What follows the blanks at the front. -/
def skipBlanks (cs : List Char) : List Char := cs.dropWhile isBlank

/-- The character with a code of four hexadecimal digits. A code that is half of a pair is
refused, since no member name has a character that needs a pair. -/
def escapedChar? (a b c d : Char) : Option Char := do
  let w ← Bytes.digitValue? a
  let x ← Bytes.digitValue? b
  let y ← Bytes.digitValue? c
  let z ← Bytes.digitValue? d
  let n := ((w * 16 + x) * 16 + y) * 16 + z
  if 0xd800 ≤ n ∧ n < 0xe000 then none else some (Char.ofNat n)

/-- The character that a letter after a backslash stands for. -/
def escape? : Char → Option Char
  | '"' => some '"'
  | '\\' => some '\\'
  | '/' => some '/'
  | 'b' => some '\x08'
  | 'f' => some '\x0c'
  | 'n' => some '\n'
  | 'r' => some '\r'
  | 't' => some '\t'
  | _ => none

/-- The rest of a string behind its opening quote, and what follows the closing one. -/
def readString : List Char → Option (List Char × List Char)
  | '"' :: cs => some ([], cs)
  | '\\' :: 'u' :: a :: b :: c :: d :: cs => do
    let ch ← escapedChar? a b c d
    let (rest, after) ← readString cs
    some (ch :: rest, after)
  | '\\' :: e :: cs => do
    let ch ← escape? e
    let (rest, after) ← readString cs
    some (ch :: rest, after)
  | c :: cs =>
    if c < ' ' || c == '\\' then none
    else do
      let (rest, after) ← readString cs
      some (c :: rest, after)
  | [] => none

/-- An unsigned integer in decimal, without leading zeros. -/
def readNumber (cs : List Char) : Option (Nat × List Char) :=
  let digits := cs.takeWhile Char.isDigit
  let n := digits.foldl (fun n d => n * 10 + (d.toNat - 48)) 0
  match digits with
  | [] => none
  | '0' :: _ :: _ => none
  | _ => if n < UInt64.size then some (n, cs.dropWhile Char.isDigit) else none

/-- A truth value. -/
def readBool : List Char → Option (Bool × List Char)
  | 't' :: 'r' :: 'u' :: 'e' :: cs => some (true, cs)
  | 'f' :: 'a' :: 'l' :: 's' :: 'e' :: cs => some (false, cs)
  | _ => none

/-- A certain character behind blanks. -/
def expect (c : Char) (cs : List Char) : Option (List Char) :=
  match skipBlanks cs with
  | d :: rest => if d = c then some rest else none
  | [] => none

/-! ## Members -/

/-- The members that settings have. -/
inductive Member where
  /-- The supply of juice. -/
  | juiceLimit
  /-- The nesting of ops. -/
  | maxDepth
  /-- Whether traces are kept. -/
  | recordTrace
  deriving DecidableEq

/-- The members in the order of an array. -/
def members : List Member := [.juiceLimit, .maxDepth, .recordTrace]

/-- The name of a member. -/
def Member.name : Member → String
  | .juiceLimit => "juice_limit"
  | .maxDepth => "max_depth"
  | .recordTrace => "record_trace"

/-- The settings with a member set to the value at the front of a text. -/
def readMember (s : Settings) (m : Member) (cs : List Char) : Option (Settings × List Char) :=
  let cs := skipBlanks cs
  match m with
  | .juiceLimit => (readNumber cs).map fun (n, rest) => ({ s with juiceLimit := n }, rest)
  | .maxDepth => (readNumber cs).map fun (n, rest) => ({ s with maxDepth := n }, rest)
  | .recordTrace => (readBool cs).map fun (b, rest) => ({ s with recordTrace := b }, rest)

/-- The rest of an array in which the members `left` are still to come. -/
def readItems (s : Settings) (first : Bool) : List Member → List Char →
    Option (Settings × List Char)
  | [], cs => (expect ']' cs).map fun rest => (s, rest)
  | m :: left, cs =>
    match expect ']' cs with
    | some rest => some (s, rest)
    | none => do
      let cs ← if first then some cs else expect ',' cs
      let (s, cs) ← readMember s m cs
      readItems s false left cs

/-- The rest of an object in which at most `more` further members of `left` may come. -/
def readMembers (s : Settings) (first : Bool) (left : List Member) : Nat → List Char →
    Option (Settings × List Char)
  | 0, cs => (expect '\x7d' cs).map fun rest => (s, rest)
  | more + 1, cs =>
    match expect '\x7d' cs with
    | some rest => some (s, rest)
    | none => do
      let cs ← if first then some cs else expect ',' cs
      let cs ← expect '"' cs
      let (key, cs) ← readString cs
      let m ← left.find? fun m => m.name.toList == key
      let cs ← expect ':' cs
      let (s, cs) ← readMember s m cs
      readMembers s false (left.erase m) more cs

/-- The settings that a JSON text describes. -/
def ofJson? (text : String) : Option Settings := do
  let (s, rest) ← match skipBlanks text.toList with
    | '[' :: cs => readItems {} true members cs
    | '\x7b' :: cs => readMembers {} true members members.length cs
    | _ => none
  if (skipBlanks rest).isEmpty then some s else none

-- an empty object stands for the usual settings
example : ofJson? "\x7b\x7d" = some {} := by decide

end CellMachine.Settings
