import CellMachine.Text.Unprintable

/-!
# Quoted text

The printed form of a string: its characters between double quotes. Tab, carriage return, line
feed, the quote, the backslash and the null character have two-character escapes; other
unprintable characters, and characters that extend a grapheme, are written as their code point in
hexadecimal between braces; every other character stands for itself.
-/

namespace CellMachine.Text

/-- The hexadecimal digits of a number, without leading zeros. -/
def hexNumber (n : Nat) : List Char := Nat.toDigits 16 n

/-- The form of one character between quotes. -/
def quoteChar (c : Char) : List Char :=
  if c = '\t' then ['\\', 't']
  else if c = '\r' then ['\\', 'r']
  else if c = '\n' then ['\\', 'n']
  else if c = '"' then ['\\', '"']
  else if c = '\\' then ['\\', '\\']
  else if c.toNat = 0 then ['\\', '0']
  else if isExtender c || isUnprintable c then
    ['\\', 'u', '\x7b'] ++ hexNumber c.toNat ++ ['\x7d']
  else [c]

/-- A string between quotes. -/
def quote (s : String) : String :=
  String.ofList ('"' :: s.toList.flatMap quoteChar ++ ['"'])

end CellMachine.Text
