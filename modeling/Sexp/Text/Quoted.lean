/-!
# Texts in double quotes

Two ways to write a text between double quotes. `literal` is what the reader takes back and escapes only
what would end or change the text; `visible` is meant for the eye and also escapes every character
that would not show.
-/

namespace Sexp.Quoted

/-- Writes a text between double quotes, each of its characters as `spell` has it. -/
def write (spell : Char → List Char) (text : List Char) : List Char :=
  '"' :: (text.flatMap spell ++ ['"'])

/-- The spelling of a character in a string literal. -/
def spellLiteral : Char → List Char
  | '"' => ['\\', '"']
  | '\\' => ['\\', '\\']
  | '\n' => ['\\', 'n']
  | '\r' => ['\\', 'r']
  | '\t' => ['\\', 't']
  | c => [c]

/-- The number of a character in braces, in lower-case hexadecimal digits. -/
def spellNumber (c : Char) : List Char :=
  ['\\', 'u', '\x7b'] ++ Nat.toDigits 16 c.toNat ++ ['\x7d']

/-- The spelling of a character that is to be seen, where `unprintable` tells which ones would not show. -/
def spellVisible (unprintable : Char → Bool) : Char → List Char
  | '\x00' => ['\\', '0']
  | '\t' => ['\\', 't']
  | '\r' => ['\\', 'r']
  | '\n' => ['\\', 'n']
  | '"' => ['\\', '"']
  | '\\' => ['\\', '\\']
  | c => if unprintable c then spellNumber c else [c]

def literal (text : String) : List Char := write spellLiteral text.toList

def visible (unprintable : Char → Bool) (text : String) : List Char :=
  write (spellVisible unprintable) text.toList

end Sexp.Quoted
