import EmLang.Text.Printable

/-!
Quoted text: a text between double quotes on one line, in which every character is either shown as
it is or written as an escape.
-/

namespace EmLang.Text

/-- The escape that names a character by its code point in hexadecimal. -/
def codePointEscape (c : Char) : List Char :=
  ['\\', 'u', '\x7b'] ++ Nat.toDigits 16 c.toNat ++ ['\x7d']

/-- A character as it stands in quoted text. -/
def quoteChar (c : Char) : List Char :=
  if c = '\x00' then ['\\', '0']
  else if c = '\t' then ['\\', 't']
  else if c = '\r' then ['\\', 'r']
  else if c = '\n' then ['\\', 'n']
  else if c = '"' ∨ c = '\\' then ['\\', c]
  else if isExtender c ∨ ¬ isPrintable c then codePointEscape c
  else [c]

def quote (cs : List Char) : List Char := '"' :: (cs.flatMap quoteChar ++ ['"'])

def quoted (s : String) : String := String.ofList (quote s.toList)

end EmLang.Text
