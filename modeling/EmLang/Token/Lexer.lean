import EmLang.Text.Alphabetic
import EmLang.Text.Blank
import EmLang.Text.Bytes
import EmLang.Token

/-!
Reading tokens. The first character of what is left decides which rule reads on, and each rule says
what token it found and how many more characters belong to it. So the tokens tile the text: none is
empty but the one that marks the end, and what is left after each is shorter.
-/

namespace EmLang.Token

open Text

/-- The number that a list of decimal digits stands for. -/
def decimal (digits : List Char) : Nat :=
  digits.foldl (fun n d => 10 * n + (d.toNat - '0'.toNat)) 0

/-- Digits make a number if it fits 64 bits with sign. -/
def numberKind (digits : List Char) : TokenKind :=
  if decimal digits ≤ 9223372036854775807 then .number (Int64.ofNat (decimal digits)) else .numberOutOfRange

/-- What a backslash and a character stand for inside a string. A pair that is no escape stands for
itself. -/
def unescape : Char → List Char
  | 'n' => ['\n']
  | 't' => ['\t']
  | 'r' => ['\r']
  | '0' => ['\x00']
  | '\\' => ['\\']
  | '"' => ['"']
  | c => ['\\', c]

/-- The value of a string and the number of characters up to and with its closing quote, from what
follows the opening one. Without a closing quote there is no value and everything is read. -/
def stringRest : List Char → Option (List Char) × Nat
  | [] => (none, 0)
  | '"' :: _ => (some [], 1)
  | ['\\'] => (none, 1)
  | '\\' :: c :: cs =>
    let (value, n) := stringRest cs
    (value.map (unescape c ++ ·), n + 2)
  | c :: cs =>
    let (value, n) := stringRest cs
    (value.map (c :: ·), n + 1)

/-- The number of characters up to and with the end of a block comment, from what follows its
opening. -/
def blockCommentRest : List Char → Nat
  | [] => 0
  | '*' :: '/' :: _ => 2
  | _ :: cs => blockCommentRest cs + 1

def isIdentifierStart (c : Char) : Bool := isAlphabetic c || c = '_'

def isIdentifierPart (c : Char) : Bool := isAlphanumeric c || c = '_'

/-- The number of leading characters in a class. -/
def runLength (p : Char → Bool) (cs : List Char) : Nat := (cs.takeWhile p).length

/-- A sign of two characters if `next` follows, and of one otherwise. -/
def orLonger (next : Char) (long short : TokenKind) : List Char → TokenKind × Nat
  | [] => (short, 0)
  | c :: _ => if c = next then (long, 1) else (short, 0)

/-- What follows a slash: a comment to the end of the line, a block comment, or nothing that belongs
to it. -/
def slashRest : List Char → TokenKind × Nat
  | '/' :: cs => (.blank, runLength (· ≠ '\n') cs + 1)
  | '*' :: cs => (.blank, blockCommentRest cs + 1)
  | _ => (.slash, 0)

def sign (c : Char) (cs : List Char) : TokenKind × Nat :=
  match c with
  | '+' => (.plus, 0)
  | '*' => (.asterisk, 0)
  | '%' => (.percent, 0)
  | '(' => (.leftParen, 0)
  | ')' => (.rightParen, 0)
  | '\x7b' => (.openBrace, 0)
  | '\x7d' => (.closeBrace, 0)
  | ',' => (.comma, 0)
  | ':' => (.colon, 0)
  | ';' => (.semicolon, 0)
  | '-' => orLonger '>' .arrow .minus cs
  | '=' => orLonger '=' .equalsEquals .equals cs
  | '<' => orLonger '=' .lessOrEqual .lessThan cs
  | '>' => orLonger '=' .greaterOrEqual .greaterThan cs
  | '!' => orLonger '=' .notEquals .bad cs
  | '/' => slashRest cs
  | _ => (.bad, 0)

/-- The kind of the token that begins with `c`, and how many characters of `cs` belong to it. -/
def scan (c : Char) (cs : List Char) : TokenKind × Nat :=
  if c.isDigit then
    (numberKind (c :: cs.takeWhile Char.isDigit), runLength Char.isDigit cs)
  else if c = '"' then
    let (value, n) := stringRest cs
    (match value with
      | some value => .string (String.ofList value)
      | none => .bad, n)
  else if isBlank c then
    (.blank, runLength isBlank cs)
  else if isIdentifierStart c then
    let word := String.ofList (c :: cs.takeWhile isIdentifierPart)
    ((TokenKind.keyword? word).getD .identifier, runLength isIdentifierPart cs)
  else
    sign c cs

/-- All tokens of a text whose first byte has offset `pos`, the blank ones included, and the end
mark. -/
def readFrom (pos : Nat) : List Char → List Token
  | [] => [⟨.eof, ⟨pos, pos, ""⟩⟩]
  | c :: cs =>
    let (kind, n) := scan c cs
    let text := c :: cs.take n
    let stop := pos + byteLength text
    ⟨kind, ⟨pos, stop, String.ofList text⟩⟩ :: readFrom stop (cs.drop n)
termination_by cs => cs.length
decreasing_by simp only [List.length_drop, List.length_cons]; omega

/-- All tokens of a text, the blank ones included, and the end mark. -/
def readAll (text : List Char) : List Token := readFrom 0 text

/-- The tokens of a text that a program is made of. -/
def tokenize (text : List Char) : List Token := (readAll text).filter (·.kind ≠ .blank)

end EmLang.Token
