import EmLang.Text.Span

/-!
Tokens: the words and signs of a program, each with the span it was read from.
-/

namespace EmLang

open Text

inductive TokenKind where
  | number (value : Int64)
  | string (value : String)
  | plus
  | minus
  | asterisk
  | slash
  | percent
  | equals
  | lessThan
  | greaterThan
  | lessOrEqual
  | greaterOrEqual
  | equalsEquals
  | notEquals
  | letWord
  | ifWord
  | elseWord
  | whileWord
  | trueWord
  | falseWord
  | functionWord
  | returnWord
  | leftParen
  | rightParen
  | openBrace
  | closeBrace
  | comma
  | colon
  | arrow
  | semicolon
  | blank
  | identifier
  /-- Digits whose number does not fit 64 bits. -/
  | numberOutOfRange
  /-- A character that begins no token, or a string without an end. -/
  | bad
  | eof
deriving DecidableEq, Inhabited

namespace TokenKind

/-- The kind of token as messages name it. -/
def describe : TokenKind → String
  | number _ | numberOutOfRange => "Number"
  | string _ => "String"
  | plus => "+"
  | minus => "-"
  | asterisk => "*"
  | slash => "/"
  | percent => "%"
  | equals => "="
  | lessThan => "<"
  | greaterThan => ">"
  | lessOrEqual => "<="
  | greaterOrEqual => ">="
  | equalsEquals => "=="
  | notEquals => "!="
  | letWord => "Let"
  | ifWord => "If"
  | elseWord => "Else"
  | whileWord => "While"
  | trueWord => "True"
  | falseWord => "False"
  | functionWord => "Function"
  | returnWord => "Return"
  | leftParen => "("
  | rightParen => ")"
  | openBrace => "\x7b"
  | closeBrace => "\x7d"
  | comma => "Comma"
  | colon => "Colon"
  | arrow => "Arrow"
  | semicolon => "Semicolon"
  | blank => "Whitespace"
  | identifier => "Identifier"
  | bad => "Bad"
  | eof => "Eof"

def keyword? : String → Option TokenKind
  | "let" => some letWord
  | "if" => some ifWord
  | "else" => some elseWord
  | "while" => some whileWord
  | "true" => some trueWord
  | "false" => some falseWord
  | "fx" => some functionWord
  | "return" => some returnWord
  | _ => none

end TokenKind

structure Token where
  kind : TokenKind
  span : Span
deriving DecidableEq, Inhabited

end EmLang
