import EmLang.Token

/-!
Operators between two operands.
-/

namespace EmLang

inductive BinaryOp where
  | add
  | sub
  | mul
  | div
  | rem
  | eq
  | ne
  | lt
  | gt
  | le
  | ge
deriving DecidableEq, Inhabited

namespace BinaryOp

def symbol : BinaryOp → String
  | add => "+"
  | sub => "-"
  | mul => "*"
  | div => "/"
  | rem => "%"
  | eq => "=="
  | ne => "!="
  | lt => "<"
  | gt => ">"
  | le => "<="
  | ge => ">="

/-- How tightly an operator binds its operands. -/
def precedence : BinaryOp → Nat
  | mul | div | rem => 19
  | add | sub => 18
  | lt | gt | le | ge => 17
  | eq | ne => 16

def isComparison : BinaryOp → Bool
  | add | sub | mul | div | rem => false
  | eq | ne | lt | gt | le | ge => true

/-- The operator that a token stands for between two operands. -/
def ofToken? : TokenKind → Option BinaryOp
  | .plus => some add
  | .minus => some sub
  | .asterisk => some mul
  | .slash => some div
  | .percent => some rem
  | .equalsEquals => some eq
  | .notEquals => some ne
  | .lessThan => some lt
  | .greaterThan => some gt
  | .lessOrEqual => some le
  | .greaterOrEqual => some ge
  | _ => none

end BinaryOp

end EmLang
