import EmLang.Token
import EmLang.Ty

/-!
Diagnostics: what is wrong with a program, and where. A diagnostic holds the cause; its wording is
computed from the cause and the text of its span.
-/

namespace EmLang

open Text

inductive Severity where
  | error
  | warning
deriving DecidableEq, Inhabited

/-- What can be wrong with a program. -/
inductive Problem where
  | unexpectedToken (expected found : TokenKind)
  | expectedExpression (found : TokenKind)
  | badCharacter
  | undeclaredVariable (name : String)
  | undeclaredFunction (name : String)
  | functionRedeclared
  | argumentCount (expected actual : Nat)
  | typeMismatch (expected actual : Ty)
  | undeclaredType
  | returnOutsideFunction
  | nestedFunction
  | assignmentTarget
  | voidValue
  | divisionByZero (operator : String)
  | divisionOverflow (operator : String)
  | integerOutOfRange
  | unsupported (construct : String)
  | unreachable
  | other (severity : Severity) (brief full : String)
deriving DecidableEq, Inhabited

namespace Problem

def severity : Problem → Severity
  | unreachable => .warning
  | other severity _ _ => severity
  | _ => .error

def brief : Problem → String
  | unexpectedToken _ _ => "unexpected token"
  | expectedExpression _ => "expected expression"
  | badCharacter => "unknown character"
  | undeclaredVariable _ => "undeclared variable"
  | undeclaredFunction _ => "undeclared function"
  | functionRedeclared => "multiple function declarations"
  | argumentCount _ _ => "invalid argument count"
  | typeMismatch _ _ => "mismatched types"
  | undeclaredType => "undeclared type"
  | returnOutsideFunction => "return outside function"
  | nestedFunction => "nested function"
  | assignmentTarget => "invalid left-hand side in assignment"
  | voidValue => "expression has no value"
  | divisionByZero _ => "division by zero"
  | divisionOverflow _ => "integer overflow"
  | integerOutOfRange => "integer literal out of range"
  | unsupported _ => "unsupported in this backend"
  | unreachable => "unreachable statement"
  | other _ brief _ => brief

/-- The message on a call of `callee` with `actual` arguments instead of `expected`. -/
def argumentCountMessage (callee : String) (expected actual : Nat) : String :=
  let noun := if expected = 1 then "argument" else "arguments"
  let only := if actual < expected then " only" else ""
  let verb := if actual = 1 then "was" else "were"
  s!"Function `{callee}` expects {expected} {noun}, but{only} {actual} {verb} found"

/-- The whole message, on a span that shows `literal`. -/
def full (literal : String) : Problem → String
  | unexpectedToken expected found =>
    s!"Expected token <{expected.describe}>, found <{found.describe}>"
  | expectedExpression found => s!"Expected expression, found <{found.describe}>"
  | badCharacter => s!"Unknown character `{literal}`"
  | undeclaredVariable name => s!"Undeclared variable `{name}`"
  | undeclaredFunction name => s!"Undeclared function `{name}`"
  | functionRedeclared => s!"Function `{literal}` already declared"
  | argumentCount expected actual => argumentCountMessage literal expected actual
  | typeMismatch expected actual => s!"Expected type `{expected.name}`, found `{actual.name}`"
  | undeclaredType => s!"Undeclared type `{literal}`"
  | returnOutsideFunction => "Cannot use `return` outside of a function"
  | nestedFunction => s!"Function `{literal}` must be declared at the top level"
  | assignmentTarget => s!"Cannot assign to `{literal}`"
  | voidValue => s!"`{literal}` produces no value and cannot be used here"
  | divisionByZero operator => s!"Division by zero in `{operator}` operation"
  | divisionOverflow operator => s!"Integer overflow in `{operator}` operation"
  | integerOutOfRange => s!"Integer literal `{literal}` does not fit in 64 bits"
  | unsupported construct => s!"{construct} is unsupported in this backend"
  | unreachable => "unreachable statement after `return`"
  | other _ _ full => full

end Problem

structure Diagnostic where
  problem : Problem
  span : Span
deriving DecidableEq, Inhabited

namespace Diagnostic

def severity (d : Diagnostic) : Severity := d.problem.severity

def brief (d : Diagnostic) : String := d.problem.brief

def full (d : Diagnostic) : String := d.problem.full d.span.literal

end Diagnostic

/-- The diagnostics found so far, errors and warnings apart and in the order they were found. -/
structure Report where
  errors : List Diagnostic
  warnings : List Diagnostic
deriving DecidableEq, Inhabited

namespace Report

def empty : Report := ⟨[], []⟩

def add (r : Report) (d : Diagnostic) : Report :=
  match d.severity with
  | .error => { r with errors := r.errors ++ [d] }
  | .warning => { r with warnings := r.warnings ++ [d] }

def hasErrors (r : Report) : Bool := !r.errors.isEmpty

/-- The diagnostics of the one report and then those of the other. -/
def append (r s : Report) : Report := ⟨r.errors ++ s.errors, r.warnings ++ s.warnings⟩

end Report

end EmLang
