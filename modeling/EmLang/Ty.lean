/-!
Types of expressions. Besides the types that programs can name there are two marks: a node not yet
looked at, and a node whose fault has been reported, which fits everywhere so that it is not
reported twice.
-/

namespace EmLang

inductive Ty where
  | int
  | bool
  | string
  | void
  | unresolved
  | error
deriving DecidableEq, Inhabited

namespace Ty

def name : Ty → String
  | int => "int"
  | bool => "bool"
  | string => "string"
  | void => "void"
  | unresolved => "unresolved"
  | error => "???"

/-- The type that a program means by a name. -/
def ofName? : String → Option Ty
  | "int" => some int
  | "bool" => some bool
  | "string" => some string
  | "void" => some void
  | _ => none

/-- Whether a value of the one type may stand where the other is expected. -/
def assignableTo (actual expected : Ty) : Bool :=
  if actual = error ∨ expected = error then true
  else if actual = unresolved ∨ expected = unresolved then false
  else actual = expected

/-- Whether values of the type occupy a machine word. -/
def hasValue : Ty → Bool
  | int | bool | string => true
  | void | unresolved | error => false

end Ty

end EmLang
