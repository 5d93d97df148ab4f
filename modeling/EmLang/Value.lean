import EmLang.Text.Quoted
import EmLang.Ty

/-!
Values that a running program works with.
-/

namespace EmLang

open Text

inductive Value where
  | number (n : Int64)
  | bool (b : Bool)
  | string (s : String)
  | void
deriving DecidableEq, Inhabited

namespace Value

/-- The text that a program sees. -/
def text : Value → String
  | number n => toString n
  | bool b => toString b
  | string s => s
  | void => "()"

/-- A text that tells the kind of a value as well. -/
def describe : Value → String
  | number n => s!"Number({n})"
  | bool b => s!"Boolean({b})"
  | string s => s!"String({quoted s})"
  | void => "Void"

def number? : Value → Option Int64
  | number n => some n
  | _ => none

def bool? : Value → Option Bool
  | bool b => some b
  | _ => none

/-- The value of a function that ends without a `return`, by its type. -/
def defaultOf : Ty → Value
  | .int => number 0
  | .bool => bool false
  | .string => string ""
  | .void | .unresolved | .error => void

end Value

/-- The note that a function of a type with values ended without a `return`. -/
structure DefaultNote where
  function : String
  ty : Ty
  value : Value
deriving DecidableEq, Inhabited

/-- The note on a function of this type, if its values are worth one. -/
def DefaultNote.of? (function : String) (ty : Ty) : Option DefaultNote :=
  if ty.hasValue then some ⟨function, ty, Value.defaultOf ty⟩ else none

def DefaultNote.message (note : DefaultNote) : String :=
  s!"Function '{note.function}' with return type {note.ty.name} lacks an explicit return, "
    ++ s!"returning {note.value.describe}"

end EmLang
