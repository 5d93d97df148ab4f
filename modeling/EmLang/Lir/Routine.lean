import EmLang.Ty

/-!
The routines outside a program that stand for its built-in operations. Printing has one for each
kind of value, since a word does not tell what it means.
-/

namespace EmLang.Lir

inductive Routine where
  | printInt
  | printBool
  | printStr
  | tick
  | intToString
deriving DecidableEq, Inhabited

namespace Routine

/-- The name that calls use. -/
def symbol : Routine → String
  | printInt => "ember_print_int"
  | printBool => "ember_print_bool"
  | printStr => "ember_print_str"
  | tick => "ember_tick"
  | intToString => "ember_int_to_string"

def ofSymbol? : String → Option Routine
  | "ember_print_int" => some printInt
  | "ember_print_bool" => some printBool
  | "ember_print_str" => some printStr
  | "ember_tick" => some tick
  | "ember_int_to_string" => some intToString
  | _ => none

theorem ofSymbol?_symbol (r : Routine) : ofSymbol? r.symbol = some r := by cases r <;> rfl

def returnType : Routine → Ty
  | printInt | printBool | printStr => .void
  | tick => .int
  | intToString => .string

/-- The routine that prints values of a type. -/
def printing : Option Ty → Routine
  | some .bool => printBool
  | some .string => printStr
  | _ => printInt

end Routine

end EmLang.Lir
