import EmLang.Ty

/-!
The operations that every program can call without declaring them.
-/

namespace EmLang

inductive Builtin where
  /-- Writes a value on a line of its own. -/
  | print
  /-- Reads the clock. -/
  | tick
  | toText
deriving DecidableEq, Inhabited

namespace Builtin

def name : Builtin → String
  | print => "print"
  | tick => "tick"
  | toText => "to_string"

def ofName? : String → Option Builtin
  | "print" => some print
  | "tick" => some tick
  | "to_string" => some toText
  | _ => none

def parameterCount : Builtin → Nat
  | tick => 0
  | print | toText => 1

def returnType : Builtin → Ty
  | print => .void
  | tick => .int
  | toText => .string

end Builtin

end EmLang
