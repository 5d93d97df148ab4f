/-!
The routines that machine code calls for what it cannot do itself. They get numbers and truth values
as words and texts by address, and a text in memory ends at its first NUL.
-/

namespace EmLang.Native.Support

/-- A text as it is read from memory. -/
def stored (text : String) : String := String.ofList (text.toList.takeWhile (· ≠ '\x00'))

def printInt (n : Int64) : String := s!"{n}\n"

/-- What is printed for a truth value; every word but 0 is true. -/
def printBool (n : Int64) : String := if n = 0 then "false\n" else "true\n"

/-- What is printed for a text, and nothing without one. -/
def printStr : Option String → String
  | none => ""
  | some text => stored text ++ "\n"

/-- The text of a number. -/
def intToString (n : Int64) : String := toString n

/-- The clock after so many nanoseconds. It stops at the largest word. -/
def tick (elapsed : Nat) : Int64 := Int64.ofNat (min elapsed 9223372036854775807)

end EmLang.Native.Support
