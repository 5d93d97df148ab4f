import EmLang.CommandLine
import EmLang.Files
import EmLang.Native.Support

/-!
The command on the files and streams of the machine.
-/

namespace EmLang.CommandLine

/-- A reason's number; some calls of the machine report it negated. -/
def magnitude (code : UInt32) : Nat := code.toInt32.toInt.natAbs

/-- The number of the reason why the machine refused a file. -/
def refusalCode? : IO.Error → Option Nat
  | .noFileOrDirectory _ code _ => some (magnitude code)
  | .permissionDenied _ code _ => some (magnitude code)
  | .inappropriateType _ code _ => some (magnitude code)
  | .invalidArgument _ code _ => some (magnitude code)
  | _ => none

/-- The reason why a file cannot be used. -/
def reason (e : IO.Error) : String :=
  match (refusalCode? e).bind Refusal.ofCode? with
  | some refusal => refusal.message
  | none => toString e

/-- Files by their paths, and the standard streams. -/
def machine : System IO where
  read path := do
    try
      match String.fromUTF8? (← IO.FS.readBinFile path) with
      | some text => return .ok text
      | none => return .error "stream did not contain valid UTF-8"
    catch e => return .error (reason e)
  write path text := do
    try return .ok (← IO.FS.writeFile path text)
    catch e => return .error (reason e)
  print text := do (← IO.getStdout).putStr text
  complain text := do (← IO.getStderr).putStr text

/-- A clock that advances with every reading, and more depth than a machine has memory for. -/
def machineLimits : Limits := ⟨Native.Support.tick, 1000000000000⟩

end EmLang.CommandLine

open EmLang.CommandLine in
def main (arguments : List String) : IO UInt32 := execute machine machineLimits "ember" arguments
