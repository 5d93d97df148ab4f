import EmLang.Lir.Text

/-!
What can be wrong with blocks that are to become machine code.
-/

namespace EmLang.Lir

inductive Failure where
  /-- A function, block or parameter that is not in its table. -/
  | missing
  | jumpOutside (block target : BlockId) (function : String)
  | malformedJump (instruction : Instr) (block : BlockId)
  | notConverged (function : String) (limit : Nat)
  | shrank (block : BlockId) (function : String)
  | noHome (slot : Slot) (function : String)
  | readTooEarly (slot : Slot) (function : String)
  | usedTooEarly (slot : Slot) (function : String)
  | dividedTooEarly (slot : Slot) (function : String)
  | noValue (operand : Operand)
  | notWritable (operand : Operand)
  | allPinned (function : String)
  | cannotLower (instruction : Instr) (function : String)
  | emptyTarget (block : BlockId) (function : String)
  | leftVirtual (instruction : Instr) (block : BlockId) (function : String)
  | notPlaced (block : BlockId) (function : String)
  | noMachineForm (instruction : Instr) (function : String)
  | removedTarget (function : String) (target : BlockId)
  | unresolvedOperand (operand : Operand) (function : String)
deriving DecidableEq

def Failure.message? : Failure → Option String
  | missing => none
  | jumpOutside block target function => some s!"bb{block} jumps to bb{target} outside of `{function}`"
  | malformedJump instruction block => some s!"malformed jump `{instruction.text}` in bb{block}"
  | notConverged function limit =>
    some s!"liveness of `{function}` did not converge within {limit} iterations"
  | shrank block function => some s!"live-in of bb{block} in `{function}` shrank"
  | noHome slot function => some s!"%{slot} has no home in `{function}`"
  | readTooEarly slot function => some s!"%{slot} is read before it holds a value in `{function}`"
  | usedTooEarly slot function => some s!"%{slot} is used before it holds a value in `{function}`"
  | dividedTooEarly slot function => some s!"%{slot} is divided before it holds a value in `{function}`"
  | noValue operand => some s!"`{operand.text}` is not a value operand"
  | notWritable operand => some s!"cannot write to `{operand.text}`"
  | allPinned function => some s!"every register is pinned while lowering `{function}`"
  | cannotLower instruction function => some s!"cannot lower `{instruction.text}` in `{function}`"
  | emptyTarget block function => some s!"bb{block} is empty but still targeted at the end of `{function}`"
  | leftVirtual instruction block function =>
    some s!"`{instruction.text}` in bb{block} of `{function}` was left unresolved"
  | notPlaced block function => some s!"bb{block} of `{function}` was never placed"
  | noMachineForm instruction function =>
    some s!"`{instruction.text}` in `{function}` has no machine form"
  | removedTarget function target => some s!"jump in `{function}` targets removed bb{target}"
  | unresolvedOperand operand function =>
    some s!"unresolved operand `{operand.text}` reached the emitter in `{function}`"

def getFunction (lir : Lir) (f : Nat) : Except Failure Function :=
  match lir.functions[f]? with
  | some function => .ok function
  | none => .error .missing

def getBlock (lir : Lir) (b : BlockId) : Except Failure Block :=
  match lir.blocks[b]? with
  | some block => .ok block
  | none => .error .missing

end EmLang.Lir
