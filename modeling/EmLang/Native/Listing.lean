import EmLang.Lir.Failure

/-!
Assembly listings: machine code and strings as text for an assembler.
-/

namespace EmLang.Native.Listing

open Lir

def octalDigit (n : Nat) : Char := Char.ofNat ('0'.toNat + n % 8)

/-- A byte between the quotes of a string directive. -/
def escapeByte (b : UInt8) : List Char :=
  let n := b.toNat
  if n = '"'.toNat then ['\\', '"']
  else if n = '\\'.toNat then ['\\', '\\']
  else if n = '\n'.toNat then ['\\', 'n']
  else if n = '\t'.toNat then ['\\', 't']
  else if 0x20 ≤ n ∧ n ≤ 0x7e then [Char.ofNat n]
  else ['\\', octalDigit (n / 64), octalDigit (n / 8), octalDigit n]

/-- A text between the quotes of a string directive, byte by byte. -/
def escape (text : List Char) : List Char := (text.flatMap String.utf8EncodeChar).flatMap escapeByte

def blockLabel (f position : Nat) : String := s!".LBB{f}_{position}"

/-- An operand of an instruction in function number `f`. -/
def operandText (lir : Lir) (f : Nat) (function : Function) (operand : Operand) : Except Failure String :=
  match operand with
  | .reg r => .ok r.name
  | .mem base offset =>
    .ok <| if offset = 0 then s!"qword ptr [{base.name}]"
      else if offset < 0 then s!"qword ptr [{base.name} - {offset.natAbs}]"
      else s!"qword ptr [{base.name} + {offset}]"
  | .imm value => .ok (toString value)
  | .str index => .ok s!"[rip + .L.str.{index}]"
  | .block target =>
    match lir.blocks[target]? with
    | none => .error .missing
    | some block =>
      match block.position with
      | some position => .ok (blockLabel f position)
      | none => .error (.removedTarget function.name target)
  | .callee symbol [] _ isExternal => .ok (if isExternal then s!"{symbol}@PLT" else symbol)
  | .slot _ | .returnSlot | .flag _ | .callee .. => .error (.unresolvedOperand operand function.name)

def instrText (lir : Lir) (f : Nat) (function : Function) (i : Instr) : Except Failure String := do
  if i.opcode = .declare ∨ i.opcode = .irem then .error (.noMachineForm i function.name)
  else
    let operands ← i.operands.mapM (operandText lir f function)
    match operands with
    | [] => return i.opcode.mnemonic
    | _ => return i.opcode.mnemonic ++ " " ++ ", ".intercalate operands

/-- The lines of a block, under a label if jumps lead to it. -/
def blockText (lir : Lir) (f : Nat) (function : Function) (b : BlockId) : Except Failure String := do
  let block ← lir.getBlock b
  match block.position with
  | none => .error (.notPlaced b function.name)
  | some position =>
    let label := if block.isTarget then s!"{blockLabel f position}:\n" else ""
    let lines ← block.instructions.mapM fun i => return "    " ++ (← instrText lir f function i) ++ "\n"
    return label ++ String.join lines

/-- The lines of function number `f`. -/
def functionText (lir : Lir) (f : Nat) (function : Function) : Except Failure String := do
  let name := function.name
  let blocks ← function.blocks.mapM (blockText lir f function)
  return s!"\n    .globl {name}\n    .type {name}, @function\n{name}:\n    .cfi_startproc\n"
    ++ String.join blocks
    ++ s!"    .cfi_endproc\n    .size {name}, .-{name}\n"

def stringsText (strings : List String) : String :=
  if strings.isEmpty then ""
  else "    .section .rodata\n" ++ String.join (strings.zipIdx.map fun (text, index) =>
    s!".L.str.{index}:\n    .asciz \"" ++ String.ofList (escape text.toList) ++ "\"\n")

def of (lir : Lir) : Except Failure String := do
  let functions ← lir.functions.toList.zipIdx.mapM fun (function, f) => functionText lir f function
  return "    .intel_syntax noprefix\n    .text\n"
    ++ String.join functions
    ++ stringsText lir.strings.toList
    ++ "    .section .note.GNU-stack,\"\",@progbits\n"

end EmLang.Native.Listing
