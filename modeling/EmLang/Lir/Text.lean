import EmLang.Lir
import EmLang.Text.Quoted

/-!
Blocks as text, before and after their slots have been replaced.
-/

namespace EmLang.Lir

open Text

def Condition.suffix : Condition → String
  | equal => "e"
  | notEqual => "ne"
  | less => "l"
  | greater => "g"
  | lessOrEqual => "le"
  | greaterOrEqual => "ge"

def Opcode.mnemonic : Opcode → String
  | declare => "declare"
  | mov => "mov"
  | add => "add"
  | sub => "sub"
  | imul => "imul"
  | idiv => "idiv"
  | irem => "irem"
  | cqo => "cqo"
  | neg => "neg"
  | cmp => "cmp"
  | lea => "lea"
  | push => "push"
  | pop => "pop"
  | call => "call"
  | jmp => "jmp"
  | jcc condition => s!"j{condition.suffix}"
  | ret => "ret"

/-- A number with its sign, also when it is not negative. -/
def signed (n : Int) : String := if n < 0 then toString n else s!"+{n}"

mutual

def Operand.text : Operand → String
  | .slot s => s!"%{s}"
  | .returnSlot => "%ret"
  | .block b => s!"bb{b}"
  | .callee symbol arguments returnType _ =>
    symbol ++ "(" ++ ", ".intercalate (Operand.texts arguments) ++ s!") -> {returnType.name}"
  | .str index => s!"str{index}"
  | .reg r => r.capitals
  | .mem base offset => s!"[{base.capitals}{signed offset}]"
  | .imm value => toString value
  | .flag condition => s!"flag.{condition.suffix}"

def Operand.texts : List Operand → List String
  | [] => []
  | x :: xs => x.text :: Operand.texts xs

end

def Instr.text : Instr → String
  | nullary op => op.mnemonic
  | unary op operand => s!"{op.mnemonic} {operand.text}"
  | binary op first second => s!"{op.mnemonic} {first.text}, {second.text}"

def Block.text (b : BlockId) (block : Block) : String :=
  let place := match block.position with
    | some position => s!" @{position}"
    | none => ""
  let target := if block.isTarget then " (target)" else ""
  s!"bb{b}{place}{target}:\n"
    ++ String.join (block.instructions.map fun i => s!"    {i.text}\n")

/-- The lines of a function; none when one of its blocks is missing. -/
def functionText (lir : Lir) (f : Function) : Option String := do
  let leaf := if f.isLeaf then " leaf" else ""
  let head :=
    s!"fx {f.name}(params: {f.parameterCount}, declared: {f.declaredCount}, slots: {f.slotCount}){leaf}:\n"
  let blocks ← f.blocks.mapM fun b => return Block.text b (← lir.blocks[b]?)
  return head ++ String.join blocks

def stringsText (lir : Lir) : String :=
  if lir.strings.isEmpty then ""
  else "strings:\n"
    ++ String.join (lir.strings.toList.zipIdx.map fun (text, index) => s!"    str{index} = {quoted text}\n")

/-- The lines of a program; none when one of its blocks is missing. -/
def text (lir : Lir) : Option String := do
  let functions ← lir.functions.toList.mapM lir.functionText
  return String.join functions ++ lir.stringsText

end EmLang.Lir
