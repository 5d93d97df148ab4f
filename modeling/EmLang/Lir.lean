import EmLang.Register
import EmLang.Ty

/-!
Programs as basic blocks over numbered slots. A function has one slot for every variable and every
temporary, and one more that holds the value it returns. The same form holds machine code: there the
slots have given way to registers and memory.
-/

namespace EmLang.Lir

/-- Position of a block in its table. -/
abbrev BlockId := Nat
/-- Number of a variable or temporary in its function. -/
abbrev Slot := Nat

inductive Condition where
  | equal
  | notEqual
  | less
  | greater
  | lessOrEqual
  | greaterOrEqual
deriving DecidableEq, Inhabited

inductive Opcode where
  /-- From here on the slot holds a value of its own. -/
  | declare
  | mov
  | add
  | sub
  | imul
  | idiv
  /-- The remainder of a division. -/
  | irem
  | cqo
  | neg
  | cmp
  | lea
  | push
  | pop
  | call
  | jmp
  | jcc (condition : Condition)
  | ret
deriving DecidableEq, Inhabited

inductive Operand where
  | slot (s : Slot)
  | returnSlot
  | block (b : BlockId)
  /-- A callee with its arguments. It is external when it is not a function of the program. -/
  | callee (symbol : String) (arguments : List Operand) (returnType : Ty) (isExternal : Bool)
  | str (index : Nat)
  | reg (r : Register)
  /-- The word at a distance from the address in a register. -/
  | mem (base : Register) (offset : Int)
  | imm (value : Int64)
  | flag (condition : Condition)
deriving Inhabited

/-- An operation on at most two operands. -/
inductive Instr where
  | nullary (op : Opcode)
  | unary (op : Opcode) (operand : Operand)
  | binary (op : Opcode) (first second : Operand)
deriving Inhabited

structure Block where
  instructions : List Instr
  /-- The function it was made for. -/
  function : Nat
  /-- Its place among the blocks of the finished function. -/
  position : Option Nat
  /-- Whether a jump of the finished function leads to it. -/
  isTarget : Bool
deriving Inhabited

structure Function where
  name : String
  returnType : Ty
  blocks : List BlockId
  parameterCount : Nat
  /-- How many slots belong to parameters and variables. -/
  declaredCount : Nat
  slotCount : Nat
  /-- Whether it makes no calls. -/
  isLeaf : Bool
deriving DecidableEq, Inhabited

end Lir

/-- A program in blocks. -/
structure Lir where
  functions : Array Lir.Function
  blocks : Array Lir.Block
  strings : Array String
deriving Inhabited

namespace Lir

/-! ### Equality of operands -/

namespace Operand

mutual

def same : Operand → Operand → Bool
  | slot a, slot b => a = b
  | returnSlot, returnSlot => true
  | block a, block b => a = b
  | callee f xs t e, callee g ys u d => f = g && sameAll xs ys && t = u && e = d
  | str a, str b => a = b
  | reg a, reg b => a = b
  | mem a m, mem b n => a = b && m = n
  | imm a, imm b => a = b
  | flag a, flag b => a = b
  | _, _ => false

def sameAll : List Operand → List Operand → Bool
  | [], [] => true
  | x :: xs, y :: ys => same x y && sameAll xs ys
  | _, _ => false

end

mutual

theorem same_iff : ∀ a b : Operand, same a b = true ↔ a = b
  | callee f xs t e, b => by
    cases b <;> simp [same, sameAll_iff xs, and_assoc]
  | slot _, b | returnSlot, b | block _, b | str _, b | reg _, b | mem _ _, b | imm _, b | flag _, b => by
    cases b <;> simp [same]

theorem sameAll_iff : ∀ xs ys : List Operand, sameAll xs ys = true ↔ xs = ys
  | [], ys => by cases ys <;> simp [sameAll]
  | x :: xs, ys => by cases ys <;> simp [sameAll, same_iff x, sameAll_iff xs]

end

instance : DecidableEq Operand := fun a b => decidable_of_iff _ (same_iff a b)

end Operand

deriving instance DecidableEq for Instr, Block

end Lir

deriving instance DecidableEq for Lir

namespace Lir

/-! ### Parts of operands and instructions -/

namespace Operand

def slot? : Operand → Option Slot
  | slot s => some s
  | _ => none

mutual

/-- The slots that an operand mentions, in the arguments of a callee too. -/
def slots : Operand → List Slot
  | slot s => [s]
  | callee _ arguments _ _ => slotsOfAll arguments
  | _ => []

def slotsOfAll : List Operand → List Slot
  | [] => []
  | x :: xs => slots x ++ slotsOfAll xs

end

mutual

/-- Whether an operand mentions a slot, so that no machine has it. -/
def isVirtual : Operand → Bool
  | slot _ | returnSlot => true
  | callee _ arguments _ _ => anyVirtual arguments
  | _ => false

/-- Whether one of a list of operands mentions a slot. -/
def anyVirtual : List Operand → Bool
  | [] => false
  | x :: xs => isVirtual x || anyVirtual xs

end

end Operand

def Opcode.isTerminator : Opcode → Bool
  | .jmp | .jcc _ | .ret => true
  | _ => false

namespace Instr

def opcode : Instr → Opcode
  | nullary op | unary op _ | binary op _ _ => op

def operands : Instr → List Operand
  | nullary _ => []
  | unary _ operand => [operand]
  | binary _ first second => [first, second]

def slots (i : Instr) : List Slot := i.operands.flatMap Operand.slots

def jumpTarget? : Instr → Option BlockId
  | unary .jmp (.block b) | unary (.jcc _) (.block b) => some b
  | _ => none

/-- Whether an instruction moves an operand onto itself. -/
def isSelfMove : Instr → Bool
  | binary .mov first second => first = second
  | _ => false

end Instr

/-- The jump or return that ends a block. -/
def Block.terminator? (b : Block) : Option Instr :=
  b.instructions.getLast?.filter (·.opcode.isTerminator)

/-- A block of a function without instructions. -/
def Block.new (function : Nat) : Block := ⟨[], function, none, false⟩

def Function.isTemporary (f : Function) (s : Slot) : Bool := f.declaredCount ≤ s

def empty : Lir := ⟨#[], #[], #[]⟩

def functionNamed? (lir : Lir) (name : String) : Option Function :=
  lir.functions.find? (·.name = name)

/-- The place of a string among the strings of the program, where it is put if it is new. -/
def intern (lir : Lir) (text : String) : Lir × Nat :=
  match lir.strings.findIdx? (· = text) with
  | some index => (lir, index)
  | none => ({ lir with strings := lir.strings.push text }, lir.strings.size)

def modifyBlock (lir : Lir) (b : BlockId) (f : Block → Block) : Lir :=
  { lir with blocks := lir.blocks.modify b f }

def modifyFunction (lir : Lir) (f : Nat) (g : Function → Function) : Lir :=
  { lir with functions := lir.functions.modify f g }

end Lir

end EmLang
