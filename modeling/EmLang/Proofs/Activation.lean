import EmLang.Lir
import Mathlib.Logic.Function.Basic

/-!
What the instructions over slots mean. An activation is one call of a function at work: its slots
are its own, and so is the slot for the value it returns. A step asks for a call and does not say
what the callee does; the same steps serve a whole program, where the callee is another activation,
and one function alone, where it is anything.

What slots hold is left open: words have to be among it, and something that stands for every string.
-/

namespace EmLang.Lir

/-- Data that slots hold. -/
structure Domain (V : Type) where
  ofWord : Int64 → V
  word? : V → Option Int64
  /-- What stands for a string of the program. -/
  ofString? : Nat → Option V

/-- A call of a function at work. -/
structure Activation (V : Type) where
  /-- What is left of the block. -/
  code : List Instr
  slots : Slot → Option V
  /-- The return slot. -/
  result : Option V

inductive Action (V : Type) where
  | next (a : Activation V)
  /-- The call of a symbol. The activation goes on when the callee is done. -/
  | call (symbol : String) (isExternal : Bool) (arguments : List V) (returnType : Ty) (a : Activation V)
  | finish (result : Option V)
  /-- A division that the processor refuses. -/
  | trap
  /-- The code is not fit to be run. -/
  | stuck

/-- Whether two words have a quotient: there is none by 0, and the least word by −1 has none that is
a word. -/
def HasQuotient (a b : Int64) : Prop := b ≠ 0 ∧ ¬ (a = Int64.minValue ∧ b = -1)

instance (a b : Int64) : Decidable (HasQuotient a b) := inferInstanceAs (Decidable (_ ∧ _))

/-- What an operation makes of two words: nothing where the processor refuses. -/
def Opcode.operation? : Opcode → Option (Int64 → Int64 → Option Int64)
  | .add => some fun a b => some (a + b)
  | .sub => some fun a b => some (a - b)
  | .imul => some fun a b => some (a * b)
  | .idiv => some fun a b => if HasQuotient a b then some (a / b) else none
  | .irem => some fun a b => if HasQuotient a b then some (a % b) else none
  | _ => none

namespace Activation

variable {V : Type} (D : Domain V)

def value? (a : Activation V) : Operand → Option V
  | .slot s => a.slots s
  | .returnSlot => a.result
  | .imm w => some (D.ofWord w)
  | .str index => D.ofString? index
  | _ => none

def word? (a : Activation V) (operand : Operand) : Option Int64 := (a.value? D operand).bind D.word?

/-- Puts a value in a slot, or leaves the slot without one. -/
def setSlot (a : Activation V) (s : Slot) (v : Option V) : Activation V :=
  { a with slots := Function.update a.slots s v }

def store (a : Activation V) (v : V) : Operand → Action V
  | .slot s => .next (a.setSlot s (some v))
  | .returnSlot => .next { a with result := some v }
  | _ => .stuck

/-- Goes on after a call. Its value is in the return slot, if it has one. -/
def resume (a : Activation V) (returnType : Ty) (answer : Option V) : Activation V :=
  { a with result := if returnType.hasValue then answer else none }

/-- Does an instruction, where `a` is to go on behind it. -/
def perform (blocks : BlockId → Option (List Instr)) (a : Activation V) : Instr → Action V
  | .unary .declare (.slot s) => .next (a.setSlot s none)
  | .binary .mov destination source =>
    match a.value? D source with
    | some v => a.store v destination
    | none => .stuck
  | .unary .neg destination =>
    match a.word? D destination with
    | some w => a.store (D.ofWord (-w)) destination
    | none => .stuck
  | .unary .call (.callee symbol arguments returnType isExternal) =>
    match arguments.mapM (a.value? D) with
    | some values => .call symbol isExternal values returnType a
    | none => .stuck
  | .unary .jmp (.block b) =>
    match blocks b with
    | some code => .next { a with code }
    | none => .stuck
  | .nullary .ret => .finish a.result
  | .binary op destination source =>
    match op.operation?, a.word? D destination, a.word? D source with
    | some operation, some l, some r =>
      match operation l r with
      | some w => a.store (D.ofWord w) destination
      | none => .trap
    | _, _, _ => .stuck
  | _ => .stuck

def step (blocks : BlockId → Option (List Instr)) (a : Activation V) : Action V :=
  match a.code with
  | [] => .stuck
  | i :: rest => ({ a with code := rest } : Activation V).perform D blocks i

/-- An activation of a function with these arguments in its first slots. -/
def enter (code : List Instr) (arguments : List V) : Activation V := ⟨code, fun s => arguments[s]?, none⟩

/-! ### Single instructions -/

section

variable (blocks : BlockId → Option (List Instr)) (a : Activation V) {destination source : Operand}

@[simp] lemma step_cons (i : Instr) (rest : List Instr) (slots : Slot → Option V)
    (result : Option V) : (⟨i :: rest, slots, result⟩ : Activation V).step D blocks =
    (⟨rest, slots, result⟩ : Activation V).perform D blocks i :=
  rfl

lemma perform_mov {v : V} (h : a.value? D source = some v) :
    a.perform D blocks (.binary .mov destination source) = a.store v destination := by
  simp only [perform, h]

lemma perform_operation {l r : Int64} {op : Opcode}
    {operation : Int64 → Int64 → Option Int64} (hop : op.operation? = some operation)
    (hl : a.word? D destination = some l) (hr : a.word? D source = some r) :
    a.perform D blocks (.binary op destination source) = match operation l r with
      | some w => a.store (D.ofWord w) destination
      | none => .trap := by
  cases op <;> first | cases hop; done | simp only [perform, hop, hl, hr]

lemma perform_call {arguments : List Operand} {symbol : String} {values : List V}
    (returnType : Ty) (isExternal : Bool) (h : arguments.mapM (a.value? D) = some values) :
    a.perform D blocks (.unary .call (.callee symbol arguments returnType isExternal)) =
    .call symbol isExternal values returnType a := by
  simp only [perform, h]

lemma perform_jmp {b : BlockId} {code : List Instr} (h : blocks b = some code) :
    a.perform D blocks (.unary .jmp (.block b)) = .next { a with code } := by
  simp only [perform, h]

end

end Activation

/-! ### One function alone -/

structure Asked (V : Type) where
  symbol : String
  arguments : List V

/-- How far a run of one function is, with the calls so far. -/
inductive Stage (V : Type) where
  | running (a : Activation V) (calls : List (Asked V))
  | returned (result : Option V) (calls : List (Asked V))
  /-- A division was refused, with this code behind it. -/
  | trapped (rest : List Instr) (calls : List (Asked V))
  | stuck

/-- One step of a run, in which calls get these answers one after the other. -/
def Stage.advance {V : Type} (D : Domain V) (blocks : BlockId → Option (List Instr))
    (answers : Nat → V) : Stage V → Stage V
  | .running a calls =>
    match a.step D blocks with
    | .next a => .running a calls
    | .call symbol _ arguments returnType a =>
      .running (a.resume returnType (some (answers calls.length))) (calls ++ [⟨symbol, arguments⟩])
    | .finish result => .returned result calls
    | .trap => .trapped a.code.tail calls
    | .stuck => .stuck
  | stage => stage

end EmLang.Lir
