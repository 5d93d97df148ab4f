import EmLang.Lir
import EmLang.Native.Convention
import Mathlib.Data.BitVec
import Mathlib.Logic.Function.Iterate
import Mathlib.Tactic.Common

/-!
A machine that runs lowered code: sixteen registers, flags, and a memory of bytes in which words
have their lowest byte first. What a called function does is left open; a run is told the state in
which each call comes back.

Operands that instructions of the machine cannot have make a run stuck: two words of memory at once,
and distances and numbers that do not fit 32 bits, but for a number that goes to a register.
-/

namespace EmLang.Native

open BitVec Lir Register

abbrev Word := BitVec 64

/-! ### Memory -/

abbrev Memory := Word → BitVec 8

namespace Memory

variable (m : Memory) (a b v : Word)

/-- The number that so many bytes from an address on stand for. -/
def number : Word → Nat → Nat
  | _, 0 => 0
  | a, n + 1 => (m a).toNat + 256 * number (a + 1) n

def load : Word := BitVec.ofNat 64 (m.number a 8)

def store : Memory := fun b =>
  if (b - a).toNat < 8 then BitVec.ofNat 8 (v.toNat / 256 ^ (b - a).toNat) else m b

variable {m a b v}

private lemma add_ofNat_succ (k : Nat) : a + BitVec.ofNat 64 k + 1 = a + BitVec.ofNat 64 (k + 1) := by
  rw [add_assoc, ofNat_add]
  rfl

lemma number_store {k n : Nat} (h : k + n ≤ 8) :
    (m.store a v).number (a + BitVec.ofNat 64 k) n = v.toNat / 256 ^ k % 256 ^ n := by
  induction n generalizing k with
  | zero => simp [number, Nat.mod_one]
  | succ n ih =>
    have distance : (a + BitVec.ofNat 64 k - a).toNat = k := by
      rw [add_sub_cancel_left, toNat_ofNat, Nat.mod_eq_of_lt (by omega)]
    have split : v.toNat / 256 ^ k % 256 ^ (n + 1) =
        v.toNat / 256 ^ k % 256 + 256 * (v.toNat / 256 ^ (k + 1) % 256 ^ n) := by
      rw [Nat.pow_succ', Nat.mod_mul, Nat.div_div_eq_div_mul, ← Nat.pow_succ]
    rw [number, add_ofNat_succ, ih (by omega), store, distance, if_pos (by omega), split, BitVec.toNat_ofNat]

lemma load_store : (m.store a v).load a = v := by
  have bytes := number_store (m := m) (a := a) (v := v) (k := 0) (n := 8) le_rfl
  rw [show a + BitVec.ofNat 64 0 = a from add_zero a] at bytes
  have small : v.toNat < 256 ^ 8 := v.isLt
  rw [load, bytes, Nat.pow_zero, Nat.div_one, Nat.mod_eq_of_lt small, ofNat_toNat, setWidth_eq]

lemma load_congr {m' : Memory} (h : ∀ i < 8, m' (a + BitVec.ofNat 64 i) =
      m (a + BitVec.ofNat 64 i)) : m'.load a = m.load a := by
  have bytes : ∀ n k, k + n ≤ 8 → m'.number (a + BitVec.ofNat 64 k) n = m.number (a + BitVec.ofNat 64 k) n := by
    intro n
    induction n with
    | zero => exact fun _ _ => rfl
    | succ n ih =>
      intro k hk
      rw [number, number, h k (by omega), add_ofNat_succ, ih (k + 1) (by omega)]
  have all := bytes 8 0 le_rfl
  rw [show a + BitVec.ofNat 64 0 = a from add_zero a] at all
  rw [load, load, all]

/-- A word is not changed by storing one that does not overlap it. -/
lemma load_store_of_apart (ahead : 8 ≤ (b - a).toNat) (behind : 8 ≤ (a - b).toNat) :
    (m.store a v).load b = m.load b := by
  refine load_congr fun i hi => if_neg ?_
  have back : (a - b).toNat + (b - a).toNat = 2 ^ 64 := by
    bv_omega
  have distance : (b + BitVec.ofNat 64 i - a).toNat = (b - a).toNat + i := by
    rw [add_sub_right_comm, toNat_add, toNat_ofNat, Nat.mod_eq_of_lt (by omega : i < 2 ^ 64)]
    exact Nat.mod_eq_of_lt (by omega)
  omega

end Memory

/-! ### Instructions -/

structure Flags where
  zero : Bool
  sign : Bool
  overflow : Bool

/-- The flags after an operation, from its result and from the number that it stands for. -/
def Flags.of (result : Word) (exact : Int) : Flags := ⟨result = 0, result.msb, result.toInt ≠ exact⟩

def Flags.holds (flags : Flags) : Condition → Bool
  | .equal => flags.zero
  | .notEqual => !flags.zero
  | .less => flags.sign != flags.overflow
  | .greater => !flags.zero && flags.sign == flags.overflow
  | .lessOrEqual => flags.zero || flags.sign != flags.overflow
  | .greaterOrEqual => flags.sign == flags.overflow

structure Cpu where
  reg : Register → Word
  flags : Flags
  memory : Memory

/-- What an instruction does. -/
inductive Effect where
  | next (s : Cpu)
  | call (symbol : String)
  | jump (b : BlockId)
  | ret
  /-- A division that the processor refuses. -/
  | trap
  /-- The machine has no such instruction. -/
  | stuck

def Effect.ofOption : Option Cpu → Effect
  | some s => .next s
  | none => .stuck

/-- Whether an operand is a word of memory. -/
def isMemory : Operand → Bool
  | .mem .. => true
  | _ => false

namespace Cpu

variable (s : Cpu)

def set (r : Register) (v : Word) : Cpu := { s with reg := Function.update s.reg r v }

/-- The address at a distance from the one in a register. -/
def address (base : Register) (offset : Int) : Word := s.reg base + BitVec.ofInt 64 offset

def value? : Operand → Option Word
  | .reg r => some (s.reg r)
  | .mem base offset => if fits32 offset then some (s.memory.load (s.address base offset)) else none
  | .imm w => if fits32 w.toInt then some w.toBitVec else none
  | _ => none

def put? (v : Word) : Operand → Option Cpu
  | .reg r => some (s.set r v)
  | .mem base offset =>
    if fits32 offset then some { s with memory := s.memory.store (s.address base offset) v } else none
  | _ => none

def move : Operand → Operand → Effect
  | .reg r, .imm w => .next (s.set r w.toBitVec)
  | destination, source =>
    if isMemory destination && isMemory source then .stuck
    else .ofOption ((s.value? source).bind fun v => s.put? v destination)

/-- An operation on two words, with the numbers it stands for. -/
def operate (f : Word → Word → Word) (exact : Int → Int → Int) (destination source : Operand) : Effect :=
  if isMemory destination && isMemory source then .stuck
  else match s.value? destination, s.value? source with
    | some l, some r =>
        .ofOption ({ s with flags := .of (f l r) (exact l.toInt r.toInt) }.put? (f l r) destination)
    | _, _ => .stuck

def compare (destination source : Operand) : Effect :=
  if isMemory destination && isMemory source then .stuck
  else match s.value? destination, s.value? source with
    | some l, some r => .next { s with flags := .of (l - r) (l.toInt - r.toInt) }
    | _, _ => .stuck

def negate (operand : Operand) : Effect :=
  match s.value? operand with
  | some v => .ofOption ({ s with flags := .of (-v) (-v.toInt) }.put? (-v) operand)
  | none => .stuck

/-- The dividend, in two registers. -/
def dividend : Int := (s.reg rdx).toInt * 2 ^ 64 + (s.reg rax).toNat

def divide (operand : Operand) : Effect :=
  match s.value? operand with
  | some v =>
    let quotient := s.dividend.tdiv v.toInt
    if v = 0 ∨ quotient < -2 ^ 63 ∨ 2 ^ 63 ≤ quotient then .trap
    else .next ((s.set rax (BitVec.ofInt 64 quotient)).set rdx (BitVec.ofInt 64 (s.dividend.tmod v.toInt)))
  | none => .stuck

/-- Spreads the sign of the dividend. -/
def extend : Cpu := s.set rdx (if (s.reg rax).msb then -1 else 0)

def push (v : Word) : Cpu :=
  { s.set rsp (s.reg rsp - 8) with memory := s.memory.store (s.reg rsp - 8) v }

def pop (r : Register) : Cpu := (s.set rsp (s.reg rsp + 8)).set r (s.memory.load (s.reg rsp))

/-- An instruction with two operands, where the strings of the program are at certain addresses. -/
def binary (strings : Nat → Word) (op : Opcode) (destination source : Operand) : Effect :=
  match op with
  | .mov => s.move destination source
  | .lea =>
    match destination, source with
    | .reg r, .str index => .next (s.set r (strings index))
    | _, _ => .stuck
  | .add => s.operate (· + ·) (· + ·) destination source
  | .sub => s.operate (· - ·) (· - ·) destination source
  | .imul => if isMemory destination then .stuck else s.operate (· * ·) (· * ·) destination source
  | .cmp => s.compare destination source
  | _ => .stuck

def unary (op : Opcode) (operand : Operand) : Effect :=
  match op with
  | .neg => s.negate operand
  | .idiv => s.divide operand
  | .push => .ofOption ((s.value? operand).map s.push)
  | .pop =>
    match operand with
    | .reg r => .next (s.pop r)
    | _ => .stuck
  | .call =>
    match operand with
    | .callee symbol _ _ _ => .call symbol
    | _ => .stuck
  | .jmp =>
    match operand with
    | .block b => .jump b
    | _ => .stuck
  | .jcc condition =>
    match operand with
    | .block b => if s.flags.holds condition then .jump b else .next s
    | _ => .stuck
  | _ => .stuck

def nullary (op : Opcode) : Effect :=
  match op with
  | .cqo => .next s.extend
  | .ret => .ret
  | _ => .stuck

def perform (strings : Nat → Word) : Instr → Effect
  | .binary op destination source => s.binary strings op destination source
  | .unary op operand => s.unary op operand
  | .nullary op => s.nullary op

end Cpu

/-! ### Runs -/

/-- A call that the code made, with the state it was made in. -/
structure Call where
  symbol : String
  state : Cpu

/-- What the code of a function runs in. -/
structure Setting where
  /-- The addresses of the strings of the program. -/
  strings : Nat → Word
  blocks : BlockId → Option (List Instr)
  /-- The state in which the call with a number comes back, from the one it was made in. -/
  callee : Nat → Cpu → Cpu

/-- How far a run of a function is, with the calls so far. -/
inductive Progress where
  | running (code : List Instr) (s : Cpu) (calls : List Call)
  /-- A `ret` is next. -/
  | returned (s : Cpu) (calls : List Call)
  /-- A division was refused, with this code behind it. -/
  | trapped (rest : List Instr) (calls : List Call)
  | stuck

namespace Setting

variable (M : Setting)

def after (rest : List Instr) (s : Cpu) (calls : List Call) : Effect → Progress
  | .next s => .running rest s calls
  | .call symbol => .running rest (M.callee calls.length s) (calls ++ [⟨symbol, s⟩])
  | .jump b =>
    match M.blocks b with
    | some code => .running code s calls
    | none => .stuck
  | .ret => .returned s calls
  | .trap => .trapped rest calls
  | .stuck => .stuck

def advance : Progress → Progress
  | .running (i :: rest) s calls => M.after rest s calls (s.perform M.strings i)
  | .running [] _ _ => .stuck
  | p => p

end Setting

end EmLang.Native
