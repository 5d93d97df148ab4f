import Std.Data.ExtTreeMap

/-!
The sixteen general registers of the machine.
-/

namespace EmLang

inductive Register where
  | rax
  | rcx
  | rdx
  | rbx
  | rsp
  | rbp
  | rsi
  | rdi
  | r8
  | r9
  | r10
  | r11
  | r12
  | r13
  | r14
  | r15
deriving DecidableEq, Inhabited

namespace Register

/-- All registers in the order of their numbers. -/
def all : List Register :=
  [rax, rcx, rdx, rbx, rsp, rbp, rsi, rdi, r8, r9, r10, r11, r12, r13, r14, r15]

def number : Register → Nat
  | rax => 0
  | rcx => 1
  | rdx => 2
  | rbx => 3
  | rsp => 4
  | rbp => 5
  | rsi => 6
  | rdi => 7
  | r8 => 8
  | r9 => 9
  | r10 => 10
  | r11 => 11
  | r12 => 12
  | r13 => 13
  | r14 => 14
  | r15 => 15

/-- The name in assembly listings. -/
def name : Register → String
  | rax => "rax"
  | rcx => "rcx"
  | rdx => "rdx"
  | rbx => "rbx"
  | rsp => "rsp"
  | rbp => "rbp"
  | rsi => "rsi"
  | rdi => "rdi"
  | r8 => "r8"
  | r9 => "r9"
  | r10 => "r10"
  | r11 => "r11"
  | r12 => "r12"
  | r13 => "r13"
  | r14 => "r14"
  | r15 => "r15"

/-- The name in capital letters. -/
def capitals : Register → String
  | rax => "RAX"
  | rcx => "RCX"
  | rdx => "RDX"
  | rbx => "RBX"
  | rsp => "RSP"
  | rbp => "RBP"
  | rsi => "RSI"
  | rdi => "RDI"
  | r8 => "R8"
  | r9 => "R9"
  | r10 => "R10"
  | r11 => "R11"
  | r12 => "R12"
  | r13 => "R13"
  | r14 => "R14"
  | r15 => "R15"

theorem number_injective {a b : Register} (h : a.number = b.number) : a = b := by
  cases a <;> cases b <;> first | rfl | cases h

instance : Ord Register := ⟨compareOn number⟩

instance : Std.TransOrd Register := inferInstanceAs (Std.TransCmp (compareOn number))

instance : Std.LawfulEqOrd Register where
  eq_of_compare h := number_injective (Nat.compare_eq_eq.1 h)

end Register

end EmLang
