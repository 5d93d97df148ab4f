import EmLang.Register

/-!
How functions call each other on the machine: the first six arguments go in registers, the others on
the stack above the return address, and the result comes in a register. A called function gives back
some registers as it found them and may change the others.
-/

namespace EmLang.Native

open Register

def argumentRegisters : List Register := [rdi, rsi, rdx, rcx, r8, r9]

def returnRegister : Register := rax

/-- The register that holds no value for longer than a few instructions. -/
def scratch : Register := r11

/-- The registers of temporaries in the order they are taken. -/
def pool : List Register :=
  [rax, rdi, rsi, rdx, rcx, r8, r9, r10, rbx, r12, r13, r14, r15]

/-- Whether a called function may change the register. -/
def isCallerSaved : Register → Bool
  | rax | rcx | rdx | rsi | rdi | r8 | r9 | r10 | r11 => true
  | _ => false

/-- Whether a called function gives the register back as it found it, the frame registers apart. -/
def isCalleeSaved : Register → Bool
  | rbx | r12 | r13 | r14 | r15 => true
  | _ => false

def word : Int := 8

/-- What the stack pointer is a multiple of at every call. -/
def alignment : Int := 16

/-- The bytes below the stack pointer that a function which makes no calls may use. -/
def redZone : Int := 128

def argumentRegister? (k : Nat) : Option Register := argumentRegisters[k]?

/-- Where the argument with index `k` lies from the frame pointer, when it comes on the stack:
behind the saved frame pointer, the return address and the stack arguments before it. -/
def stackArgumentOffset (k : Nat) : Int := 2 * word + (k - argumentRegisters.length : Nat) * word

/-- Whether a number fits 32 bits with sign. -/
def fits32 (n : Int) : Bool := -2147483648 ≤ n && n ≤ 2147483647

/-- The offset of a stack argument in 32 bits. There is none for an argument that comes in a
register, nor where the offset does not fit; the index counts modulo `2 ^ 32`. -/
def stackArgumentOffset? (k : Nat) : Option Int :=
  if k < argumentRegisters.length then none
  else
    let bytes := Int.bmod (k - argumentRegisters.length : Nat) 4294967296 * word
    if fits32 bytes && fits32 (2 * word + bytes) then some (2 * word + bytes) else none

end EmLang.Native
