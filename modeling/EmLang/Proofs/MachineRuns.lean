import EmLang.Native.Frame
import EmLang.Proofs.Machine

/-!
Pieces of code that a run passes, whatever stands behind them. What they change is said by registers
and by the words at distances from the frame pointer; words at different multiples of eight do not
overlap.
-/

namespace EmLang.Native

open Lir Register

variable {M : Setting} {i : Instr}

/-- Some steps lead from one state to the other. -/
def Leads {α : Type} (advance : α → α) (a b : α) : Prop := ∃ n, advance^[n] a = b

namespace Leads

variable {α : Type} {advance : α → α} {a b c : α}

lemma refl (a : α) : Leads advance a a := ⟨0, rfl⟩

lemma trans (h : Leads advance a b) (h' : Leads advance b c) : Leads advance a c := by
  obtain ⟨n, rfl⟩ := h
  obtain ⟨m, rfl⟩ := h'
  exact ⟨m + n, Function.iterate_add_apply ..⟩

lemma head (h : Leads advance (advance a) b) : Leads advance a b := Leads.trans ⟨1, rfl⟩ h

lemma of_eq (h : advance a = b) : Leads advance a b := ⟨1, h⟩

lemma invariant {P : α → Prop} (h : P a) (run : Leads advance a b) (step : ∀ a, P a → P (advance a)) : P b := by
  obtain ⟨n, rfl⟩ := run
  induction n with
  | zero => exact h
  | succ n ih =>
    rw [Function.iterate_succ_apply']
    exact step _ ih

end Leads

/-! ### Words of the frame -/

/-- A distance from the frame pointer at which a word is looked at. -/
def Spaced (o : Int) : Prop := 8 ∣ o ∧ -2 ^ 40 ≤ o ∧ o ≤ 2 ^ 40

/-- Such a distance that fits an instruction. -/
def Near (o : Int) : Prop := 8 ∣ o ∧ -2147483648 ≤ o ∧ o ≤ 2147483647

variable {o : Int} {v : Word} {source : Operand}

lemma Near.spaced (h : Near o) : Spaced o := by
  unfold Near Spaced at *
  omega

lemma fits32_iff {n : Int} : fits32 n = true ↔ -2147483648 ≤ n ∧ n ≤ 2147483647 := by
  simp [fits32]

lemma Near.fits (h : Near o) : fits32 o = true := fits32_iff.2 h.2

lemma Memory.load_store_spaced {o' : Int} {base : Word} {m : Memory} (h : Spaced o) (h' : Spaced o')
    (other : o' ≠ o) : (m.store (base + BitVec.ofInt 64 o) v).load (base + BitVec.ofInt 64 o') =
    m.load (base + BitVec.ofInt 64 o') := by
  have distance : ∀ x y : Int, Spaced x → Spaced y → x ≠ y →
      8 ≤ (base + BitVec.ofInt 64 x - (base + BitVec.ofInt 64 y)).toNat := by
    intro x y hx hy hne
    rw [add_sub_add_left_eq_sub, sub_eq_add_neg, ← BitVec.ofInt_neg, ← BitVec.ofInt_add, BitVec.toNat_ofInt]
    unfold Spaced at hx hy
    omega
  exact Memory.load_store_of_apart (distance o' o h' h other) (distance o o' h h' other.symm)

namespace Cpu

variable (s : Cpu) (r r' : Register) (o o' : Int) (v : Word)

def word : Word := s.memory.load (s.address rbp o)

def setWord : Cpu := { s with memory := s.memory.store (s.address rbp o) v }

@[simp] lemma reg_set_self : (s.set r v).reg r = v := Function.update_self ..

lemma reg_set_of_ne {r r' : Register} (h : r' ≠ r) : (s.set r v).reg r' = s.reg r' := Function.update_of_ne h ..

@[simp] lemma reg_setWord : (s.setWord o v).reg r = s.reg r := rfl

lemma word_set {r : Register} (h : r ≠ rbp) : (s.set r v).word o = s.word o := by
  rw [word, word, address, address, reg_set_of_ne s v h.symm]
  rfl

@[simp] lemma word_setWord_self : (s.setWord o v).word o = v := Memory.load_store

lemma word_setWord_of_ne {o o' : Int} (h : Spaced o) (h' : Spaced o') (other : o' ≠ o) :
    (s.setWord o v).word o' = s.word o' :=
  Memory.load_store_spaced h h' other

end Cpu

/-- Only these registers and words differ. -/
structure Keeps (R : Register → Prop) (W : Int → Prop) (s s' : Cpu) : Prop where
  reg : ∀ r, ¬ R r → s'.reg r = s.reg r
  word : ∀ o, Spaced o → ¬ W o → s'.word o = s.word o

namespace Keeps

variable {R R' : Register → Prop} {W W' : Int → Prop} {s s' s'' : Cpu}

lemma refl (R : Register → Prop) (W : Int → Prop) (s : Cpu) : Keeps R W s s :=
  ⟨fun _ _ => rfl, fun _ _ _ => rfl⟩

lemma trans (h : Keeps R W s s') (h' : Keeps R W s' s'') : Keeps R W s s'' :=
  ⟨fun r hr => (h'.reg r hr).trans (h.reg r hr), fun o ho hw => (h'.word o ho hw).trans (h.word o ho hw)⟩

lemma mono (h : Keeps R W s s') (hr : ∀ r, R r → R' r) (hw : ∀ o, W o → W' o) : Keeps R' W' s s' :=
  ⟨fun r n => h.reg r fun m => n (hr r m), fun o ho n => h.word o ho fun m => n (hw o m)⟩

lemma set (s : Cpu) {r : Register} (v : Word) (other : r ≠ rbp) (here : R r) : Keeps R W s (s.set r v) :=
  ⟨fun _ hr => s.reg_set_of_ne v fun h => hr (h ▸ here), fun o _ _ => s.word_set o v other⟩

lemma setWord (s : Cpu) {o : Int} (v : Word) (spaced : Spaced o) (here : W o) : Keeps R W s (s.setWord o v) :=
  ⟨fun _ _ => rfl, fun _ ho hw => s.word_setWord_of_ne v spaced ho fun h => hw (h ▸ here)⟩

end Keeps

/-! ### Pieces of code -/

/-- Every run that comes to the code in the one state leaves it in the other, with no calls. -/
def Passes (M : Setting) (code : List Instr) (s s' : Cpu) : Prop :=
  ∀ rest calls, Leads M.advance (.running (code ++ rest) s calls) (.running rest s' calls)

namespace Passes

variable {code code' : List Instr} {s s' s'' : Cpu}

lemma nil (M : Setting) (s : Cpu) : Passes M [] s s := fun _ _ => .refl _

lemma append (h : Passes M code s s') (h' : Passes M code' s' s'') : Passes M (code ++ code') s s'' := by
  intro rest calls
  rw [List.append_assoc]
  exact (h _ calls).trans (h' rest calls)

lemma single (h : s.perform M.strings i = .next s') : Passes M [i] s s' := by
  intro rest calls
  refine Leads.of_eq ?_
  show M.after rest s calls (s.perform M.strings i) = _
  rw [h]
  rfl

lemma cons (h : s.perform M.strings i = .next s') (h' : Passes M code s' s'') : Passes M (i :: code) s s'' :=
  (single h).append h'

end Passes

/-- In a state, an operand has a value. A number may be wide, and a string may be at any address. -/
inductive Stands (M : Setting) (s : Cpu) : Operand → Word → Prop where
  | reg (r : Register) : Stands M s (.reg r) (s.reg r)
  | word {o : Int} (near : Near o) : Stands M s (.mem rbp o) (s.word o)
  | imm (w : Int64) : Stands M s (.imm w) w.toBitVec
  | str (index : Nat) : Stands M s (.str index) (M.strings index)

/-- An operand that can be written: a register other than the frame pointer, or a word of the
frame. -/
inductive Place : Operand → Prop where
  | reg {r : Register} (other : r ≠ rbp) : Place (.reg r)
  | word {o : Int} (near : Near o) : Place (.mem rbp o)

/-! ### Forms of instructions -/

/-- A register, a word of memory, or a number of 32 bits. -/
def isShort : Operand → Bool
  | .reg _ | .mem .. => true
  | .imm w => fits32 w.toInt
  | _ => false

/-- The machine has the instruction. Only a load takes a wide number, and only `lea` a string. The
stack pointer is moved by numbers of bytes in `S`. -/
inductive Encodable (S : Int → Prop) : Instr → Prop where
  | load {r : Register} {source : Operand} (form : isShort source = true ∨ ∃ w, source = .imm w) :
    Encodable S (.binary .mov (.reg r) source)
  | store {base : Register} {o : Int} {source : Operand} (form : isShort source = true)
      (plain : isMemory source = false) : Encodable S (.binary .mov (.mem base o) source)
  | lea (r : Register) (index : Nat) : Encodable S (.binary .lea (.reg r) (.str index))
  | operate {op : Opcode} {r : Register} {source : Operand} (form : op ∈ [Opcode.add, .sub, .imul, .cmp])
    (short : isShort source = true) : Encodable S (.binary op (.reg r) source)
  | shift {op : Opcode} {bytes : Int} (form : op = .add ∨ op = .sub) (known : S bytes) :
    Encodable S (.binary op (.reg rsp) (.imm (Int64.ofInt bytes)))
  | neg (r : Register) : Encodable S (.unary .neg (.reg r))
  | idiv {divisor : Operand} (short : isShort divisor = true) (cell : ∀ w, divisor ≠ .imm w) :
      Encodable S (.unary .idiv divisor)
  | push {operand : Operand} (short : isShort operand = true) : Encodable S (.unary .push operand)
  | pop (r : Register) : Encodable S (.unary .pop (.reg r))
  | cqo : Encodable S (.nullary .cqo)
  | call (symbol : String) (returnType : Ty) (isExternal : Bool) :
    Encodable S (.unary .call (.callee symbol [] returnType isExternal))
  | jmp (b : BlockId) : Encodable S (.unary .jmp (.block b))
  | ret : Encodable S (.nullary .ret)

lemma Encodable.mono {S S' : Int → Prop} (h : Encodable S i) (more : ∀ bytes, S bytes → S' bytes) :
    Encodable S' i := by
  cases h with
  | load form => exact .load form
  | store form plain => exact .store form plain
  | lea r index => exact .lea r index
  | operate form short => exact .operate form short
  | shift form known => exact .shift form (more _ known)
  | neg r => exact .neg r
  | idiv short cell => exact .idiv short cell
  | push short => exact .push short
  | pop r => exact .pop r
  | cqo => exact .cqo
  | call symbol returnType isExternal => exact .call symbol returnType isExternal
  | jmp b => exact .jmp b
  | ret => exact .ret

/-! ### Moves -/

/-- The code of a move by way of the scratch register. -/
def throughScratch (op : Opcode) (destination source : Operand) : List Instr :=
  [.binary op (.reg scratch) source, .binary .mov destination (.reg scratch)]

/-- The code of a move to another place. -/
def moveOver (destination source : Operand) : List Instr :=
  match destination, source with
  | .reg _, .str _ => [.binary .lea destination source]
  | _, .str _ => throughScratch .lea destination source
  | .mem .., .mem .. => throughScratch .mov destination source
  | .mem .., .imm value =>
    if fits32 value.toInt then [.binary .mov destination source] else throughScratch .mov destination source
  | _, _ => [.binary .mov destination source]

/-- The code of a move. -/
def moveCode (destination source : Operand) : List Instr :=
  if destination = source then [] else moveOver destination source

variable {s : Cpu}

lemma perform_mov_reg (r : Register) (stands : Stands M s source v) (plain : ∀ index, source ≠
      .str index) : s.perform M.strings (.binary .mov (.reg r) source) = .next (s.set r v) := by
  cases stands with
  | reg q => rfl
  | word near =>
    show Effect.ofOption ((s.value? (.mem rbp _)).bind _) = _
    simp only [Cpu.value?, near.fits, if_true, Option.bind_some, Cpu.put?]
    rfl
  | imm w => rfl
  | str index => exact absurd rfl (plain index)

lemma perform_mov_word (strings : Nat → Word) (near : Near o)
    (value : s.value? source = some v) (plain : isMemory source = false) :
    s.perform strings (.binary .mov (.mem rbp o) source) = .next (s.setWord o v) := by
  have stored : s.put? v (.mem rbp o) = some (s.setWord o v) := by simp only [Cpu.put?, near.fits, if_true]; rfl
  show s.move (.mem rbp o) source = _
  rw [Cpu.move, plain, value, Bool.and_false, if_neg Bool.false_ne_true, Option.bind_some, stored]
  · rfl
  · exact nofun

lemma Stands.of_reg {r : Register} (h : s.reg r = v) : Stands M s (.reg r) v := h ▸ .reg r

lemma Stands.of_word (near : Near o) (h : s.word o = v) : Stands M s (.mem rbp o) v := h ▸ .word near

/-- A word of the frame gets a value by way of the scratch register. -/
private lemma moves_through_scratch {i : Instr} (near : Near o) (load : s.perform M.strings i =
      .next (s.set scratch v)) : ∃ s', Passes M [i, .binary .mov (.mem rbp o) (.reg scratch)] s s' ∧
    Stands M s' (.mem rbp o) v ∧ Keeps (fun r => r = scratch ∨ Operand.mem rbp o = .reg r)
    (fun o' => Operand.mem rbp o = .mem rbp o') s s' := by
  have store : (s.set scratch v).perform M.strings (.binary .mov (.mem rbp o) (.reg scratch)) = _ :=
    perform_mov_word M.strings near rfl rfl
  refine ⟨_, .cons load (.single store), .of_word near ?_, ?_⟩
  · rw [Cpu.word_setWord_self, Cpu.reg_set_self]
  · exact (Keeps.set s v (by decide) (.inl rfl)).trans (.setWord _ _ near.spaced rfl)

/-- A move puts the value in its place and may change the scratch register. -/
lemma moves {destination : Operand} (place : Place destination) (stands : Stands M s source v) :
    ∃ s', Passes M (moveCode destination source) s s' ∧ Stands M s' destination v ∧
      Keeps (fun r => r = scratch ∨ destination = .reg r) (fun o => destination = .mem rbp o) s s' := by
  by_cases same : destination = source
  · rw [moveCode, if_pos same]
    exact ⟨s, .nil M s, same ▸ stands, .refl _ _ s⟩
  rw [moveCode, if_neg same]
  cases place with
  | @reg r other =>
    have keeps : Keeps (fun q => q = scratch ∨ Operand.reg r = .reg q)
      (fun o => Operand.reg r = .mem rbp o) s (s.set r v) := .set s v other (.inr rfl)
    have stands' : Stands M (s.set r v) (.reg r) v := .of_reg (s.reg_set_self r v)
    cases stands with
    | reg _ | imm _ => exact ⟨_, .single (perform_mov_reg r (by constructor) (by simp)), stands', keeps⟩
    | word near => exact ⟨_, .single (perform_mov_reg r (.word near) (by simp)), stands', keeps⟩
    | str index => exact ⟨_, .single rfl, stands', keeps⟩
  | @word o near =>
    have plain {source : Operand} (value : s.value? source = some v) (plain : isMemory source =
      false) : ∃ s', Passes M [.binary .mov (.mem rbp o) source] s s' ∧ Stands M s' (.mem rbp o) v ∧
      Keeps (fun r => r = scratch ∨ Operand.mem rbp o = .reg r) (fun o' => Operand.mem rbp o =
      .mem rbp o') s s' := ⟨_, .single (perform_mov_word M.strings near value plain),
      .of_word near (s.word_setWord_self o v), .setWord s v near.spaced rfl⟩
    cases stands with
    | reg q => exact plain rfl rfl
    | word near' => exact moves_through_scratch near (perform_mov_reg scratch (.word near') (by simp))
    | str index => exact moves_through_scratch near rfl
    | imm w =>
      show ∃ s', Passes M (if fits32 w.toInt = true then _ else _) s s' ∧ _
      split
      · exact plain (by simp only [Cpu.value?, *, if_true]) rfl
      · exact moves_through_scratch near rfl

end EmLang.Native
