import EmLang.Proofs.Activation
import EmLang.Proofs.MachineRuns

/-!
Arithmetic of the machine. It works on words as bits; what the words stand for as numbers with sign
is what the operations over slots give, and a division is refused exactly where there is no
quotient.
-/

namespace EmLang.Native

open Int64 Lir Register

/-- Words as what slots hold. A string is its address. -/
def words (strings : Nat → Word) : Domain Word where
  ofWord := toBitVec
  word? v := some (ofBitVec v)
  ofString? index := some (strings index)

variable {M : Setting} {s : Cpu} {r : Register} {source : Operand} {v : Word}

lemma Stands.value? (stands : Stands M s source v) (short : isShort source = true) :
    s.value? source = some v := by
  cases stands with
  | reg _ => rfl
  | word near =>
    simp only [Cpu.value?, near.fits, if_true]
    rfl
  | imm w =>
    have fits : fits32 w.toInt = true := short
    simp only [Cpu.value?, fits, if_true]
  | str _ => cases short

/-- The register has a new value, and only the flags differ otherwise. -/
lemma Keeps.setFlags (flags : Flags) (other : r ≠ rbp) :
    Keeps (· = r) (fun _ => False) s (({ s with flags } : Cpu).set r v) := by
  have set : Keeps (· = r) (fun _ => False) ({ s with flags } : Cpu)
    (({ s with flags } : Cpu).set r v) := .set _ v other rfl
  exact ⟨set.reg, set.word⟩

def Opcode.onWords? : Opcode → Option (Word → Word → Word)
  | .add => some (· + ·)
  | .sub => some (· - ·)
  | .imul => some (· * ·)
  | _ => none

lemma perform_operate {op : Opcode} {f : Word → Word → Word} (known : Opcode.onWords? op = some f)
    (stands : Stands M s source v) (short : isShort source = true) (other : r ≠ rbp) :
    ∃ s', s.perform M.strings (.binary op (.reg r) source) = .next s' ∧ s'.reg r = f (s.reg r) v ∧
    Keeps (· = r) (fun _ => False) s s' := by
  have value := stands.value? short
  have runs exact : s.operate f exact (.reg r) source =
      .next (({ s with flags := .of (f (s.reg r) v) (exact (s.reg r).toInt v.toInt) } : Cpu).set r
      (f (s.reg r) v)) := by
    simp only [Cpu.operate, isMemory, Bool.false_and, Bool.false_eq_true, if_false, value]
    rfl
  cases op <;> try cases known
  all_goals exact ⟨_, runs _, Cpu.reg_set_self .., .setFlags _ other⟩

lemma perform_neg (strings : Nat → Word) (s : Cpu) (other : r ≠ rbp) : ∃ s', s.perform strings
    (.unary .neg (.reg r)) = .next s' ∧ s'.reg r = -s.reg r ∧ Keeps (· = r) (fun _ => False) s s' :=
  ⟨_, rfl, Cpu.reg_set_self .., .setFlags _ other⟩

lemma moves_reg (stands : Stands M s source v) (other : r ≠ rbp) :
    ∃ s', Passes M (moveCode (.reg r) source) s s' ∧ s'.reg r = v ∧ Keeps (· = r) (fun _ => False) s s' := by
  by_cases same : Operand.reg r = source
  · rw [moveCode, if_pos same]
    subst same
    cases stands
    exact ⟨s, .nil M s, rfl, .refl _ _ s⟩
  · rw [moveCode, if_neg same]
    have set : Keeps (· = r) (fun _ => False) s (s.set r v) := .set s v other rfl
    cases stands with
    | reg _ | imm _ => exact ⟨_, .single (perform_mov_reg r (by constructor) (by simp)),
        s.reg_set_self r _, set⟩
    | word near => exact ⟨_, .single (perform_mov_reg r (.word near) (by simp)), s.reg_set_self r _, set⟩
    | str index => exact ⟨_, .single rfl, s.reg_set_self r _, set⟩

/-- An operand has its value as long as its register is not written. -/
lemma Stands.keep {s' : Cpu} {T : Register → Prop} (stands : Stands M s source v) (keeps : Keeps T
      (fun _ => False) s s') (other : ∀ r, source = .reg r → ¬ T r) : Stands M s' source v := by
  cases stands with
  | reg r => exact .of_reg (keeps.reg r (other r rfl))
  | word near => exact .of_word near (keeps.word _ near.spaced id)
  | imm w => exact .imm w
  | str index => exact .str index

/-! ### Division -/

lemma Cpu.dividend_extend (s : Cpu) : s.extend.dividend = (s.reg rax).toInt := by
  have low : s.extend.reg rax = s.reg rax := s.reg_set_of_ne _ (by decide)
  have high : s.extend.reg rdx = if (s.reg rax).msb then -1 else 0 := s.reg_set_self rdx _
  rw [Cpu.dividend, low, high, (s.reg rax).toInt_eq_msb_cond]
  split
  · have ones : (-1 : Word).toInt = -1 := by decide
    omega
  · simp

/-- A quotient that is no word is that of the least word by −1. -/
lemma hasQuotient_iff (a b : Int64) : HasQuotient a b ↔
    ¬ (b.toBitVec = 0 ∨ a.toInt.tdiv b.toInt < -2 ^ 63 ∨ 2 ^ 63 ≤ a.toInt.tdiv b.toInt) := by
  have low := a.le_toInt
  have high := a.toInt_lt
  have zero : b.toBitVec = 0 ↔ b.toInt = 0 := by
    rw [← toInt_zero, toInt_inj, ← toBitVec_inj]
    rfl
  have least : a = minValue ↔ a.toInt = -2 ^ 63 := by
    rw [← toInt_inj, toInt_minValue]
  have minus : b = -1 ↔ b.toInt = -1 := by
    rw [← toInt_inj]
    rfl
  have none : b = 0 ↔ b.toInt = 0 := by
    rw [← toInt_inj]
    rfl
  rw [Lir.HasQuotient, zero, least, minus, ne_eq, none]
  generalize a.toInt = x at *
  generalize b.toInt = y at *
  have size : (x.tdiv y).natAbs = x.natAbs / y.natAbs := Int.natAbs_tdiv ..
  by_cases one : y.natAbs ≤ 1
  · obtain rfl | rfl | rfl : y = 0 ∨ y = 1 ∨ y = -1 := by omega
    · simp
    · simp only [Int.tdiv_one]
      omega
    · have turned : x.tdiv (-1) = -x := by rw [Int.tdiv_neg, Int.tdiv_one]
      omega
  · have half : x.natAbs / y.natAbs ≤ x.natAbs / 2 := Nat.div_le_div_left (by omega) (by decide)
    omega

lemma ofInt_tdiv (a b : Int64) : BitVec.ofInt 64 (a.toInt.tdiv b.toInt) = (a / b).toBitVec := by
  rw [Int64.toBitVec_div]
  refine BitVec.eq_of_toInt_eq ?_
  rw [BitVec.toInt_ofInt, BitVec.toInt_sdiv]
  rfl

lemma ofInt_tmod (a b : Int64) : BitVec.ofInt 64 (a.toInt.tmod b.toInt) = (a % b).toBitVec := by
  show BitVec.ofInt 64 (a.toBitVec.toInt.tmod b.toBitVec.toInt) = _
  rw [Int64.toBitVec_mod, ← BitVec.toInt_srem, BitVec.ofInt_toInt]

lemma perform_divide {divisor : Operand} (stands : Stands M s.extend divisor v)
    (short : isShort divisor = true) : s.extend.perform M.strings (.unary .idiv divisor) =
    if HasQuotient (ofBitVec (s.reg rax)) (ofBitVec v) then
        .next ((s.extend.set rax (ofBitVec (s.reg rax) / ofBitVec v).toBitVec).set rdx
          (ofBitVec (s.reg rax) % ofBitVec v).toBitVec)
      else .trap := by
  have quotient := hasQuotient_iff (ofBitVec (s.reg rax)) (ofBitVec v)
  have numbers : ∀ w : Word, (ofBitVec w).toInt = w.toInt := fun _ => rfl
  have bits : (ofBitVec v).toBitVec = v := rfl
  show s.extend.divide divisor = _
  rw [Cpu.divide, stands.value? short]
  simp only [Cpu.dividend_extend, ← ofInt_tdiv, ← ofInt_tmod, numbers]
  split_ifs with refused has has
  · exact absurd refused (quotient.1 has)
  · rfl
  · rfl
  · exact absurd (quotient.2 refused) has

end EmLang.Native
