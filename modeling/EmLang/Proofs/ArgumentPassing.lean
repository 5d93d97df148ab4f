import EmLang.Proofs.SlotAssignments

/-!
How values come to the places of arguments: on the stack in order, and in their registers, either
one by one or by way of the stack where they stand in each other's way. Depths are distances below
the frame pointer.
-/

namespace EmLang.Native

open Cpu Int64 Lir List Option Register

variable {M : Setting} {s s' : Cpu} {d F bytes d' high : Int} {v w : Word} {r : Register}
  {value : Operand}

/-! ### The stack below the frame -/

/-- The stack pointer is so far below the frame pointer. -/
def Deep (d : Int) (s : Cpu) : Prop := s.reg rsp = s.reg rbp + BitVec.ofInt 64 (-d)

/-- The words are at the end of the stack, the first of them at the depth `d`. -/
def Stacked (s : Cpu) (d : Int) (ws : List Word) : Prop :=
  ∀ (i : Nat) w, ws[i]? = some w → s.word (-d + 8 * i) = w

/-- The registers that pushing a value may change. -/
def Pushing (r : Register) : Prop := r = rsp ∨ r = scratch

/-- The operand has its value as long as only words below the depth `d` change. -/
inductive Firm (d : Int) : Operand → Prop where
  | reg {r : Register} (other : ¬ Pushing r) : Firm d (.reg r)
  | word {o : Int} (near : Near o) (high : -d ≤ o) : Firm d (.mem rbp o)
  | imm (w : Int64) : Firm d (.imm w)
  | str (index : Nat) : Firm d (.str index)

lemma Stands.firm (stands : Stands M s value v) (firm : Firm F value)
    (keeps : Keeps Pushing (· < -F) s s') : Stands M s' value v := by
  cases firm with
  | reg other =>
    cases stands
    exact .of_reg (keeps.reg _ other)
  | word near high =>
    cases stands
    exact .of_word near (keeps.word _ near.spaced (by omega))
  | imm _ | str _ =>
    cases stands
    constructor

/-- The operand has the value, and keeps it while the stack grows below the depth `F`. -/
def Steady (M : Setting) (F : Int) (s : Cpu) (value : Operand) (v : Word) : Prop :=
  Stands M s value v ∧ Firm F value

lemma Steady.keep (h : Steady M F s value v) (keeps : Keeps Pushing (· < -F) s s') : Steady M F s' value v :=
  ⟨h.1.firm h.2 keeps, h.2⟩

variable {ws old : List Word} {values : List Operand} {α β : Type}

lemma Stacked.mono {R : Register → Prop} {W : Int → Prop} (h : Stacked s d ws)
    (keeps : Keeps R W s s') (bound : d ≤ 2 ^ 40) (long : 8 * ws.length ≤ d) (whole : 8 ∣ d)
    (other : ∀ o, -d ≤ o → ¬ W o) : Stacked s' d ws := by
  intro i w hi
  have lt : i < ws.length := (List.getElem?_eq_some_iff.1 hi).1
  rw [keeps.word _ ⟨by omega, by omega, by omega⟩ (other _ (by omega))]
  exact h i w hi

lemma ofInt_sub_eight (d : Int) : BitVec.ofInt 64 (-d) - 8 = BitVec.ofInt 64 (-(d + 8)) := by
  rw [Int.neg_add, BitVec.ofInt_add, sub_eq_add_neg]
  rfl

lemma push_eq (deep : Deep d s) (v : Word) :
    s.push v = (s.set rsp (s.reg rbp + BitVec.ofInt 64 (-(d + 8)))).setWord (-(d + 8)) v := by
  have address : s.reg rsp - 8 = s.reg rbp + BitVec.ofInt 64 (-(d + 8)) := by
    rw [deep, add_sub_assoc, ofInt_sub_eight]
  have base : (s.set rsp (s.reg rbp + BitVec.ofInt 64 (-(d + 8)))).reg rbp = s.reg rbp :=
    s.reg_set_of_ne _ (by decide)
  rw [Cpu.push, address, Cpu.setWord, Cpu.address, base]
  rfl

lemma pop_eq (deep : Deep d s) (r : Register) :
    s.pop r = (s.set rsp (s.reg rbp + BitVec.ofInt 64 (-(d - 8)))).set r (s.word (-d)) := by
  have address : s.reg rsp + 8 = s.reg rbp + BitVec.ofInt 64 (-(d - 8)) := by
    rw [deep, add_assoc]
    have step := ofInt_sub_eight (d - 8)
    rw [sub_add_cancel] at step
    rw [← step, sub_add_cancel]
  rw [pop, address, deep]
  rfl

/-! ### Pushing values -/

def pushCode : Operand → List Instr
  | .imm w =>
    if fits32 w.toInt then [.unary .push (.imm w)]
    else [.binary .mov (.reg scratch) (.imm w), .unary .push (.reg scratch)]
  | .str index => [.binary .lea (.reg scratch) (.str index), .unary .push (.reg scratch)]
  | value => [.unary .push value]

variable (whole : 8 ∣ d) (bound : d + 8 ≤ 2 ^ 40) (positive : 0 ≤ d)

include whole bound positive in
lemma push_passes_short (stands : Stands M s value v) (short : isShort value = true) (deep : Deep d s) :
    ∃ s', Passes M [.unary .push value] s s' ∧ Deep (d + 8) s' ∧ s'.word (-(d + 8)) = v ∧
      Keeps Pushing (· = -(d + 8)) s s' := by
  have performs : s.perform M.strings (.unary .push value) = .next (s.push v) := by
    show Effect.ofOption ((s.value? value).map s.push) = _
    rw [stands.value? short]
    rfl
  refine ⟨_, .single performs, ?_, ?_, ?_⟩
  · rw [push_eq deep]
    unfold Deep
    rw [reg_setWord, reg_setWord, reg_set_self, reg_set_of_ne _ _ (by decide)]
  · rw [push_eq deep, word_setWord_self]
  · rw [push_eq deep]
    exact (Keeps.set s _ (by decide) (.inl rfl)).trans (.setWord _ _ ⟨by omega, by omega, by omega⟩ rfl)

include whole bound positive in
lemma push_passes (stands : Stands M s value v) (deep : Deep d s) :
    ∃ s', Passes M (pushCode value) s s' ∧
    Deep (d + 8) s' ∧ s'.word (-(d + 8)) = v ∧ Keeps Pushing (· = -(d + 8)) s s' := by
  -- A value that is not short goes to the scratch register first.
  have through : ∀ {i : Instr}, s.perform M.strings i = .next (s.set scratch v) →
      ∃ s', Passes M [i, .unary .push (.reg scratch)] s s' ∧ Deep (d + 8) s' ∧ s'.word (-(d + 8)) = v ∧
        Keeps Pushing (· = -(d + 8)) s s' := by
    intro i load
    have deep' : Deep d (s.set scratch v) := by
      unfold Deep
      rw [reg_set_of_ne _ _ (by decide), reg_set_of_ne _ _ (by decide), deep]
    obtain ⟨s', passes, deep'', word, keeps⟩ :=
      push_passes_short whole bound positive (.of_reg (s.reg_set_self scratch v)) rfl deep'
    exact ⟨s', .cons load passes, deep'', word, (Keeps.set s v (by decide) (.inr rfl)).trans keeps⟩
  cases stands with
  | reg r => exact push_passes_short whole bound positive (.reg r) rfl deep
  | word near => exact push_passes_short whole bound positive (.word near) rfl deep
  | str index => exact through rfl
  | imm w =>
    simp only [pushCode]
    split_ifs with fits
    · exact push_passes_short whole bound positive (.imm w) fits deep
    · exact through rfl

lemma Stacked.cons (first : s.word (-d) = w) (rest : Stacked s (d - 8) ws) : Stacked s d (w :: ws) := by
  intro i v hi
  cases i with
  | zero =>
    cases hi
    simpa using first
  | succ i =>
    have shift : -d + 8 * ((i + 1 : Nat) : Int) = -(d - 8) + 8 * i := by omega
    exact shift ▸ rest i v hi

lemma Stacked.tail (h : Stacked s d (w :: ws)) : Stacked s (d - 8) ws := by
  intro i v hi
  have shift : -(d - 8) + 8 * (i : Int) = -d + 8 * ((i + 1 : Nat) : Int) := by omega
  exact shift ▸ h (i + 1) v hi

lemma Stacked.set (h : Stacked s d ws) (v : Word) (other : r ≠ rbp) : Stacked (s.set r v) d ws := by
  intro i w hi
  rw [word_set _ _ _ other]
  exact h i w hi

lemma pushAll_passes (steady : Forall₂ (Steady M F s) values ws) (deep : Deep d s)
    (stacked : Stacked s d old) (whole : 8 ∣ d) (positive : 0 ≤ F)
    (below : F ≤ d) (long : 8 * old.length ≤ d) (bound : d + 8 * values.length ≤ 2 ^ 40) :
    ∃ s', Passes M (values.flatMap pushCode) s s' ∧ Deep (d + 8 * values.length) s' ∧
    Stacked s' (d + 8 * values.length) (ws.reverse ++ old) ∧ Keeps Pushing (· < -F) s s' := by
  induction values generalizing s d old ws with
  | nil =>
    cases steady
    exact ⟨s, .nil M s, by simpa using deep, by simpa using stacked, .refl _ _ s⟩
  | cons value values ih =>
    obtain _ | ⟨head, tail⟩ := steady
    simp only [length_cons, Nat.cast_add, Nat.cast_one] at bound ⊢
    obtain ⟨s1, passes, deep1, word, keeps⟩ := push_passes whole (by omega) (by omega) head.1 deep
    have keeps' : Keeps Pushing (· < -F) s s1 := keeps.mono (fun _ => id) fun o ho => by omega
    have old' : Stacked s1 d old := stacked.mono keeps (by omega) long whole fun o ho h => by omega
    obtain ⟨s', passes', deep', stacked', keeps''⟩ := ih (tail.imp fun _ _ h => h.keep keeps') deep1
      (.cons word (by rwa [add_sub_cancel_right])) (by omega) (by omega) (by rw [length_cons]; omega) (by omega)
    have depth : d + 8 + 8 * (values.length : Int) = d + 8 * (values.length + 1) := by omega
    rw [depth] at deep' stacked'
    refine ⟨s', ?_, deep', ?_, keeps'.trans keeps''⟩
    · rw [flatMap_cons]
      exact passes.append passes'
    · rw [reverse_cons, append_assoc]
      exact stacked'

lemma popAll_passes {registers : List Register} (same : registers.length = ws.length)
    (distinct : registers.Nodup) (other : ∀ r ∈ registers, r ≠ rsp ∧ r ≠ rbp)
    (deep : Deep d s) (stacked : Stacked s d (ws ++ old)) : ∃ s',
    Passes M (registers.map fun r => .unary .pop (.reg r)) s s' ∧ Deep (d - 8 * ws.length) s' ∧
    Stacked s' (d - 8 * ws.length) old ∧ Forall₂ (fun r w => s'.reg r = w) registers ws ∧
    Keeps (fun r => r = rsp ∨ r ∈ registers) (fun _ => False) s s' := by
  induction registers generalizing s d ws with
  | nil =>
    obtain rfl := length_eq_zero_iff.1 same.symm
    exact ⟨s, .nil M s, by simpa using deep, by simpa using stacked, .nil, .refl _ _ s⟩
  | cons r registers ih =>
    obtain _ | ⟨w, ws⟩ := ws
    · cases same
    obtain ⟨notStack, notFrame⟩ := other r (by simp)
    obtain ⟨fresh, distinct⟩ := nodup_cons.1 distinct
    have word : s.word (-d) = w := by simpa using stacked 0 w rfl
    have rest : Stacked (s.pop r) (d - 8) (ws ++ old) := by
      exact (stacked.tail.set _ (by decide)).set _ notFrame
    have deep' : Deep (d - 8) (s.pop r) := by
      rw [pop_eq deep]
      unfold Deep
      rw [reg_set_of_ne _ _ (Ne.symm notStack), reg_set_self, reg_set_of_ne _ _ (Ne.symm notFrame),
        reg_set_of_ne _ _ (by decide)]
    have keeps : Keeps (fun q => q = rsp ∨ q ∈ r :: registers) (fun _ => False) s (s.pop r) := by
      exact (Keeps.set s _ (by decide) (.inl rfl)).trans (.set _ _ notFrame (.inr (by simp)))
    obtain ⟨s', passes, deep'', stacked', results, keeps'⟩ :=
      ih (by simpa using same) distinct (fun q hq => other q (by simp [hq])) deep' rest
    have depth : d - 8 - 8 * (ws.length : Int) = d - 8 * ((w :: ws).length : Int) := by
      rw [length_cons]
      omega
    rw [depth] at deep'' stacked'
    refine ⟨s', .cons rfl passes, deep'', stacked', .cons ?_ results, keeps.trans (keeps'.mono ?_ fun _ => id)⟩
    · rw [keeps'.reg r fun h => h.elim notStack fresh, pop_eq deep, reg_set_self, word]
    · exact fun q hq => hq.imp_right fun h => by simp [h]

/-! ### Registers of arguments -/

/-- Moving values to registers one after the other, where none is overwritten before it is moved. -/
lemma moveAll_passes {pairs : List (Operand × Register)} (stands : Forall₂
      (fun p w => Stands M s p.1 w) pairs ws) (distinct : (pairs.map Prod.snd).Nodup)
    (other : ∀ p ∈ pairs, p.2 ≠ rbp) (own : ∀ p ∈ pairs, ∀ q ∈ pairs, p.1 = .reg q.2 → p.2 = q.2) :
    ∃ s', Passes M (pairs.flatMap fun p => moveCode (.reg p.2) p.1) s s' ∧ Forall₂ (fun p w =>
      s'.reg p.2 = w) pairs ws ∧ Keeps (· ∈ pairs.map Prod.snd) (fun _ => False) s s' := by
  induction pairs generalizing s ws with
  | nil =>
    cases stands
    exact ⟨s, .nil M s, .nil, .refl _ _ s⟩
  | cons p pairs ih =>
    obtain _ | ⟨head, tail⟩ := stands
    obtain ⟨fresh, distinct⟩ := nodup_cons.1 distinct
    obtain ⟨s1, passes, result, keeps⟩ := moves_reg head (other p (by simp))
    have apart : ∀ q ∈ pairs, ∀ r, q.1 = .reg r → ¬ r = p.2 := by
      rintro q hq _ value rfl
      exact fresh (mem_map.2 ⟨q, hq, own q (by simp [hq]) p (by simp) value⟩)
    have tail' : Forall₂ (fun p w => Stands M s1 p.1 w) pairs _ :=
      ((forall₂_and_left _ _).2 ⟨apart, tail⟩).imp fun _ _ h => h.2.keep keeps h.1
    obtain ⟨s', passes', results, keeps'⟩ := ih tail' distinct (fun q hq => other q (by simp [hq]))
      fun q hq q' hq' => own q (by simp [hq]) q' (by simp [hq'])
    refine ⟨s', ?_, .cons ?_ results, (keeps.mono ?_ fun _ => id).trans (keeps'.mono ?_ fun _ => id)⟩
    · rw [flatMap_cons]
      exact passes.append passes'
    · rw [keeps'.reg p.2 fresh, result]
    · rintro _ rfl
      simp
    · exact fun r hr => by simp only [map_cons, mem_cons, hr, or_true]

/-- The code that puts values in the registers of arguments. -/
def passCode (values : List Operand) : List Instr :=
  if Lowering.clobbersSource values then
    values.flatMap pushCode ++ (argumentRegisters.take values.length).reverse.map fun r => .unary .pop (.reg r)
  else (values.zip argumentRegisters).flatMap fun p => moveCode (.reg p.2) p.1

/-- The registers that putting values in the registers of arguments may change. -/
def Passing (r : Register) : Prop := Pushing r ∨ r ∈ argumentRegisters

lemma passing_ne (h : r ∈ argumentRegisters) : r ≠ rsp ∧ r ≠ rbp := by
  revert h
  cases r <;> decide

private lemma map_snd_zip_take (as : List α) (bs : List β) : (as.zip bs).map Prod.snd = bs.take as.length := by
  induction as generalizing bs with
  | nil => simp
  | cons a as ih => cases bs <;> simp [ih]

lemma pass_passes (few : values.length ≤ 6) (steady : Forall₂ (Steady M F s) values ws)
    (deep : Deep d s) (stacked : Stacked s d old) (whole : 8 ∣ d) (positive : 0 ≤ F) (below : F ≤ d)
    (long : 8 * old.length ≤ d) (bound : d + 48 ≤ 2 ^ 40) : ∃ s', Passes M (passCode values) s s' ∧
    Deep d s' ∧ Stacked s' d old ∧ Forall₂ (fun r w => s'.reg r = w)
    (argumentRegisters.take values.length) ws ∧ Keeps Passing (· < -F) s s' := by
  have length := steady.length_eq
  have count : (argumentRegisters.take values.length).length = values.length := by
    rw [length_take]
    exact min_eq_left few
  have distinct : (argumentRegisters.take values.length).Nodup := (take_sublist ..).nodup (by decide)
  unfold passCode
  split_ifs with clobbers
  · obtain ⟨s1, passes, deep1, stacked1, keeps⟩ :=
      pushAll_passes steady deep stacked whole positive below long (by omega)
    obtain ⟨s', passes', deep', stacked', results, keeps'⟩ := popAll_passes (M := M)
      (by rw [length_reverse, length_reverse, count, length]) (nodup_reverse.2 distinct)
      (fun r hr => passing_ne (mem_of_mem_take (mem_reverse.1 hr))) deep1 stacked1
    have depth : d + 8 * (values.length : Int) - 8 * (ws.reverse.length : Int) = d := by
      rw [length_reverse, length]
      omega
    rw [depth] at deep' stacked'
    refine ⟨s', passes.append passes', deep', stacked', ?_,
      (keeps.mono (fun _ => .inl) fun _ => id).trans (keeps'.mono ?_ fun _ => False.elim)⟩
    · exact forall₂_reverse_iff.1 results
    · rintro r (rfl | hr)
      · exact .inl (.inl rfl)
      · exact .inr (mem_of_mem_take (mem_reverse.1 hr))
  · have targets := map_snd_zip_take values argumentRegisters
    have sources : (values.zip argumentRegisters).map Prod.fst = values := map_fst_zip few
    have stands : Forall₂ (fun p w => Stands M s p.1 w) (values.zip argumentRegisters) ws := by
      rw [← sources, forall₂_map_left_iff] at steady
      exact steady.imp fun _ _ h => h.1
    have own : ∀ p ∈ values.zip argumentRegisters, ∀ q ∈ values.zip argumentRegisters,
        p.1 = .reg q.2 → p.2 = q.2 := by
      rintro ⟨_, target⟩ hp q hq ⟨⟩
      have apart := any_eq_false.1 (Bool.eq_false_iff.2 clobbers) _ hp
      by_contra ne
      exact apart (by simpa [Ne.symm ne] using (of_mem_zip hq).2)
    obtain ⟨s', passes, results, keeps⟩ :=
      moveAll_passes stands (targets ▸ distinct) (fun p hp => (passing_ne (of_mem_zip hp).2).2) own
    have keeps' : Keeps Passing (· < -F) s s' := by
      refine keeps.mono (fun r hr => .inr ?_) fun _ => False.elim
      rw [targets] at hr
      exact mem_of_mem_take hr
    have frame : s'.reg rsp = s.reg rsp ∧ s'.reg rbp = s.reg rbp := by
      refine ⟨keeps.reg _ fun h => ?_, keeps.reg _ fun h => ?_⟩ <;> rw [targets] at h
      · exact (passing_ne (mem_of_mem_take h)).1 rfl
      · exact (passing_ne (mem_of_mem_take h)).2 rfl
    refine ⟨s', passes, ?_, stacked.mono keeps (by omega) long whole fun _ _ => id, ?_, keeps'⟩
    · unfold Deep
      rw [frame.1, frame.2, deep]
    · rw [← targets, forall₂_map_left_iff]
      exact results

/-! ### Calls -/

/-- The arguments are where a called function finds them: in registers, and on the stack from a
distance on above the stack pointer. -/
structure Passed (arguments : List Word) (distance : Int) (s : Cpu) : Prop where
  registers : ∀ (k : Nat) r w, argumentRegisters[k]? = some r → arguments[k]? = some w → s.reg r = w
  stack : ∀ (k : Nat) w, argumentRegisters.length ≤ k → arguments[k]? = some w →
    s.memory.load (s.reg rsp + BitVec.ofInt 64 (distance + 8 * (k - argumentRegisters.length : Nat))) = w

def Setting.answer (M : Setting) (n : Nat) (s : Cpu) : Word := (M.callee n s).reg returnRegister

/-- Called functions give back what the convention says, and leave the words of a frame from `low`
up to `high` alone. -/
structure Setting.Honours (M : Setting) (frame : Word) (low high : Int) : Prop where
  saved : ∀ n s r, isCalleeSaved r = true ∨ r = rbp ∨ r = rsp → (M.callee n s).reg r = s.reg r
  words : ∀ n s o, s.reg rbp = frame → 8 ∣ o → low ≤ o → o < high → (M.callee n s).word o = s.word o

/-- The registers that a call may change. -/
def Changing (r : Register) : Prop := isCalleeSaved r = false ∧ r ≠ rbp ∧ r ≠ rsp

/-- How many words are put on the stack for these arguments, with padding. -/
def stackWords {α : Type} (values : List α) : Nat :=
  (values.drop argumentRegisters.length).length + (values.drop argumentRegisters.length).length % 2

/-- The code that brings arguments from these places to their own. -/
def argumentCode (values : List Operand) : List Instr :=
  let onStack := values.drop argumentRegisters.length
  (if onStack.length % 2 = 1 then [.binary .sub (.reg rsp) (.imm (ofInt word))] else []) ++
    onStack.reverse.flatMap pushCode ++ passCode (values.take argumentRegisters.length)

def cleanCode (values : List Operand) : List Instr :=
  let bytes : Int := stackWords values * word
  if 0 < bytes then [.binary .add (.reg rsp) (.imm (ofInt bytes))] else []

def callCode (symbol : String) (returnType : Ty) (isExternal : Bool) (values : List Operand) : List Instr :=
  let onStack := values.drop argumentRegisters.length
  (if onStack.length % 2 = 1 then [.binary .sub (.reg rsp) (.imm (ofInt word))] else []) ++
    (onStack.reverse.flatMap pushCode ++ (passCode (values.take argumentRegisters.length) ++
    ([.unary .call (.callee symbol [] returnType isExternal)] ++ cleanCode values)))

lemma callCode_eq (symbol : String) (returnType : Ty) (isExternal : Bool) (values : List Operand) :
    callCode symbol returnType isExternal values = argumentCode values ++
    .unary .call (.callee symbol [] returnType isExternal) :: cleanCode values := by
  simp only [callCode, argumentCode, append_assoc, singleton_append]

lemma shift_passes {op : Opcode} (shift : op = .sub ∧ d' = d + bytes ∨ op = .add ∧ d' = d - bytes)
    (small : 0 ≤ bytes ∧ bytes ≤ 2147483647) (deep : Deep d s) :
    ∃ s', Passes M [.binary op (.reg rsp) (.imm (ofInt bytes))] s s' ∧ Deep d' s' ∧
    Keeps (· = rsp) (fun _ => False) s s' := by
  have bits : (ofInt bytes).toBitVec = BitVec.ofInt 64 bytes := toBitVec_ofInt bytes
  have short : isShort (.imm (ofInt bytes)) = true := by
    show fits32 (ofInt bytes).toInt = true
    rw [toInt_ofInt_of_le (by omega) (by omega), fits32_iff]
    omega
  have frame {s'} (keeps : Keeps (· = rsp) (fun _ => False) s s') : s'.reg rbp = s.reg rbp :=
    keeps.reg rbp (by decide)
  have stands : Stands M s (.imm (ofInt bytes)) (BitVec.ofInt 64 bytes) := bits ▸ .imm _
  obtain ⟨rfl, rfl⟩ | ⟨rfl, rfl⟩ := shift
  · have known : Opcode.onWords? .sub = some (· - ·) := rfl
    obtain ⟨s', performs, result, keeps⟩ := perform_operate known stands short (by decide : rsp ≠ rbp)
    refine ⟨s', .single performs, ?_, keeps⟩
    unfold Deep
    rw [result, frame keeps, deep, add_sub_assoc, Int.neg_add, BitVec.ofInt_add,
      BitVec.ofInt_neg (n := bytes), sub_eq_add_neg]
  · have known : Opcode.onWords? .add = some (· + ·) := rfl
    obtain ⟨s', performs, result, keeps⟩ := perform_operate known stands short (by decide : rsp ≠ rbp)
    refine ⟨s', .single performs, ?_, keeps⟩
    unfold Deep
    rw [result, frame keeps, deep, add_assoc, ← BitVec.ofInt_add, neg_sub, sub_eq_neg_add]

lemma forall₂_getElem? {R : α → β → Prop} {as : List α} {bs : List β} (h : Forall₂ R as bs) {k : Nat} {a : α}
    {b : β} (ha : as[k]? = some a) (hb : bs[k]? = some b) : R a b := by
  obtain ⟨lt, rfl⟩ := List.getElem?_eq_some_iff.1 ha
  obtain ⟨lt', rfl⟩ := List.getElem?_eq_some_iff.1 hb
  exact (forall₂_iff_get.1 h).2 k lt lt'

lemma Stacked.passed {n : Nat} (registers : Forall₂ (fun r w => s.reg r = w)
      (argumentRegisters.take n) (ws.take argumentRegisters.length)) (deep : Deep d s)
    (stacked : Stacked s d (ws.drop argumentRegisters.length)) : Passed ws 0 s := by
  refine ⟨fun k r w hr hw => ?_, fun k w hk hw => ?_⟩
  · have small : k < argumentRegisters.length := (List.getElem?_eq_some_iff.1 hr).1
    have here : (ws.take argumentRegisters.length)[k]? = some w := by rw [getElem?_take_of_lt small, hw]
    have lt : k < n := by
      have length := registers.length_eq
      have := (List.getElem?_eq_some_iff.1 here).1
      rw [← length, length_take] at this
      omega
    exact forall₂_getElem? registers (by rw [getElem?_take_of_lt lt, hr]) here
  · have here : (ws.drop argumentRegisters.length)[k - argumentRegisters.length]? = some w := by
      rw [getElem?_drop, Nat.add_sub_cancel' hk, hw]
    have address : s.reg rsp + BitVec.ofInt 64 (0 + 8 * (k - argumentRegisters.length : Nat)) =
        s.address rbp (-d + 8 * (k - argumentRegisters.length : Nat)) := by
      rw [address, deep, add_assoc, ← BitVec.ofInt_add, zero_add]
    rw [address]
    exact stacked _ w here

lemma length_stackWords {as : List α} {bs : List β} (h : as.length = bs.length) :
    stackWords as = stackWords bs := by
  simp only [stackWords, length_drop, h]

lemma arguments_passes (steady : Forall₂ (Steady M F s) values ws) (deep : Deep F s) (whole : 8 ∣ F)
    (positive : 0 ≤ F) (bound : F + 8 * stackWords values + 48 ≤ 2 ^ 40) :
    ∃ s', Passes M (argumentCode values) s s' ∧ Deep (F + 8 * stackWords values) s' ∧
    Passed ws 0 s' ∧ Keeps Passing (· < -F) s s' := by
  unfold argumentCode
  extract_lets onStack
  set padding : List Instr :=
    if onStack.length % 2 = 1 then [.binary .sub (.reg rsp) (.imm (ofInt word))] else []
  -- The padding makes the number of words even.
  have pads : ∃ s1, Passes M padding s s1 ∧ Deep (F + 8 * (onStack.length % 2 : Nat)) s1 ∧
      Keeps Pushing (· < -F) s s1 := by
    by_cases odd : onStack.length % 2 = 1
    · obtain ⟨s1, passes, deep1, keeps⟩ :=
        shift_passes (M := M) (.inl ⟨rfl, rfl⟩) (by decide : 0 ≤ word ∧ word ≤ 2147483647) deep
      refine ⟨s1, by simpa only [padding, odd,
        if_true] using passes, ?_, keeps.mono (fun _ => .inl) fun _ => False.elim⟩
      rw [odd]
      exact deep1
    · refine ⟨s, by simpa only [padding, odd, if_false] using .nil M s, ?_, .refl _ _ s⟩
      rw [show onStack.length % 2 = 0 by omega]
      simpa using deep
  obtain ⟨s1, passes1, deep1, keeps1⟩ := pads
  have total : stackWords values = onStack.length + onStack.length % 2 := rfl
  have length : onStack.reverse.length = onStack.length := length_reverse
  have steady1 : Forall₂ (Steady M F s1) onStack.reverse (ws.drop argumentRegisters.length).reverse :=
    forall₂_reverse_iff.2 ((forall₂_drop _ steady).imp fun _ _ h => h.keep keeps1)
  have empty : Stacked s1 (F + 8 * (onStack.length % 2 : Nat)) [] := fun i w h => nomatch h
  obtain ⟨s2, passes2, deep2, stacked, keeps2⟩ := pushAll_passes steady1 deep1 empty
    (by omega) positive (by omega) (by rw [length_nil]; omega) (by omega)
  have depth : F + 8 * ((onStack.length % 2 : Nat) : Int) + 8 * (onStack.reverse.length : Int) = F +
    8 * stackWords values := by omega
  rw [depth] at deep2 stacked
  rw [reverse_reverse, append_nil] at stacked
  have steady2 : Forall₂ (Steady M F s2) (values.take argumentRegisters.length)
    (ws.take argumentRegisters.length) := (forall₂_take _ steady).imp fun _ _ h =>
    (h.keep keeps1).keep keeps2
  have long : ((ws.drop argumentRegisters.length).length : Int) = onStack.length := by
    rw [length_drop, ← steady.length_eq, ← length_drop]
  obtain ⟨s', passes3, deep3, stacked', registers, keeps3⟩ := pass_passes
    (length_take_le ..) steady2 deep2 stacked (by omega) positive (by omega) (by omega) (by omega)
  refine ⟨s', (passes1.append passes2).append passes3, deep3, stacked'.passed registers deep3, ?_⟩
  exact ((keeps1.trans keeps2).mono (fun _ => .inl) fun _ => id).trans keeps3

lemma passing_changing (h : Passing r) : r = rsp ∨ Changing r := by
  revert h
  unfold Passing Pushing Changing
  cases r <;> decide

/-- A call brings the arguments to their places, and comes back with its answer. -/
lemma call_runs (steady : Forall₂ (Steady M F s) values ws) (deep : Deep F s) (whole : 8 ∣ F)
    (positive : 0 ≤ F) (small : F ≤ 2147483647) (bytes : stackWords values * word ≤ 2147483647) :
    ∃ s1, Passes M (argumentCode values) s s1 ∧ Passed ws 0 s1 ∧ Keeps Passing (· < -F) s s1 ∧
    ∀ n, M.Honours (s.reg rbp) (-F) high → ∃ s', Passes M (cleanCode values) (M.callee n s1) s' ∧
    s'.reg returnRegister = M.answer n s1 ∧ Deep F s' ∧
    Keeps Changing (fun o => o < -F ∨ high ≤ o) s s' := by
  have wordSize : word = 8 := rfl
  rw [wordSize] at bytes
  obtain ⟨s1, passes, deep1, passed, keeps1⟩ := arguments_passes steady deep whole positive (by omega)
  have frame1 : s1.reg rbp = s.reg rbp := keeps1.reg rbp (by unfold Passing Pushing; decide)
  refine ⟨s1, passes, passed, keeps1, fun n honours => ?_⟩
  obtain ⟨s2, hs2⟩ : ∃ s2, s2 = M.callee n s1 := ⟨_, rfl⟩
  have frame2 : s2.reg rbp = s1.reg rbp := hs2 ▸ honours.saved _ _ rbp (.inr (.inl rfl))
  have deep2 : Deep (F + 8 * stackWords values) s2 := by
    unfold Deep
    rw [frame2, hs2, honours.saved _ _ rsp (.inr (.inr rfl)), deep1]
  have cleans : ∃ s', Passes M (cleanCode values) s2 s' ∧ Deep F s' ∧
      Keeps (· = rsp) (fun _ => False) s2 s' := by
    rw [cleanCode, wordSize]
    split_ifs with some
    · exact shift_passes (.inr ⟨rfl, by omega⟩) (by omega) deep2
    · refine ⟨s2, .nil M s2, ?_, .refl _ _ s2⟩
      rwa [show F + 8 * (stackWords values : Int) = F by omega] at deep2
  obtain ⟨s', passes', deep', keeps'⟩ := cleans
  rw [← hs2]
  refine ⟨s', passes', ?_, deep', fun r hr => ?_, fun o spaced ho => ?_⟩
  · rw [keeps'.reg _ (by decide), hs2, Setting.answer]
  · by_cases stack : r = rsp
    · rw [stack, deep', deep, keeps'.reg rbp (by decide), frame2, frame1]
    · have kept : isCalleeSaved r = true ∨ r = rbp ∨ r = rsp := by
        by_contra none
        rw [not_or, not_or, Bool.not_eq_true] at none
        exact hr none
      rw [keeps'.reg r stack, hs2, honours.saved _ _ r kept, keeps1.reg r fun h =>
        (passing_changing h).elim stack hr]
  · rw [not_or, not_lt, not_le] at ho
    rw [keeps'.word o spaced id, hs2, honours.words _ _ o frame1 spaced.1 ho.1 ho.2,
      keeps1.word o spaced (by omega)]

end EmLang.Native
