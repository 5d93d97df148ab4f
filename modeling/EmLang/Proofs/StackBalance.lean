import EmLang.Proofs.ArgumentPassing

/-!
How far code lowers the stack pointer. Pushes and pops move it by a word, and around calls it is
lowered for the arguments, by a multiple of 16, and raised again; all other instructions of a body
leave it alone.
-/

namespace EmLang.Native

open Lir List Lowering Register

variable {code code' : List Instr} {i : Instr} {values : List Operand}

/-! ### How far code lowers the stack pointer -/

/-- How far an instruction lowers the stack pointer. -/
def sinks : Instr → Int
  | .unary .push _ => 8
  | .unary .pop _ => -8
  | .binary .sub (.reg .rsp) (.imm w) => w.toInt
  | .binary .add (.reg .rsp) (.imm w) => -w.toInt
  | _ => 0

/-- How far code lowers the stack pointer. -/
def sunk (code : List Instr) : Int := (code.map sinks).sum

@[simp] lemma sunk_nil : sunk [] = 0 := rfl

@[simp] lemma sunk_cons (i : Instr) (code : List Instr) : sunk (i :: code) = sinks i + sunk code := by
  simp [sunk]

@[simp] lemma sunk_append (code code' : List Instr) : sunk (code ++ code') = sunk code + sunk code' := by
  simp [sunk]

lemma Lowering.Still.sinks (still : Still i) : sinks i = 0 := by
  unfold Native.sinks
  split
  · cases still.opcode
  · cases still.opcode
  · exact absurd rfl (still.working rsp rfl).2
  · exact absurd rfl (still.working rsp rfl).2
  · rfl

lemma sunk_of_still (still : ∀ i ∈ code, Still i) : sunk code = 0 := by
  induction code with
  | nil => rfl
  | cons i code ih =>
    rw [forall_mem_cons] at still
    rw [sunk_cons, still.1.sinks, ih still.2]
    rfl

lemma Lowering.Still.opcode_ne_call (still : Still i) : i.opcode ≠ .call := by
  intro calls
  have opcode := still.opcode
  rw [calls] at opcode
  cases opcode

/-- An instruction of a body, which leaves the frame pointer alone. It is a call only where there
may be calls. -/
inductive Bodily (C : Prop) : Instr → Prop where
  | still {i : Instr} (still : Still i) : Bodily C i
  | push (operand : Operand) : Bodily C (.unary .push operand)
  | pop {r : Register} (working : Working r) : Bodily C (.unary .pop (.reg r))
  | shift {op : Opcode} (form : op = .add ∨ op = .sub) (w : Int64) : Bodily C (.binary op (.reg rsp) (.imm w))
  | call (calling : C) (operand : Operand) : Bodily C (.unary .call operand)

lemma Bodily.opcode_ne_call (bodily : Bodily False i) : i.opcode ≠ .call := by
  cases bodily with
  | still still => exact still.opcode_ne_call
  | push | pop => exact nofun
  | shift form w => obtain rfl | rfl := form <;> exact nofun
  | call calling => exact calling.elim

/-- On its way through the code, the stack pointer is lowered by at least `low` and at most `high`,
and by `total` in the end. -/
structure Sinking (C : Prop) (low high total : Int) (code : List Instr) : Prop where
  parts : ∀ front rest, code = front ++ rest → low ≤ sunk front ∧ sunk front ≤ high
  whole : sunk code = total
  bodily : ∀ i ∈ code, Bodily C i

variable {C : Prop}

namespace Sinking

variable {low high total low' high' total' : Int}

lemma nil : Sinking C 0 0 0 [] := by
  refine ⟨fun front rest h => ?_, rfl, forall_mem_nil _⟩
  obtain ⟨rfl, -⟩ := append_eq_nil_iff.1 h.symm
  exact ⟨le_rfl, le_rfl⟩

lemma single (bodily : Bodily C i) (known : sinks i = total) :
    Sinking C (min 0 total) (max 0 total) total [i] := by
  refine ⟨fun front rest h => ?_, by simp [known], forall_mem_singleton.2 bodily⟩
  obtain ⟨rfl, -⟩ | ⟨rfl, -⟩ := singleton_eq_append_iff.1 h
  · simp
  · simp [known]

lemma append (h : Sinking C low high total code) (h' : Sinking C low' high' total' code') :
    Sinking C (min low (total + low')) (max high (total + high')) (total + total') (code ++ code') := by
  refine ⟨fun front rest same => ?_, by rw [sunk_append, h.whole,
    h'.whole], forall_mem_append.2 ⟨h.bodily, h'.bodily⟩⟩
  obtain ⟨more, rfl, rfl⟩ | ⟨more, rfl, rfl⟩ := append_eq_append_iff.1 same
  · have part := h'.parts more rest rfl
    rw [sunk_append, h.whole]
    omega
  · have part := h.parts front more rfl
    omega

lemma mono (h : Sinking C low high total code) (lower : low' ≤ low) (higher : high ≤ high') :
    Sinking C low' high' total code :=
  ⟨fun front rest same => ⟨lower.trans (h.parts front rest same).1,
  (h.parts front rest same).2.trans higher⟩, h.whole, h.bodily⟩

lemma of_still (still : ∀ i ∈ code, Still i) : Sinking C 0 0 0 code := by
  refine ⟨fun front rest same => ?_, sunk_of_still still, fun i hi => .still (still i hi)⟩
  rw [same, forall_mem_append] at still
  rw [sunk_of_still still.1]
  exact ⟨le_rfl, le_rfl⟩

end Sinking

/-! ### The code of calls -/

lemma still_scratch (op : Opcode) (value : Operand) (unused : usesStack op = false) :
    Still (.binary op (.reg scratch) value) := by
  refine ⟨unused, fun r hr => ?_⟩
  simp only [destination?] at hr
  split_ifs at hr
  exact Option.some.inj hr ▸ working_scratch

lemma sinking_push (value : Operand) : Sinking C 0 8 8 (pushCode value) := by
  have push (value : Operand) : Sinking C 0 8 8 [.unary .push value] := by
    have lowers : sinks (.unary .push value) = 8 := rfl
    exact Sinking.single (.push value) lowers
  have through {i : Instr} (still : Still i) : Sinking C 0 8 8 [i, .unary .push (.reg scratch)] := by
    exact (Sinking.of_still (forall_mem_singleton.2 still)).append (push (.reg scratch))
  unfold pushCode
  split
  · split_ifs
    · exact push _
    · exact through (still_scratch _ _ rfl)
  · exact through (still_scratch _ _ rfl)
  · exact push _

lemma sinking_pushes (values : List Operand) :
    Sinking C 0 (8 * values.length) (8 * values.length) (values.flatMap pushCode) := by
  induction values with
  | nil => exact Sinking.nil
  | cons value values ih =>
    have both := (sinking_push value).append ih
    rw [flatMap_cons, length_cons]
    have total : (8 : Int) + 8 * values.length = 8 * (values.length + 1 : Nat) := by omega
    rw [total] at both
    exact both.mono (by omega) (by omega)

lemma sinking_pops (registers : List Register) (working : ∀ r ∈ registers, Working r) :
    Sinking C (-8 * registers.length) 0 (-8 * registers.length)
    (registers.map fun r => Instr.unary .pop (.reg r)) := by
  induction registers with
  | nil => exact Sinking.nil
  | cons r registers ih =>
    rw [forall_mem_cons] at working
    have raises : sinks (.unary .pop (.reg r)) = -8 := rfl
    have pop : Sinking C (-8) 0 (-8) [.unary .pop (.reg r)] := Sinking.single (.pop working.1) raises
    have both := pop.append (ih working.2)
    rw [map_cons, length_cons]
    have total : (-8 : Int) + -8 * registers.length = -8 * (registers.length + 1 : Nat) := by omega
    rw [total] at both
    exact both.mono (by omega) (by omega)

lemma still_moveCode {r : Register} (working : Working r) (source : Operand) :
    ∀ i ∈ moveCode (.reg r) source, Still i := by
  have move op (unused : usesStack op = false) : Still (.binary op (.reg r) source) := by
    refine ⟨unused, fun q hq => ?_⟩
    simp only [destination?] at hq
    split_ifs at hq
    exact Option.some.inj hq ▸ working
  intro i hi
  rw [moveCode] at hi
  split_ifs at hi
  · cases hi
  cases source <;> (obtain rfl := mem_singleton.1 hi; exact move _ rfl)

lemma sinking_pass (few : values.length ≤ argumentRegisters.length) : Sinking C 0 48 0 (passCode values) := by
  have count : argumentRegisters.length = 6 := rfl
  unfold passCode
  split_ifs
  · have both := (sinking_pushes (C := C) values).append
      (sinking_pops (argumentRegisters.take values.length).reverse fun r hr =>
      (passing_ne (mem_of_mem_take (mem_reverse.1 hr))).symm)
    have length : (argumentRegisters.take values.length).reverse.length = values.length := by
      rw [length_reverse, length_take]
      omega
    rw [length, show (8 : Int) * values.length + -8 * values.length = 0 by omega] at both
    exact both.mono (by omega) (by omega)
  · have still : ∀ i ∈ (values.zip argumentRegisters).flatMap fun p => moveCode (.reg p.2) p.1, Still i := by
      intro i hi
      obtain ⟨p, hp, hi⟩ := mem_flatMap.1 hi
      exact still_moveCode (passing_ne (of_mem_zip hp).2).symm p.1 i hi
    exact (Sinking.of_still still).mono le_rfl (by omega)

/-- What brings the arguments of a call to their places lowers the stack pointer by a multiple of
16. -/
lemma sinking_arguments (values : List Operand) :
    Sinking C 0 (8 * stackWords values + 48) (8 * stackWords values) (argumentCode values) := by
  let onStack := values.drop argumentRegisters.length
  have padding : Sinking C 0 (8 * (onStack.length % 2 : Nat)) (8 * (onStack.length % 2 : Nat))
      (if onStack.length % 2 = 1 then [.binary .sub (.reg rsp) (.imm (Int64.ofInt word))] else []) := by
    by_cases odd : onStack.length % 2 = 1
    · have lowers : sinks (.binary .sub (.reg rsp) (.imm (Int64.ofInt word))) = 8 := by decide
      rw [if_pos odd, odd]
      exact Sinking.single (.shift (.inr rfl) _) lowers
    · rw [if_neg odd, show onStack.length % 2 = 0 by omega]
      exact Sinking.nil
  have all := (padding.append (sinking_pushes onStack.reverse)).append
    (sinking_pass (length_take_le argumentRegisters.length values))
  have words : stackWords values = onStack.length + onStack.length % 2 := rfl
  rw [length_reverse] at all
  have total : (8 : Int) * (onStack.length % 2 : Nat) + 8 * onStack.length + 0 = 8 *
    stackWords values := by omega
  rw [total] at all
  exact all.mono (by omega) (by omega)

/-- What stands behind a call to give up the stack of its arguments. -/
def cleanup (bytes : Int) : List Instr :=
  if 0 < bytes then [.binary .add (.reg rsp) (.imm (Int64.ofInt bytes))] else []

/-- Code that leaves the stack pointer where it was and is never above that. At calls the stack
pointer is lower by a multiple of 16, which the clean-up behind them takes back. -/
structure Balanced (code : List Instr) : Prop extends Sinking True 0 (2 ^ 32) 0 code where
  calls : ∀ front operand rest, code = front ++ .unary .call operand :: rest → 16 ∣ sunk front ∧
    sunk (cleanup (sunk front)) = -sunk front ∧ ∃ behind, rest = cleanup (sunk front) ++ behind

namespace Balanced

lemma of_still (still : ∀ i ∈ code, Still i) : Balanced code := by
  refine ⟨(Sinking.of_still still).mono le_rfl (by omega), fun front operand rest same => ?_⟩
  have call : .unary .call operand ∈ code := same ▸ by simp
  exact absurd rfl (still _ call).opcode_ne_call

lemma append (h : Balanced code) (h' : Balanced code') : Balanced (code ++ code') := by
  refine ⟨(h.toSinking.append h'.toSinking).mono (by omega) (by omega), fun front operand rest same => ?_⟩
  obtain ⟨more, rfl, rfl⟩ | ⟨more, rfl, tail⟩ := append_eq_append_iff.1 same
  · rw [sunk_append, h.whole, zero_add]
    exact h'.calls more operand rest rfl
  · cases more with
    | nil =>
      have whole := h.whole
      rw [append_nil] at whole
      rw [whole]
      exact h'.calls [] operand rest tail.symm
    | cons i more =>
      cases tail
      obtain ⟨multiple, back, behind, rfl⟩ := h.calls front operand more rfl
      exact ⟨multiple, back, behind ++ code', append_assoc ..⟩

end Balanced

lemma sinking_cleanup {bytes : Int} (positive : 0 ≤ bytes) (small : bytes ≤ 2147483647) :
    Sinking C (-bytes) 0 (-bytes) (cleanup bytes) := by
  unfold cleanup
  split_ifs with some
  · have raises : sinks (.binary .add (.reg rsp) (.imm (Int64.ofInt bytes))) = -(Int64.ofInt bytes).toInt := rfl
    rw [Int64.toInt_ofInt_of_le (by omega) (by omega)] at raises
    exact (Sinking.single (.shift (.inl rfl) _) raises).mono (by omega) (by omega)
  · obtain rfl : bytes = 0 := by omega
    exact Sinking.nil

lemma cleanup_opcode (bytes : Int) : ∀ i ∈ cleanup bytes, i.opcode ≠ .call := by
  unfold cleanup
  split_ifs <;> simp [Instr.opcode]

/-- Arguments are brought to their places, and given up behind the call. -/
lemma balanced_callCode (symbol : String)
    (returnType : Ty) (isExternal : Bool) (small : stackWords values * word ≤ 2147483647) :
    Balanced (callCode symbol returnType isExternal values) := by
  have size : (stackWords values : Int) * word = 8 * stackWords values := mul_comm ..
  have words : stackWords values = (values.drop argumentRegisters.length).length +
    (values.drop argumentRegisters.length).length % 2 := rfl
  have clean : cleanCode values = cleanup (8 * stackWords values) := by rw [← size]; rfl
  rw [size] at small
  have sinking := sinking_cleanup (C := True) (by omega) small
  have calls : sinks (.unary .call (.callee symbol [] returnType isExternal)) = 0 := rfl
  have parts := (sinking_arguments values).append ((Sinking.single (.call trivial _) calls).append sinking)
  rw [show (8 : Int) * stackWords values + (0 + -(8 * stackWords values)) = 0 by omega] at parts
  rw [callCode_eq, clean]
  refine ⟨parts.mono (by omega) (by omega), fun front operand rest same => ?_⟩
  -- There is only this call.
  obtain ⟨rfl, -, rfl⟩ := (append_cons_inj_of_notMem
    (fun mem => ((sinking_arguments values).bodily _ mem).opcode_ne_call rfl) fun mem =>
    cleanup_opcode _ _ mem rfl).1 same
  rw [(sinking_arguments (C := True) values).whole]
  exact ⟨by omega, sinking.whole, [], (append_nil _).symm⟩

end EmLang.Native
