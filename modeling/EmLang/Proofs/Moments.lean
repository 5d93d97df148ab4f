import EmLang.Proofs.ReachedStates

/-!
What lowering does at the moments it comes to, whatever the code is. Words of the frame keep their
owners, and all values can be read where the allocation says; so a division can be followed from
wherever its operands are.
-/

namespace EmLang.Native

open Lir Option Register

namespace Lowering

variable {R : CallRecord → Prop} {σ₀ σ σ' : State} {env : Env}

/-! ### Words of the frame -/

/-- Words keep their owners in every step. -/
lemma Step.grows (step : Step (fun t => env.function.isTemporary t = true) R σ σ')
    (valid : Valid env σ) : Valid env σ' ∧ Grows env σ σ' := by
  cases step with
  | output output => exact valid.update output valid.allocation rfl rfl fun _ => id
  | bind free pooled temporary => exact valid.bind free pooled temporary σ.output
  | spill temporary =>
    obtain ⟨valid', grows, -⟩ := valid.stack rfl temporary σ.output
    exact ⟨valid', grows⟩
  | release r => exact valid.empty (valid.allocation.release r) σ.output
  | save fresh =>
    obtain ⟨valid', grows, -⟩ := valid.save fresh
    exact ⟨valid', grows⟩
  | note =>
    exact ⟨⟨valid.allocation, valid.homed, valid.inside, valid.apart, valid.whole⟩, le_rfl, id, id,
      List.prefix_append ..⟩

lemma Valid.after (valid : Valid env σ₀) (h : Reached
      (fun t => env.function.isTemporary t = true) R σ₀ σ) : Valid env σ ∧ Grows env σ₀ σ := by
  obtain ⟨-, steps⟩ := h
  induction steps with
  | refl => exact ⟨valid, .refl σ₀⟩
  | tail _ step ih =>
    obtain ⟨valid', grows⟩ := step.grows ih.1
    exact ⟨valid', ih.2.trans grows⟩

/-- The values of slots, read where they are. -/
def State.values (env : Env) (σ : State) (s : Cpu) (t : Slot) : Option Word :=
  match σ.allocation.location? t with
  | some place => some (place.value s)
  | none => env.homes.offsets[t]?.map s.word

lemma placed_values (valid : Valid env σ) (s : Cpu) : Placed env σ (σ.values env s) s := by
  refine ⟨fun {x o v} home value => ?_, fun location value => ?_⟩
  · have none : σ.allocation.location? x = none := by
      refine eq_none_iff_forall_ne_some.2 fun place here => ?_
      cases home.symm.trans (valid.home?_of_temporary (valid.allocation.temporary here))
    rw [State.values, none, home] at value
    exact some.inj value
  · rw [State.values, location] at value
    exact some.inj value

/-- An operand that is somewhere has a value. -/
lemma exists_word (valid : Valid env σ) {a : Operand} (readable : a.Readable fun _ => True)
    (somewhere : Somewhere env σ a) (strings : Nat → Word) (s : Cpu) :
    ∃ w, wordOf? strings (σ.values env s) a = some w := by
  cases a with
  | slot t =>
    show ∃ w, σ.values env s t = some w
    unfold State.values
    cases here : σ.allocation.location? t with
    | some place => exact ⟨_, rfl⟩
    | none =>
      have declared : t < env.homes.offsets.length := by
        rw [valid.homed]
        by_contra high
        exact somewhere t rfl (decide_eq_true (Nat.le_of_not_lt high)) here
      rw [List.getElem?_eq_getElem declared]
      exact ⟨_, rfl⟩
  | imm w => exact ⟨_, rfl⟩
  | str index => exact ⟨_, rfl⟩
  | _ => exact readable.elim

/-! ### Divisions -/

/-- **A division leaves its result where the allocation says**, from whatever state lowering has
come to and wherever its operands are: the quotient is rounded toward zero, and the remainder has
the sign of the dividend. What lives on is still found with its value. -/
theorem lowerDivision_leaves
    {f : Lir.Function} {t : Slot} {source : Operand} {place : Location} (op : Opcode)
    (live : LiveSet) (reached : Reached (fun t => f.isTemporary t = true) (fun _ => True) (.start f) σ)
    (temporary : f.isTemporary t = true) (here : σ.allocation.location? t = some place)
    (readable : source.Readable fun _ => True) (somewhere : Somewhere (.of f) σ source) :
    ∃ σ' code, lowerDivision (.of f) op (.slot t) source live σ = .ok ((), σ') ∧
    σ'.output.toList = σ.output.toList ++ code ∧
    (Room (.of f) σ' → ∀ M s, ∃ r, wordOf? M.strings (σ.values (.of f) s) source = some r ∧
      (HasQuotient (Int64.ofBitVec (place.value s)) (Int64.ofBitVec r) → ∃ s', Passes M code s s' ∧
      (∃ after, σ'.allocation.location? t = some after ∧ after.value s' = BitVec.ofInt 64
      (if op = .idiv then (place.value s).toInt.tdiv r.toInt else (place.value s).toInt.tmod r.toInt)) ∧
      ∀ u ∈ live, u ≠ t → ∀ before, σ.allocation.location? u = some before →
      ∃ after, σ'.allocation.location? u = some after ∧ after.value s' = before.value s)) := by
  obtain ⟨valid, -⟩ := (start_valid f).after reached
  have somewhere' : Somewhere (.of f) σ (.slot t) := by
    rintro _ ⟨⟩ - none
    cases here.symm.trans none
  obtain ⟨_, σ', run, ⟨-, -, front, divisor, added, -, -, -, divides⟩, still, remains⟩ :=
    lowerDivision_lowers valid temporary readable somewhere somewhere'
  refine ⟨σ', _, run, added, fun room M s => ?_⟩
  obtain ⟨r, right⟩ := exists_word valid readable somewhere M.strings s
  have value {u before} (located : σ.allocation.location? u = some before) : σ.values (.of f) s u =
      some (before.value s) := by
    rw [State.values, located]
  refine ⟨r, right, fun has => ?_⟩
  have runs := divides room M s _ _ r (placed_values valid s) (value here) right
  rw [if_pos has] at runs
  obtain ⟨s', passes, -, placed⟩ := runs
  refine ⟨s', passes, ?_, fun u lives other before located => ?_⟩
  · obtain ⟨after, there⟩ := ne_none_iff_exists'.1 still
    refine ⟨after, there, (placed.located there (Function.update_self ..)).trans ?_⟩
    unfold divided
    split_ifs
    · exact (ofInt_tdiv ..).symm
    · exact (ofInt_tmod ..).symm
  · obtain ⟨after, there⟩ := ne_none_iff_exists'.1 (remains u lives (located ▸ some_ne_none _))
    exact ⟨after, there, placed.located there ((Function.update_of_ne other ..).trans (value located))⟩

/-- A function with temporaries only. -/
def plainly : Lir.Function := ⟨"plainly", .int, [], 0, 0, 2, true⟩

/-- The dividend is in one of the fixed registers, and the divisor in the other. -/
def crossed : State :=
  { State.start plainly with allocation :=
    ((State.start plainly).allocation.bind 0 rdx).bind 1 rax }

theorem lowerDivision_leaves_crossed :
    ∃ σ' code, lowerDivision (.of plainly) .irem (.slot 0) (.slot 1) {1} crossed = .ok ((), σ') ∧
    σ'.output.toList = code ∧ ∀ M s, HasQuotient (Int64.ofBitVec (s.reg rdx))
    (Int64.ofBitVec (s.reg rax)) → ∃ s', Passes M code s s' ∧ (∃ after, σ'.allocation.location? 0 =
      some after ∧ after.value s' = BitVec.ofInt 64 ((s.reg rdx).toInt.tmod (s.reg rax).toInt)) ∧
    ∃ after, σ'.allocation.location? 1 = some after ∧ after.value s' = s.reg rax := by
  have dividend : crossed.allocation.location? 0 = some (.register rdx) := by decide +kernel
  have divisor : crossed.allocation.location? 1 = some (.register rax) := by decide +kernel
  have reached : Reached (fun t => plainly.isTemporary t = true) (fun _ => True) (.start plainly) crossed := by
    have start : Reached (fun t => plainly.isTemporary t = true) (fun _ => True) (.start plainly)
      (.start plainly) := .refl (new_valid _)
    have first := start.step (.bind (t := 0) (r := rdx) (by decide +kernel) (by decide) rfl)
    exact first.step (.bind (t := 1) (r := rax) (by decide +kernel) (by decide) rfl)
  have somewhere : Somewhere (.of plainly) crossed (.slot 1) := by
    rintro _ ⟨⟩ - none
    cases divisor.symm.trans none
  obtain ⟨σ', code, run, added, runs⟩ := lowerDivision_leaves .irem {1} reached rfl dividend
    (show (Operand.slot 1).Readable _ from trivial) somewhere
  have small : ((lowerDivision (.of plainly) .irem (.slot 0) (.slot 1) {1} crossed).toOption.map fun p =>
      decide (p.2.allocation.frame.size ≤ 64)) = some true := by decide +kernel
  rw [run] at small
  refine ⟨σ', code, run, added, fun M s has => ?_⟩
  obtain ⟨r, right, divides⟩ := runs ⟨(of_decide_eq_true (some.inj small)).trans (by decide), by decide⟩ M s
  obtain rfl : s.reg rax = r := by
    exact some.inj right
  obtain ⟨s', passes, result, others⟩ := divides has
  exact ⟨s', passes, result, others 1 (by decide) (by decide) _ divisor⟩

end Lowering

end EmLang.Native
