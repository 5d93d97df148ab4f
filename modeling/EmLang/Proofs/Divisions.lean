import EmLang.Proofs.SlotAssignments

/-!
Divisions. The machine has its dividend and its results in two fixed registers, so what is there has
to leave them first, and a divisor in one of them is copied. Wherever dividend and divisor are, the
result is that of the operation, and the machine refuses a division exactly when there is none.
-/

namespace EmLang.Native

open Lir List Option Register

variable {s s' : Cpu} {place : Location} {r : Register} {M : Setting}

/-- Every run that comes to the code in the state stops at its last instruction. -/
def Traps (M : Setting) (code : List Instr) (s : Cpu) : Prop :=
  ∀ rest calls, Leads M.advance (.running (code ++ rest) s calls) (.trapped rest calls)

lemma Traps.after {code code' : List Instr} (h : Passes M code s s') (h' : Traps M code' s') :
    Traps M (code ++ code') s := by
  intro rest calls
  rw [append_assoc]
  exact (h _ calls).trans (h' rest calls)

lemma Traps.single {i : Instr} (h : s.perform M.strings i = .trap) : Traps M [i] s := by
  intro rest calls
  refine Leads.of_eq ?_
  show M.after rest s calls (s.perform M.strings i) = _
  rw [h]
  rfl

/-- What a division leaves in the register of its result. -/
def divided (op : Opcode) (l r : Word) : Word :=
  (if op = .idiv then Int64.ofBitVec l / Int64.ofBitVec r else Int64.ofBitVec l % Int64.ofBitVec r).toBitVec

namespace Lowering

variable {env : Env} {σ σ' σ1 : State} {source divisor value : Operand} {t : Slot} {live : LiveSet}
  {pinned : List Register}

def resultRegister (op : Opcode) : Register := if op = .idiv then rax else rdx

variable (env) in
/-- The divisor is in the scratch register, or where the value of the operand is and not in a fixed
register. -/
def Ready (σ : State) (source divisor : Operand) : Prop :=
  divisor = .reg scratch ∨ Reads env σ source divisor ∧ needsCopy divisor = false

/-- The divisor has the value of the operand. -/
def Bears (M : Setting) (slots : Slot → Option Word) (source divisor : Operand) (s : Cpu) : Prop :=
  ∀ v, wordOf? M.strings slots source = some v → Stands M s divisor v

/-- The values stay where they are, and so does the divisor. -/
def Carries (env : Env) (σ σ' : State) (source divisor : Operand) (M : Setting) (s s' : Cpu) : Prop :=
  Moves env Working σ σ' s s' ∧ ∀ {slots}, Placed env σ slots s → Bears M slots source divisor s →
  Bears M slots source divisor s'

section

variable (h : Ready env σ source divisor)

include h

lemma Ready.isShort : isShort divisor = true ∧ ∀ w, divisor ≠ .imm w := by
  obtain rfl | ⟨-, copied⟩ := h
  · exact ⟨rfl, nofun⟩
  · cases divisor <;> first | exact ⟨rfl, nofun⟩ | cases copied

lemma Ready.within (valid : Valid env σ) : Within σ divisor := by
  obtain rfl | ⟨reads, -⟩ := h
  · trivial
  · exact reads.within valid

/-- A register is no fixed one, nor is the one of the divisor. -/
lemma Ready.other (hr : divisor = .reg r) : r ≠ rax ∧ r ≠ rdx := by
  obtain rfl | ⟨-, copied⟩ := h
  · cases hr
    decide
  · subst hr
    simpa [needsCopy] using copied

end

lemma Moves.carries {T : Register → Prop} (valid' : Valid env σ') (room : Room env σ')
    (moves : Moves env T σ σ' s s') (working : ∀ r, T r → r ∈ pool) (ready : Ready env σ' source divisor) :
    Carries env σ σ' source divisor M s s' := by
  refine ⟨moves.mono fun r hr => working_of_mem_pool (working r hr), fun {slots} placed bears v word => ?_⟩
  obtain rfl | ⟨reads, -⟩ := ready
  · have before := bears v word
    cases before
    exact .of_reg (moves.keeps.reg scratch fun h => (ne_of_mem_pool (working _ h)).2.2 rfl)
  · exact reads.holds valid' room (moves.placed placed) word

/-- A fixed register holds nothing, or the dividend. -/
def Vacant (t : Slot) (r : Register) (σ : State) : Prop := ∀ u, σ.allocation.occupant? r = some u → u = t

variable (env) in
/-- A fixed register is emptied of all but the dividend. -/
structure Empties (t : Slot) (source divisor : Operand) (pinned : List Register) (live : LiveSet)
    (r : Register) (σ σ' : State) : Prop where
  emits : Emits env σ σ' (Carries env σ σ' source divisor)
  vacant : Vacant t r σ'
  dividend : σ'.allocation.location? t = σ.allocation.location? t
  ready : Ready env σ' source divisor
  kept : ∀ q ∈ pinned, Vacant t q σ → Vacant t q σ'
  remains : Remains live σ σ'

lemma emptyFixed_lowers (valid : Valid env σ) (ready : Ready env σ source divisor) (fixed : r = rax ∨ r = rdx) :
    Lowers (emptyFixed (some t) pinned live r) σ fun _ => Empties env t source divisor pinned live r σ := by
  simp only [emptyFixed, lowers_bind, lowers_allocation]
  split_ifs with other
  · refine (evict_lowers valid r pinned live).mono fun _ σ' evicts => ?_
    have here : ∀ u, u = t → σ.allocation.location? u ≠ some (.register r) := by
      rintro u rfl location
      exact other.2 (valid.allocation.occupant_iff.2 location)
    have ready' : Ready env σ' source divisor := by
      refine ready.imp_right fun ⟨reads, copied⟩ => ⟨reads.same fun u place hu location => ?_, copied⟩
      subst hu
      rw [evicts.others u fun here => ?_, location]
      rw [reads.eq_operand valid here] at copied
      obtain rfl | rfl := fixed <;> cases copied
    refine ⟨evicts.emits.mono fun room M s s' moves =>
      moves.carries evicts.emits.valid room (fun _ h => h.1) ready', ?_,
      evicts.others t (here t rfl), ready', fun q hq vacant u occupied => ?_, evicts.remains⟩
    · intro u occupied
      cases evicts.free.symm.trans occupied
    · have location := evicts.kept u q hq (evicts.emits.valid.allocation.occupant_iff.1 occupied)
      exact vacant u (valid.allocation.occupant_iff.2 location)
  · refine lowers_pure.2 ⟨(Emits.refl valid).mono ?_, fun u occupied => ?_, rfl, ready,
      fun _ _ => id, fun _ _ => id⟩
    · rintro - M s s' rfl
      exact ⟨⟨.refl _ _ s', id⟩, fun _ => id⟩
    · by_contra ne
      refine other ⟨by rw [occupied]; rfl, ?_⟩
      rw [occupied]
      exact fun same => ne (some.inj same)

/-- The divisor is copied if it is in a fixed register, or if it is a number. -/
lemma copy_emits (valid : Valid env σ) (reads : Reads env σ source value) :
    let divisor := if needsCopy value then scratchOperand else value
    let code := if needsCopy value then moveCode scratchOperand value else []
    Ready env (σ.add code) source divisor ∧ Emits env σ (σ.add code) fun M s s' =>
      Moves env Working σ (σ.add code) s s' ∧ ∀ slots, Placed env σ slots s →
      Bears M slots source divisor s' := by
  intro divisor code
  cases copied : needsCopy value with
  | false =>
    have divisor' : divisor = value := by simp only [divisor, copied, Bool.false_eq_true, if_false]
    have code' : code = [] := by simp only [code, copied, Bool.false_eq_true, if_false]
    rw [divisor', code', State.add_nil]
    refine ⟨.inr ⟨reads, copied⟩, (Emits.refl valid).mono ?_⟩
    rintro room M s s' rfl
    exact ⟨⟨.refl _ _ s', id⟩, fun slots placed v => reads.holds valid room placed⟩
  | true =>
    have divisor' : divisor = .reg scratch := by simp only [divisor, copied, if_true, scratchOperand]
    have code' : code = moveCode (.reg scratch) value := by simp only [code, copied, if_true, scratchOperand]
    rw [divisor', code']
    obtain ⟨valid', grows⟩ := valid.add (moveCode (.reg scratch) value)
    refine ⟨.inl rfl, valid', grows, _,
      σ.toList_output_add _, moveCode_quiet (target_of_caller _ working_scratch rfl) reads.isSource
      ((reads.within valid).grow grows), fun room M s => ?_⟩
    obtain ⟨v, stands, -⟩ := reads.stands valid (grows.room room) M s
    obtain ⟨s', passes, result, keeps⟩ := moves_reg stands (by decide : scratch ≠ rbp)
    refine ⟨s', passes, ⟨keeps.mono ?_ fun _ => False.elim, fun placed => ?_⟩, fun slots placed w word => ?_⟩
    · rintro _ rfl
      exact working_scratch
    · have placed' := placed.keep valid (grows.room room) keeps (fun u r location => ?_) fun _ _ _ _ => id
      · exact ⟨placed'.homes, placed'.located⟩
      · exact (ne_of_mem_pool (valid.pooled location)).2.2
    · exact .of_reg (result.trans (stands.unique (reads.holds valid (grows.room room) placed word)))

lemma divide_runs {slots : Slot → Option Word} (valid : Valid env σ) (room : Room env σ)
    (location : σ.allocation.location? t = some place) (ready : Ready env σ source divisor)
    {l r : Word} (placed : Placed env σ slots s) (left : slots t = some l) (right : Stands M s divisor r) :
    let code := moveCode (.reg rax) place.operand ++ [.nullary .cqo, .unary .idiv divisor]
    if HasQuotient (Int64.ofBitVec l) (Int64.ofBitVec r) then
      ∃ s', Passes M code s s' ∧ Keeps (fun q => q = rax ∨ q = rdx) (fun _ => False) s s' ∧
      ∀ op, s'.reg (resultRegister op) = divided op l r
    else Traps M code s := by
  intro code
  have stands : Stands M s place.operand l := placed.located location left ▸ valid.stands room location M s
  obtain ⟨s1, passes, dividend, keeps⟩ := moves_reg stands (by decide : rax ≠ rbp)
  have right1 : Stands M s1 divisor r := right.keep keeps fun q hq => (ready.other hq).1
  have extends' : Keeps (· = rdx) (fun _ => False) s1 s1.extend := .set s1 _ (by decide) rfl
  have right2 : Stands M s1.extend divisor r := right1.keep extends' fun q hq => (ready.other hq).2
  have divides := perform_divide right2 ready.isShort.1
  rw [dividend] at divides
  have front : Passes M (moveCode (.reg rax) place.operand ++ [.nullary .cqo]) s s1.extend :=
    passes.append (.single rfl)
  have code' : code = (moveCode (.reg rax) place.operand ++ [.nullary .cqo]) ++
    [.unary .idiv divisor] := by simp [code]
  rw [code']
  split_ifs at divides ⊢ with has
  · refine ⟨_, front.append (.single divides), ?_, fun op => ?_⟩
    · refine (keeps.mono (fun _ => .inl) fun _ => id).trans
        ((extends'.mono (fun _ => .inr) fun _ => id).trans ?_)
      exact (Keeps.set _ _ (by decide) (.inl rfl)).trans (.set _ _ (by decide) (.inr rfl))
    · unfold resultRegister divided
      split
      · rw [Cpu.reg_set_of_ne _ _ (by decide), Cpu.reg_set_self]
      · rw [Cpu.reg_set_self]
  · exact .after front (.single divides)

/-- The dividend leaves its place, and the fixed registers are free. -/
lemma vacate_releases {a : Allocation} {temporary : Slot → Prop} (valid : a.Valid temporary)
    (rax_ : ∀ u, a.occupant? rax = some u → u = t) (rdx_ : ∀ u, a.occupant? rdx = some u → u = t) :
    let b := match a.location? t with
      | some (.register previous) => a.release previous
      | _ => a
    ∃ P : Register → Prop, Allocation.Releases P a ((b.release rax).release rdx) ∧ P rax ∧ P rdx ∧
      ∀ r, P r → ∀ u, a.occupant? r = some u → u = t := by
  intro b
  have first : ∃ P : Register → Prop, Allocation.Releases P a b ∧ ∀ r, P r →
      ∀ u, a.occupant? r = some u → u = t := by
    cases location : a.location? t with
    | none => exact ⟨_, by simpa only [b, location] using Allocation.Releases.refl a, fun _ => False.elim⟩
    | some place =>
      cases place with
      | stack _ => exact ⟨_, by simpa only [b, location] using Allocation.Releases.refl a, fun _ => False.elim⟩
      | register previous =>
        refine ⟨_, by simpa only [b, location] using valid.release previous, ?_⟩
        rintro _ rfl u occupied
        exact mem_unique occupied (valid.occupant_iff.2 location)
  obtain ⟨P, releases, own⟩ := first
  have valid1 := releases.valid valid
  have releases2 := releases.trans (valid1.release rax)
  refine ⟨_, releases2.trans ((releases2.valid valid).release rdx), .inl (.inr rfl), .inr rfl, ?_⟩
  rintro r ((hr | rfl) | rfl)
  · exact own r hr
  · exact rax_
  · exact rdx_

variable (env) in
/-- From `σ` to `σ'` the code of a division is added. -/
structure Divides (op : Opcode) (t : Slot) (source : Operand) (σ σ' : State) : Prop where
  valid : Valid env σ'
  grows : Grows env σ σ'
  code : ∃ front divisor, σ'.output.toList = σ.output.toList ++ (front ++ [.unary .idiv divisor]) ∧
    (∀ i ∈ front, Quiet σ' i) ∧ Encodable σ'.Shifts (.unary .idiv divisor) ∧
    Within σ' divisor ∧ (Room env σ' → ∀ M s slots l r, Placed env σ slots s → slots t = some l →
    wordOf? M.strings slots source = some r →
      if HasQuotient (Int64.ofBitVec l) (Int64.ofBitVec r) then
        ∃ s', Passes M (front ++ [.unary .idiv divisor]) s s' ∧ Keeps Working (Owned env σ') s s' ∧
          Placed env σ' (Function.update slots t (some (divided op l r))) s'
      else Traps M (front ++ [.unary .idiv divisor]) s)

lemma divide_completes (op : Opcode) (emits : Emits env σ σ1 fun M s s' =>
      Moves env Working σ σ1 s s' ∧ ∀ slots, Placed env σ slots s → Bears M slots source divisor s')
    (temporary : env.function.isTemporary t = true) (location : σ1.allocation.location? t =
      some place) (ready : Ready env σ1 source divisor) (vacant : Vacant t rax σ1)
    (vacant' : Vacant t rdx σ1) : let b := match σ1.allocation.location? t with
      | some (.register previous) => σ1.allocation.release previous
      | _ => σ1.allocation
    let code := moveCode (.reg rax) place.operand ++ [.nullary .cqo, .unary .idiv divisor]
    let σ' : State :=
      { σ1.add code with allocation := ((b.release rax).release rdx).bind t (resultRegister op) }
    Divides env op t source σ σ' ∧ σ'.allocation.location? t ≠ none ∧
      ∀ u, u ≠ t → σ'.allocation.location? u = σ1.allocation.location? u := by
  intro b code σ'
  have valid1 := emits.valid
  obtain ⟨P, releases, hrax, hrdx, own⟩ := vacate_releases valid1.allocation vacant vacant'
  have fixed : resultRegister op = rax ∨ resultRegister op = rdx := by
    unfold resultRegister
    split <;> simp
  have free : ((b.release rax).release rdx).occupant? (resultRegister op) = none := by
    refine eq_none_iff_forall_ne_some.2 fun u occupied => (releases.occupant.1 occupied).2 ?_
    obtain h | h := fixed <;> rw [h] <;> assumption
  have pooled : resultRegister op ∈ pool := by
    obtain h | h := fixed <;> rw [h] <;> decide
  have others u (hu : u ≠ t) : σ'.allocation.location? u = σ1.allocation.location? u := by
    rw [Allocation.location?_bind, if_neg hu]
    refine Option.ext fun place => ⟨fun h => (releases.location.1 h).1, fun h => releases.location.2 ⟨h, ?_⟩⟩
    rintro r rfl hr
    exact hu (own r hr u (valid1.allocation.occupant_iff.2 h))
  have here : σ'.allocation.location? t = some (.register (resultRegister op)) := by
    rw [Allocation.location?_bind, if_pos rfl]
  obtain ⟨valid', grows⟩ := valid1.update
    (σ1.add code).output ((releases.valid valid1.allocation).bind free pooled temporary)
    ((Allocation.frame_bind ..).trans releases.frame)
    ((Allocation.spillSlots_bind ..).trans releases.spillSlots) fun r hr =>
    Allocation.Valid.used_bind_of_mem (releases.used ▸ hr)
  obtain ⟨-, grows1, front, added, quiet, run⟩ := emits
  have whole : front ++ code = (front ++ (moveCode (.reg rax) place.operand ++ [.nullary .cqo])) ++
      [.unary .idiv divisor] := by
    simp only [code, append_assoc, cons_append, nil_append]
  refine ⟨⟨valid', grows1.trans grows,
    front ++ (moveCode (.reg rax) place.operand ++ [.nullary .cqo]), divisor, ?_,
    fun i hi => ?_, .idiv ready.isShort.1 ready.isShort.2, (ready.within valid1).grow grows,
    fun room M s slots l r placed left right => ?_⟩, here ▸ some_ne_none _, others⟩
  · rw [← whole, σ1.toList_output_add, added, append_assoc]
  · obtain hi | hi := mem_append.1 hi
    · exact (quiet i hi).mono grows
    · obtain hi | hi := mem_append.1 hi
      · exact moveCode_quiet (target_of_caller _ (working_of_mem_pool (by decide)) rfl) (by cases place <;> rfl)
          ((valid1.within_operand location).grow grows) i hi
      · obtain rfl := mem_singleton.1 hi
        exact ⟨.of_none rfl .cqo (forall_mem_nil _) rfl, rfl, nofun⟩
  · obtain ⟨s1, passes, moves, bears⟩ := run (grows.room room) M s
    have placed1 := moves.placed placed
    have divides :=
      divide_runs valid1 (grows.room room) location ready placed1 left (bears slots placed r right)
    rw [← whole]
    split_ifs at divides ⊢ with has
    · obtain ⟨s', passes', keeps, result⟩ := divides
      refine ⟨s', passes.append passes', ?_, ?_⟩
      · refine (moves.keeps.mono (fun _ => id) fun _ => grows.owned).trans (keeps.mono ?_ fun _ => False.elim)
        rintro _ (rfl | rfl) <;> exact working_of_mem_pool (by decide)
      · refine placed1.change valid1 (grows.room room) keeps (fun u q hu h => ?_) (fun _ _ _ _ _ =>
          id) (fun u place hu h => others u hu ▸ h) (fun u hu => Function.update_of_ne hu ..)
          (fun o v home => ?_) fun place v h value => ?_
        · have occupied := valid1.allocation.occupant_iff.2 (others u hu ▸ h)
          rintro (rfl | rfl)
          · exact hu (vacant u occupied)
          · exact hu (vacant' u occupied)
        · cases (valid1.home?_of_temporary temporary).symm.trans home
        · rw [Function.update_self] at value
          cases value
          obtain rfl := mem_unique here h
          exact result op
    · exact .after passes divides

lemma lowerDivision_lowers {D : Slot → Prop} {op : Opcode} (valid : Valid env σ)
    (temporary : env.function.isTemporary t = true) (readable : source.Readable D)
    (somewhere : Somewhere env σ source) (here : Somewhere env σ (.slot t)) :
    Lowers (lowerDivision env op (.slot t) source live) σ fun _ σ' =>
      Divides env op t source σ σ' ∧ σ'.allocation.location? t ≠ none ∧ Remains live σ σ' := by
  unfold lowerDivision
  rw [lowers_bind]
  refine (read_lowers valid readable somewhere).mono ?_
  rintro value σ ⟨rfl, reads⟩
  obtain ⟨ready, copies⟩ := copy_emits valid reads
  simp only [Operand.slot?, filter_some, temporary, if_true, lowers_when fun _ => lowers_emitMove]
  generalize (if needsCopy value = true then scratchOperand else value) = divisor at *
  have same : (σ.add (if needsCopy value =
    true then moveCode scratchOperand value else [])).allocation = σ.allocation := rfl
  generalize σ.add (if needsCopy value = true then moveCode scratchOperand value else []) = σ0 at *
  rw [lowers_bind]
  refine (emptyFixed_lowers copies.valid ready (.inl rfl)).mono fun _ σ1 empties1 => ?_
  rw [lowers_bind]
  refine (emptyFixed_lowers empties1.emits.valid empties1.ready (.inr rfl)).mono fun _ σ2 empties2 => ?_
  obtain ⟨place, location⟩ := ne_none_iff_exists'.1 (here t rfl temporary)
  have location2 : σ2.allocation.location? t = some place := by
    rw [empties2.dividend, empties1.dividend, same, location]
  have emits : Emits env σ σ2 fun M s s' => Moves env Working σ σ2 s s' ∧
      ∀ slots, Placed env σ slots s → Bears M slots source divisor s' := by
    have empties := empties1.emits.trans empties2.emits
      (R := fun M s s' => Moves env Working σ0 σ2 s s' ∧
        ∀ slots, Placed env σ0 slots s → Bears M slots source divisor s → Bears M slots source divisor s')
      fun room M s s1 s' ⟨moves1, bears1⟩ ⟨moves2, bears2⟩ =>
        ⟨(moves1.trans moves2 empties2.emits.grows).mono fun _ => or_self_iff.1,
          fun slots placed bears => bears2 (moves1.placed placed) (bears1 placed bears)⟩
    refine copies.trans empties fun room M s s0 s' ⟨moves0, bears0⟩ ⟨moves, bears⟩ =>
      ⟨?_, fun slots placed => ?_⟩
    · exact (moves0.trans moves empties.grows).mono fun _ => or_self_iff.1
    · exact bears slots (moves0.placed placed) (bears0 slots placed)
  simp only [lowers_bind, lowers_allocation, location2, lowers_emitMove, lowers_emit,
    lowers_modifyAllocation, State.add_add]
  obtain ⟨divides, somewhere', others⟩ := divide_completes op emits temporary location2 empties2.ready
    (empties2.kept rax (by simp) empties1.vacant) empties2.vacant
  refine ⟨divides, somewhere', fun u hu h => ?_⟩
  by_cases hut : u = t
  · exact hut ▸ somewhere'
  · have before : σ2.allocation.location? u ≠ none := empties2.remains u hu (empties1.remains u hu (same ▸ h))
    exact fun none => before ((others u hut).symm.trans none)

end Lowering

end EmLang.Native
