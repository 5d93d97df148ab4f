import EmLang.Proofs.Emission

/-!
Registers are emptied and filled, and the values of all slots stay where they can be found: a
temporary is stored to its spill slot, loaded again, or moved to another register.
-/

namespace EmLang.Native

open Allocation Lir List Option Register

namespace Lowering

variable {env : Env} {σ σ' : State} {P : Register → Prop} {excluded : List Register}
  {q r : Register}

/-! ### New words -/

lemma Env.le_top (env : Env) : 16 ≤ env.top := by
  unfold Env.top stackArgumentOffset word
  omega

/-- A new word at the end of the frame is for one who had none. -/
lemma Valid.extend {w : Owner} (valid : Valid env σ)
    (allocation : σ'.allocation.Valid fun t => env.function.isTemporary t = true)
    (size : σ'.allocation.frame.size = σ.allocation.frame.size + 8)
    (fresh : σ.word? env w = none) (new : σ'.word? env w = some (-(σ.allocation.frame.size + 8)))
    (old : ∀ w', w' ≠ w → σ'.word? env w' = σ.word? env w')
    (used : σ'.allocation.usedCalleeSaved = σ.allocation.usedCalleeSaved)
    (calls : σ'.calls = σ.calls) : Valid env σ' ∧ Grows env σ σ' := by
  have cases' : ∀ {w' o}, σ'.word? env w' = some o →
      w' = w ∧ o = -(σ.allocation.frame.size + 8) ∨ w' ≠ w ∧ σ.word? env w' = some o := by
    intro w' o h
    by_cases hw : w' = w
    · rw [hw, new] at h
      exact .inl ⟨hw, (some.inj h).symm⟩
    · rw [old w' hw] at h
      exact .inr ⟨hw, h⟩
  obtain ⟨multiple, positive⟩ := valid.whole
  refine ⟨⟨allocation, valid.homed, ?_, ?_, ?_⟩, ⟨?_, ?_, ?_, ?_⟩⟩
  · rintro o ⟨w', h⟩
    have top := env.le_top
    obtain ⟨-, rfl⟩ | ⟨-, h⟩ := cases' h
    · omega
    · have inside := valid.inside ⟨w', h⟩
      omega
  · intro w1 w2 o h1 h2
    obtain ⟨rfl, rfl⟩ | ⟨-, h1⟩ := cases' h1 <;> obtain ⟨rfl, h⟩ | ⟨-, h2⟩ := cases' h2
    · rfl
    · have inside := valid.inside ⟨w2, h2⟩
      omega
    · have inside := valid.inside ⟨w1, h1⟩
      omega
    · exact valid.apart h1 h2
  · omega
  · omega
  · intro w' o h
    rw [old w' fun hw => ?_]
    · exact h
    · rw [hw, fresh] at h
      cases h
  · exact fun h => used ▸ h
  · rw [calls]

variable {a : Allocation} {place : Location} {t : Slot}

section

variable (valid : Valid env σ) {o : Int}

include valid

lemma Valid.update (output : Array Instr)
    (allocation : a.Valid fun t => env.function.isTemporary t = true)
    (frame : a.frame = σ.allocation.frame) (spillSlots : a.spillSlots = σ.allocation.spillSlots)
    (used : ∀ r ∈ σ.allocation.usedCalleeSaved, r ∈ a.usedCalleeSaved) :
    Valid env ⟨a, σ.saveArea, σ.calls, output⟩ ∧ Grows env σ ⟨a, σ.saveArea, σ.calls, output⟩ := by
  have words w : (⟨a, σ.saveArea, σ.calls, output⟩ : State).word? env w = σ.word? env w := by
    cases w with
    | home _ | save _ => rfl
    | spill t => exact congrArg (·[t]?) spillSlots
  refine ⟨⟨allocation, valid.homed, ?_, ?_, ?_⟩, ⟨?_, ?_, fun h => used _ h, prefix_rfl⟩⟩
  · rintro o ⟨w, h⟩
    rw [frame]
    exact valid.inside ⟨w, words w ▸ h⟩
  · intro w w' o h h'
    exact valid.apart (words w ▸ h) (words w' ▸ h')
  · rw [frame]
    exact valid.whole
  · rw [frame]
  · intro w o h
    rw [words]
    exact h

/-- A temporary is put into a free register. -/
lemma Valid.bind (free : σ.allocation.occupant? r = none) (pooled : r ∈ pool)
    (temporary : env.function.isTemporary t = true) (output : Array Instr) :
    let σ' : State := ⟨σ.allocation.bind t r, σ.saveArea, σ.calls, output⟩
    Valid env σ' ∧ Grows env σ σ' :=
  valid.update output (valid.allocation.bind free pooled temporary) (frame_bind ..) (spillSlots_bind ..)
    fun _ => Allocation.Valid.used_bind_of_mem

/-- Registers are emptied. -/
lemma Valid.empty (releases : Allocation.Releases P σ.allocation a) (output : Array Instr) :
    let σ' : State := ⟨a, σ.saveArea, σ.calls, output⟩
    Valid env σ' ∧ Grows env σ σ' :=
  valid.update output (releases.valid valid.allocation) releases.frame releases.spillSlots
  fun _ h => releases.used ▸ h

lemma Valid.spillSlot (h : σ.allocation.spillSlot t = (a, o)) :
    Valid env { σ with allocation := a } ∧ Grows env σ { σ with allocation := a } := by
  obtain ⟨allocation, own⟩ := valid.allocation.spillSlot t
  rw [h] at allocation own
  unfold Allocation.spillSlot at h
  split at h
  case h_1 known =>
    cases h
    exact ⟨valid, .refl σ⟩
  case h_2 unknown =>
    cases h
    refine valid.extend (w := .spill t) allocation rfl unknown own (fun w hw => ?_) rfl rfl
    cases w with
    | home _ | save _ => rfl
    | spill u =>
      refine (Std.ExtTreeMap.getElem?_insert ..).trans (if_neg fun same => hw ?_)
      rw [Std.LawfulEqCmp.compare_eq_iff_eq] at same
      rw [same]

/-- A temporary is put into its spill slot. -/
lemma Valid.stack (h : σ.allocation.spillSlot t = (a, o)) (temporary : env.function.isTemporary t = true)
    (output : Array Instr) :
    let σ' : State := ⟨a.moveToStack t o, σ.saveArea, σ.calls, output⟩
    Valid env σ' ∧ Grows env σ σ' ∧ σ'.allocation.location? t = some (.stack o) ∧
      ∀ u, u ≠ t → σ'.allocation.location? u = σ.allocation.location? u := by
  obtain ⟨valid1, grows1⟩ := valid.spillSlot h
  have own := (valid.allocation.spillSlot t).2
  have location := σ.allocation.location?_spillSlot t
  rw [h] at own location
  obtain ⟨valid2, grows2⟩ := valid1.update output (valid1.allocation.moveToStack own temporary)
    (frame_moveToStack ..) (spillSlots_moveToStack ..) fun _ h =>
    (usedCalleeSaved_moveToStack ..).symm ▸ h
  refine ⟨valid2, grows1.trans grows2, (location?_moveToStack ..).trans (if_pos rfl), fun u hu => ?_⟩
  rw [location?_moveToStack, if_neg hu, location]

end

/-! ### Storing and loading temporaries -/

variable {s s' : Cpu} {T : Register → Prop} {W : Int → Prop}

section

variable (valid : Valid env σ)

include valid

/-- The value of one temporary goes to another place, and nothing else is overwritten. -/
lemma Moves.one (room : Room env σ) (temporary : env.function.isTemporary t = true)
    (keeps : Keeps T W s s') (registers : ∀ u r, u ≠ t → σ'.allocation.location? u =
      some (.register r) → ¬ T r) (words : ∀ w o, w ≠ .spill t → σ.word? env w = some o → ¬ W o)
    (owned : ∀ o, W o → Owned env σ' o) (others : ∀ u place, u ≠ t →
      σ'.allocation.location? u = some place → σ.allocation.location? u = some place)
    (here : ∀ place, σ'.allocation.location? t = some place → ∃ before, σ.allocation.location? t =
      some before ∧ place.value s' = before.value s) : Moves env T σ σ' s s' where
  keeps := keeps.mono (fun _ => id) owned
  placed placed := by
    refine placed.change valid room keeps registers (fun w o _ => words w o) others (fun _ _ => rfl)
      (fun o v home => ?_) fun place v location value => ?_
    · cases (valid.home?_of_temporary temporary).symm.trans home
    · obtain ⟨before, location', same⟩ := here place location
      exact same.trans (placed.located location' value)

lemma spill_lowers (occupied : σ.allocation.occupant? r = some t) : Lowers (spill r) σ fun _ σ' =>
    Emits env σ σ' (fun _ s s' => Moves env (fun _ => False) σ σ' s s' ∧ s'.flags = s.flags) ∧
    (∀ u, u ≠ t → σ'.allocation.location? u = σ.allocation.location? u) ∧
    (∃ o, σ'.allocation.location? t = some (.stack o)) ∧ σ'.allocation.occupant? r = none := by
  have location := valid.allocation.occupant_iff.1 occupied
  have temporary := valid.allocation.temporary location
  simp only [spill, lowers_bind, lowers_allocation, occupied]
  cases h : σ.allocation.spillSlot t with
  | mk a o =>
    simp only [lowers_emit, lowers_setAllocation]
    obtain ⟨valid', grows, here, others⟩ :=
      valid.stack h temporary (σ.add [.binary .mov (frameWord o) (.reg r)]).output
    have own := valid'.owned_stack here
    refine ⟨⟨valid', grows, [_], σ.toList_output_add _, ?_, fun room M s => ?_⟩, others, ⟨o, here⟩, ?_⟩
    · exact forall_mem_singleton.2 (quiet_store r (valid'.within ⟨_, own⟩))
    · have near : Near o := valid'.near room ⟨_, own⟩
      have keeps : Keeps (fun _ => False) (· = o) s (s.setWord o (s.reg r)) := .setWord s _ near.spaced rfl
      refine ⟨_, .single (perform_mov_word M.strings near rfl rfl), ?_, rfl⟩
      refine .one valid (grows.room room) temporary keeps (fun _ _ _ _ => id)
        (fun w o' hw h same => hw ?_) (fun o' same => ⟨_, own.trans (congrArg some same.symm)⟩)
        (fun u place hu h => others u hu ▸ h) fun place h => ⟨_, location, ?_⟩
      · exact valid'.apart (same ▸ grows.words h) own
      · obtain rfl := mem_unique here h
        exact s.word_setWord_self o _
    · refine eq_none_iff_forall_ne_some.2 fun u occupied' => ?_
      have location' := valid'.allocation.occupant_iff.1 occupied'
      by_cases hu : u = t
      · cases here.symm.trans (hu ▸ location')
      · have before := valid.allocation.occupant_iff.2 (others u hu ▸ location')
        exact hu (mem_unique before occupied)

lemma Valid.within_operand (location : σ.allocation.location? t = some place) : Within σ place.operand := by
  cases place with
  | register r => trivial
  | stack o => exact valid.within ⟨_, valid.owned_stack location⟩

lemma Valid.stands (room : Room env σ) (location : σ.allocation.location? t = some place)
    (M : Setting) (s : Cpu) : Stands M s place.operand (place.value s) := by
  cases place with
  | register r => exact .reg r
  | stack o => exact .word (valid.near room ⟨_, valid.owned_stack location⟩)

lemma Emits.still : Emits env σ σ fun _ s s' => Moves env T σ σ s s' :=
  (refl valid).mono fun _ _ s _ same => same.symm ▸ ⟨.refl _ _ s, id⟩

lemma bind_emits (free : σ.allocation.occupant? r = none) (pooled : r ∈ pool)
    (location : σ.allocation.location? t = some place) :
    let σ' : State := { σ.add [.binary .mov (.reg r) place.operand] with allocation := σ.allocation.bind t r }
    Emits env σ σ' fun _ s s' => Moves env (· = r) σ σ' s s' := by
  intro σ'
  have temporary := valid.allocation.temporary location
  obtain ⟨valid', grows⟩ :=
    valid.bind free pooled temporary (σ.add [.binary .mov (.reg r) place.operand]).output
  refine ⟨valid', grows, [_], σ.toList_output_add _,
    forall_mem_singleton.2 ⟨⟨rfl, .load (.inl ?_), ?_, ?_⟩, rfl, ?_⟩, fun room M s => ?_⟩
  · cases place <;> rfl
  · exact forall_mem_cons.2 ⟨trivial, forall_mem_singleton.2 ((valid.within_operand location).grow grows)⟩
  · intro q hq saved
    cases hq
    exact .inl (Allocation.Valid.mem_used_bind saved)
  · rintro q ⟨⟩
    exact working_of_mem_pool pooled
  · have stands := valid.stands (grows.room room) location M s
    have keeps : Keeps (· = r) (fun _ => False) s (s.set r (place.value s)) :=
      .set s _ (ne_of_mem_pool pooled).1 rfl
    refine ⟨_, .single (perform_mov_reg r stands fun _ => by cases place <;> exact nofun), ?_⟩
    refine .one valid (grows.room room) temporary keeps (fun u q hu h same => ?_) (fun _ _ _ _ =>
      id) (fun _ => False.elim) (fun u q hu h => ?_) fun place' h => ⟨place, location, ?_⟩
    · obtain ⟨rfl, -⟩ | ⟨-, h⟩ := location?_bind_cases h
      · exact hu rfl
      · cases free.symm.trans (valid.allocation.occupant_iff.2 (same ▸ h))
    · obtain ⟨rfl, -⟩ | ⟨-, h⟩ := location?_bind_cases h
      · exact absurd rfl hu
      · exact h
    · obtain ⟨-, rfl⟩ | ⟨ne, -⟩ := location?_bind_cases h
      · exact s.reg_set_self r _
      · exact absurd rfl ne

end

/-! ### Finding room -/

/-- Temporaries that are somewhere stay somewhere. -/
def Stays (σ σ' : State) : Prop := ∀ t, σ.allocation.location? t ≠ none → σ'.allocation.location? t ≠ none

/-- Temporaries that are live and somewhere stay somewhere. -/
def Remains (live : LiveSet) (σ σ' : State) : Prop :=
  ∀ t ∈ live, σ.allocation.location? t ≠ none → σ'.allocation.location? t ≠ none

lemma Stays.remains (h : Stays σ σ') (live : LiveSet) : Remains live σ σ' := fun t _ => h t

/-- One temporary gets a new place. -/
lemma Stays.of_others (here : σ'.allocation.location? t = some place)
    (others : ∀ u, u ≠ t → σ'.allocation.location? u = σ.allocation.location? u) : Stays σ σ' := by
  intro u hu
  by_cases same : u = t
  · rw [same, here]
    exact some_ne_none _
  · rw [others u same]
    exact hu

lemma stays_bind (σ : State) (t : Slot) (r : Register) :
    Stays σ { σ with allocation := σ.allocation.bind t r } :=
  .of_others ((location?_bind ..).trans (if_pos rfl)) fun _ other => (location?_bind ..).trans (if_neg other)

variable (env) in
/-- A register becomes free, and what was there is stored. -/
structure Takes (excluded : List Register) (σ : State) (r : Register) (σ' : State) : Prop where
  pooled : r ∈ pool
  allowed : r ∉ excluded
  free : σ'.allocation.occupant? r = none
  emits : Emits env σ σ' fun _ s s' => Moves env (fun _ => False) σ σ' s s'
  others : ∀ t, σ.allocation.location? t ≠ some (.register r) →
    σ'.allocation.location? t = σ.allocation.location? t
  stays : Stays σ σ'

section

variable (valid : Valid env σ)

include valid

lemma takeRegister_lowers (hq : q ∈ pool)
    (allowed : q ∉ excluded) : Lowers (takeRegister env excluded) σ (Takes env excluded σ) := by
  simp only [takeRegister, lowers_bind, lowers_allocation]
  cases found : σ.allocation.findFree? excluded with
  | some r =>
    obtain ⟨pooled, free, allowed⟩ := findFree?_some found
    exact lowers_pure.2 ⟨pooled, allowed, free, .still valid, fun _ _ => rfl, fun _ => id⟩
  | none =>
    obtain ⟨r, chosen⟩ := findFree?_or_chooseVictim? hq allowed found
    obtain ⟨pooled, ⟨t, occupied⟩, allowed⟩ := chooseVictim?_some chosen
    have location := valid.allocation.occupant_iff.1 occupied
    simp only [chosen, lowers_bind]
    refine (spill_lowers valid occupied).mono fun _ σ' ⟨emits, others, ⟨o, here⟩, free⟩ => lowers_pure.2 ?_
    exact ⟨pooled, allowed, free, emits.mono fun _ _ _ _ => And.left, fun u hu => others u fun h =>
      hu (h ▸ location), .of_others here others⟩

lemma inRegister_lowers (hq : q ∈ pool) (allowed : q ∉ excluded) (somewhere : σ.allocation.location? t ≠ none) :
    Lowers (inRegister env t excluded) σ fun r σ' => σ'.allocation.location? t = some (.register r) ∧
      Emits env σ σ' (fun _ s s' => Moves env (· = r) σ σ' s s') ∧ Stays σ σ' := by
  simp only [inRegister, lowers_bind, lowers_allocation]
  cases location : σ.allocation.location? t with
  | none => exact absurd location somewhere
  | some place =>
    cases place with
    | register r => exact lowers_pure.2 ⟨location, .still valid, fun _ => id⟩
    | stack o =>
      refine lowers_bind.2 ((takeRegister_lowers valid hq allowed).mono fun r σ' takes => ?_)
      have location' : σ'.allocation.location? t = some (.stack o) := by
        rw [takes.others t (location ▸ nofun), location]
      simp only [lowers_bind, lowers_emit, lowers_modifyAllocation, lowers_pure]
      refine ⟨?_, ?_, fun u hu => stays_bind σ' t r u (takes.stays u hu)⟩
      · rw [location?_bind, if_pos rfl]
      · have loads := bind_emits takes.emits.valid takes.free takes.pooled location'
        refine takes.emits.trans loads fun _ _ s s' s'' moves moves' => ?_
        exact (moves.trans moves' loads.grows).mono fun _ => by simp

lemma forget_emits (releases : Allocation.Releases P σ.allocation a) :
    Emits env σ { σ with allocation := a } fun _ s s' =>
      s' = s ∧ Moves env (fun _ => False) σ { σ with allocation := a } s s' := by
  obtain ⟨valid', grows⟩ := valid.empty releases σ.output
  refine ⟨valid', grows, [], (append_nil _).symm, by simp, fun _ M s => ⟨s, .nil M s, rfl,
    .refl _ _ s, fun placed => ?_⟩⟩
  exact placed.forget fun u place h => (releases.location.1 h).1

lemma release_emits {live : LiveSet} (dead : ∀ t, σ.allocation.occupant? r =
      some t → t ∉ live) : let σ' : State := { σ with allocation := σ.allocation.release r }
    Emits env σ σ' (fun _ s s' => s' = s ∧ Moves env (fun _ => False) σ σ' s s')
    ∧ σ'.allocation.occupant? r = none ∧ (∀ t, σ.allocation.location? t ≠ some (.register r) →
      σ'.allocation.location? t = σ.allocation.location? t) ∧ Remains live σ σ' := by
  have releases := valid.allocation.release r
  refine ⟨forget_emits valid releases, ?_, fun u hu => ?_, fun u hu h => ?_⟩
  · exact eq_none_iff_forall_ne_some.2 fun u h => (releases.occupant.1 h).2 rfl
  · refine Option.ext fun place => ⟨fun h => (releases.location.1 h).1, fun h => releases.location.2 ⟨h, ?_⟩⟩
    exact fun q hq same => hu (same ▸ hq ▸ h)
  · obtain ⟨place, h⟩ := ne_none_iff_exists'.1 h
    refine ne_none_iff_exists'.2 ⟨place, releases.location.2 ⟨h, fun q hq same => ?_⟩⟩
    exact dead u (valid.allocation.occupant_iff.2 (same ▸ hq ▸ h)) hu

end

variable (env) in
/-- A register is emptied. What was there is still somewhere if it is live, but not in one of the
registers that are excluded. -/
structure Evicts (r : Register) (excluded : List Register) (live : LiveSet) (σ σ' : State) : Prop where
  emits : Emits env σ σ' fun _ s s' => Moves env (fun q => q ∈ pool ∧ q ∉ excluded ∧ q ≠ r) σ σ' s s'
  free : σ'.allocation.occupant? r = none
  others : ∀ t, σ.allocation.location? t ≠ some (.register r) →
    σ'.allocation.location? t = σ.allocation.location? t
  kept : ∀ t q, q ∈ excluded → σ'.allocation.location? t = some (.register q) →
    σ.allocation.location? t = some (.register q)
  remains : Remains live σ σ'

lemma Evicts.of_none (valid : Valid env σ) (free : σ.allocation.occupant? r = none)
    (excluded : List Register) (live : LiveSet) : Evicts env r excluded live σ σ :=
  ⟨.still valid, free, fun _ _ => rfl, fun _ _ _ => id, fun _ _ => id⟩

lemma evict_lowers (valid : Valid env σ) (r : Register) (excluded : List Register) (live : LiveSet) :
    Lowers (evict r excluded live) σ fun _ => Evicts env r excluded live σ := by
  simp only [evict, lowers_bind, lowers_allocation]
  cases occupied : σ.allocation.occupant? r with
  | none => exact lowers_pure.2 (.of_none valid occupied excluded live)
  | some t =>
    have location := valid.allocation.occupant_iff.1 occupied
    have elsewhere : ∀ u, σ.allocation.location? u ≠ some (.register r) → u ≠ t :=
      fun u hu h => hu (h ▸ location)
    cases alive : live.contains t with
    | false =>
      have dead u (hu : σ.allocation.occupant? r = some u) : u ∉ live := by
        obtain rfl := mem_unique occupied hu
        rw [Std.ExtTreeSet.mem_iff_contains, alive]
        exact Bool.false_ne_true
      obtain ⟨emits, free, others, remains⟩ := release_emits valid dead
      simp only [alive, Bool.false_eq_true, if_false, lowers_setAllocation]
      refine ⟨emits.mono fun _ _ s s' moves => moves.2.mono fun _ => False.elim, free, others,
        fun u q _ h => ?_, remains⟩
      exact ((valid.allocation.release r).location.1 h).1
    | true =>
      simp only [alive, if_true]
      cases found : σ.allocation.findFree? (excluded ++ [r]) with
      | some q =>
        obtain ⟨pooled, free, allowed⟩ := findFree?_some found
        simp only [mem_append, mem_singleton, not_or] at allowed
        have emits := bind_emits valid free pooled location
        simp only [lowers_bind, lowers_emit, lowers_setAllocation]
        refine ⟨emits.mono fun _ _ s s' moves => moves.mono ?_, ?_, fun u hu => ?_,
          fun u p hp h => ?_, (stays_bind σ t q).remains live⟩
        · rintro _ rfl
          exact ⟨pooled, allowed⟩
        · rw [occupant?_bind, if_neg (Ne.symm allowed.2), if_pos location]
        · rw [location?_bind, if_neg (elsewhere u hu)]
        · obtain ⟨-, same⟩ | ⟨-, h⟩ := location?_bind_cases h
          · exact absurd (Location.register.inj same ▸ hp) allowed.1
          · exact h
      | none =>
        refine (spill_lowers valid occupied).mono fun _ σ' ⟨emits, others, ⟨o, here⟩, free⟩ => ?_
        refine ⟨emits.mono fun _ _ s s' moves => moves.1.mono fun _ => False.elim, free,
          fun u hu => others u (elsewhere u hu), fun u q _ h => ?_, (Stays.of_others here others).remains live⟩
        by_cases hu : u = t
        · cases here.symm.trans (hu ▸ h)
        · exact others u hu ▸ h

end Lowering

end EmLang.Native
