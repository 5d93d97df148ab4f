import EmLang.Proofs.StackBalance

/-!
Lowering of calls. What lives on in registers that the call may change is saved in words of the
frame and comes back afterwards, to wherever there is room for it.
-/

namespace EmLang.Native

open Allocation Lir List Option Prod Register

variable {s : Cpu} {o : Int} {l : List (Register × Slot)} {target : Option Slot}
  {slots : Slot → Option Word} {D : Slot → Prop}

namespace Lowering

variable {env : Env} {σ σ' σ₁ σ₃ σ₄ : State} {t u : Slot} {r : Register} {live after : LiveSet}
  {restored : List (Slot × Location)} {saved : List (Slot × Register × Int)}

/-! ### Code without choices -/

variable {Q : Unit → State → Prop} {value : Operand} {values arguments : List Operand} {F : Int}
  {symbol : String} {returnType : Ty} {isExternal : Bool}

lemma lowers_pushOperand : Lowers (pushOperand value) σ Q ↔ Q () (σ.add (pushCode value)) := by
  cases value with
  | imm w => by_cases fits : fits32 w.toInt = true <;> simp [pushOperand, pushCode, fits,
      scratchOperand, lowers_bind, lowers_emit]
  | _ => simp [pushOperand, pushCode, scratchOperand, lowers_bind, lowers_emit]

lemma lowers_forM {α : Type} {act : α → Lower Unit} {code : α → List Instr}
    (one : ∀ a σ (Q : Unit → State → Prop), Lowers (act a) σ Q ↔ Q () (σ.add (code a))) (l : List α) :
    Lowers (l.forM act) σ Q ↔ Q () (σ.add (l.flatMap code)) := by
  induction l generalizing σ with
  | nil => simp [lowers_pure]
  | cons a l ih =>
    show Lowers (act a >>= fun _ => l.forM act) σ Q ↔ _
    rw [lowers_bind, one, ih, State.add_add, flatMap_cons]

lemma lowers_passInRegisters : Lowers (passInRegisters values) σ Q ↔ Q () (σ.add (passCode values)) := by
  unfold passInRegisters passCode
  split_ifs
  · rw [lowers_bind, lowers_forM fun _ _ _ => lowers_pushOperand, lowers_forM fun _ _ _ =>
      lowers_emit, State.add_add, map_eq_flatMap]
  · exact lowers_forM (fun _ _ _ => lowers_emitMove) _

/-! ### Saving -/

lemma Valid.save (valid : Valid env σ) (fresh : σ.saveArea[r]? = none) : let σ' : State := { σ with
      allocation := { σ.allocation with frame := σ.allocation.frame.allocate.1 }
      saveArea := σ.saveArea.insert r σ.allocation.frame.allocate.2 }
    Valid env σ' ∧ Grows env σ σ' ∧ σ'.word? env (.save r) = some σ.allocation.frame.allocate.2 := by
  intro σ'
  have allocation := valid.allocation
  have new : σ'.saveArea[r]? = some σ.allocation.frame.allocate.2 := Std.ExtTreeMap.getElem?_insert_self
  have old q (hq : q ≠ r) : σ'.saveArea[q]? = σ.saveArea[q]? := by
    rw [Std.ExtTreeMap.getElem?_insert, if_neg]
    rw [Std.LawfulEqCmp.compare_eq_iff_eq]
    exact hq.symm
  obtain ⟨valid', grows⟩ : Valid env σ' ∧ Grows env σ σ' :=
      valid.extend (w := .save r) ⟨allocation.occupant_iff, allocation.pooled, allocation.noted,
      allocation.stacked, allocation.temporary, allocation.used⟩ rfl fresh new (fun w hw => by
      cases w with
      | home _ | spill _ => rfl
      | save q => exact old q fun h => hw (h ▸ rfl)) rfl rfl
  exact ⟨valid', grows, new⟩

lemma saveSlot_lowers (valid : Valid env σ) (r : Register) :
    Lowers (saveSlot r) σ fun o σ' => Valid env σ' ∧ Grows env σ σ' ∧ σ'.word? env (.save r) = some o ∧
      σ'.allocation.locations = σ.allocation.locations ∧ σ'.calls = σ.calls ∧ σ'.output = σ.output := by
  simp only [saveSlot, lowers_bind, lowers_get]
  cases known : σ.saveArea[r]? with
  | some o => exact lowers_pure.2 ⟨valid, .refl σ, known, rfl, rfl, rfl⟩
  | none =>
    simp only [lowers_set, lowers_bind, lowers_pure]
    obtain ⟨valid', grows, own⟩ := valid.save known
    exact ⟨valid', grows, own, trivial, trivial, trivial⟩

/-- What was saved: the temporaries that live on, with the register that each was in and the word
that has its value. -/
structure Saves (env : Env) (l : List (Register × Slot)) (live : LiveSet) (σ' : State)
    (saved : List (Slot × Register × Int)) : Prop where
  exact : saved.map (fun p => (p.2.1, p.1)) = l.filter fun p => live.contains p.2
  word : ∀ {t r o}, (t, r, o) ∈ saved → σ'.word? env (.save r) = some o

lemma Saves.own (h : Saves env l live σ' saved) (mem : (t, r, o) ∈ saved) : (r, t) ∈ l ∧ t ∈ live := by
  have mem' : (r, t) ∈ saved.map fun p => (p.2.1, p.1) := mem_map_of_mem mem
  rw [h.exact, mem_filter] at mem'
  exact mem'.imp_right Std.ExtTreeSet.mem_iff_contains.2

lemma Saves.all (h : Saves env l live σ' saved) (mem : (r, t) ∈ l) (alive : t ∈ live) :
    ∃ o, (t, r, o) ∈ saved := by
  have mem' : (r, t) ∈ l.filter fun p => live.contains p.2 :=
    mem_filter.2 ⟨mem, Std.ExtTreeSet.mem_iff_contains.1 alive⟩
  rw [← h.exact] at mem'
  obtain ⟨⟨_, _, o⟩, found, same⟩ := mem_map.1 mem'
  cases same
  exact ⟨o, found⟩

lemma Saves.grow (h : Saves env l live σ saved) (grows : Grows env σ σ') : Saves env l live σ' saved :=
  ⟨h.exact, fun mem => grows.words (h.word mem)⟩

/-- No temporary is saved twice, as none is in two registers. -/
lemma Saves.nodup (h : Saves env σ.allocation.occupiedCallerSaved live σ' saved)
    (valid : Valid env σ) : (saved.map fst).Nodup := by
  have same : saved.map fst = (σ.allocation.occupiedCallerSaved.filter fun p => live.contains p.2).map snd := by
    rw [← h.exact, List.map_map]
    rfl
  have distinct : σ.allocation.occupiedCallerSaved.Nodup :=
    σ.allocation.nodup_occupied.of_map.sublist filter_sublist
  rw [same]
  refine Nodup.map_on (fun p hp q hq alike => ?_) (distinct.sublist filter_sublist)
  have located : ∀ p ∈ σ.allocation.occupiedCallerSaved.filter fun p => live.contains p.2,
      σ.allocation.location? p.2 = some (.register p.1) := fun p hp =>
    valid.allocation.occupant_iff.1 (mem_occupiedCallerSaved.1 (mem_filter.1 hp).1).2.1
  have here := located p hp
  rw [alike] at here
  exact Prod.ext (Location.register.inj (mem_unique here (located q hq))) alike

/-- The temporaries that live on are stored to the words of their registers. -/
lemma saveLive_lowers (valid : Valid env σ) (distinct : (l.map fst).Nodup) :
    Lowers (saveLive live l) σ fun saved σ' => Saves env l live σ' saved ∧
    σ'.allocation.locations = σ.allocation.locations ∧ σ'.calls = σ.calls ∧
    Emits env σ σ' fun _ s s' => (∀ {t r o}, (t, r, o) ∈ saved → s'.word o = s.reg r) ∧
    Keeps (fun _ => False) (fun o => ∃ t r, (t, r, o) ∈ saved) s s' := by
  induction l generalizing σ with
  | nil =>
    refine lowers_pure.2 ⟨⟨rfl, nofun⟩, rfl, rfl, (Emits.refl valid).mono ?_⟩
    rintro - - s s' rfl
    exact ⟨nofun, .refl _ _ s'⟩
  | cons p l ih =>
    obtain ⟨r, t⟩ := p
    obtain ⟨fresh, distinct⟩ := nodup_cons.1 distinct
    simp only [saveLive]
    split_ifs with alive
    · simp only [lowers_bind, lowers_emit, lowers_pure]
      refine (saveSlot_lowers valid r).mono fun o σ₁ ⟨valid1, grows1, own, locations, calls, output⟩ => ?_
      obtain ⟨valid2, grows2⟩ := valid1.add [.binary .mov (frameWord o) (.reg r)]
      have stores : Emits env σ (σ₁.add [.binary .mov (frameWord o) (.reg r)]) fun _ s s' =>
          s' = s.setWord o (s.reg r) := by
        refine ⟨valid2, grows1.trans grows2, _, (σ₁.toList_output_add _).trans (by rw [output]), ?_,
          fun room M s => ?_⟩
        · exact forall_mem_singleton.2 (quiet_store r (valid2.within ⟨_, grows2.words own⟩))
        · exact ⟨_, .single (perform_mov_word M.strings (valid2.near room ⟨_, grows2.words own⟩) rfl rfl), rfl⟩
      refine (ih valid2 distinct).mono fun saved σ' ⟨saves, locations', calls', emits⟩ => ?_
      have own' : σ'.word? env (.save r) = some o := emits.grows.words (grows2.words own)
      refine ⟨⟨?_, fun h => ?_⟩, locations'.trans locations, calls'.trans calls, stores.trans emits ?_⟩
      · rw [map_cons, filter_cons, if_pos alive, saves.exact]
      · obtain ⟨⟩ | ⟨_, h⟩ := h
        · exact own'
        · exact saves.word h
      · rintro room M s _ s' rfl ⟨words, keeps⟩
        have spaced : Spaced o := (emits.valid.near room ⟨_, own'⟩).spaced
        refine ⟨fun h => ?_, (Keeps.setWord s _ spaced ⟨t, r, .head _⟩).trans (keeps.mono (fun _ => id) ?_)⟩
        · obtain ⟨⟩ | ⟨_, h⟩ := h
          · rw [keeps.word o spaced, Cpu.word_setWord_self]
            rintro ⟨u, q, hq⟩
            have same := emits.valid.apart own' (saves.word hq)
            injection same with same
            exact fresh (mem_map.2 ⟨_, (saves.own hq).1, same.symm⟩)
          · exact words h
        · exact fun o' ⟨u, q, h⟩ => ⟨u, q, .tail _ h⟩
    · refine (ih valid distinct).mono fun saved σ' ⟨saves, rest⟩ => ⟨⟨?_, saves.word⟩, rest⟩
      rw [filter_cons, if_neg alive, saves.exact]

/-! ### Restoring -/

/-- The words have the values of temporaries. -/
def Preserved (saved : List (Slot × Register × Int)) (slots : Slot → Option Word) (s : Cpu) : Prop :=
  ∀ {t r o v}, (t, r, o) ∈ saved → slots t = some v → s.word o = v

variable (env) in
/-- A temporary gets its value from a word of the frame. -/
def Refills (t : Slot) (o : Int) (σ σ' : State) : Prop :=
  Emits env σ σ' fun _ s s' => Keeps Working (Owned env σ') s s' ∧
    (∀ q p, σ.word? env (.save q) = some p → s'.word p = s.word p) ∧ ∀ slots, Placed env σ slots s →
    (∀ v, slots t = some v → s.word o = v) → Placed env σ' slots s'

/-- A temporary gets a place that is not another's. -/
lemma restore_emits {destination : Operand} (valid : Valid env σ) (valid' : Valid env σ')
    (grows : Grows env σ σ') (added : σ'.output.toList = σ.output.toList ++
      moveCode destination (frameWord o)) (here : Reads env σ' (.slot t) destination)
    (others : ∀ u, u ≠ t → σ'.allocation.location? u = σ.allocation.location? u)
    (own : σ.word? env (.save r) = some o) : Refills env t o σ σ' := by
  have near : Room env σ → Near o := fun room => valid.near room ⟨_, own⟩
  refine (write_emits valid valid' grows added here (fun u _ hu h => others u hu ▸ h) rfl
    (valid.within ⟨_, own⟩) fun room M s => ⟨_, .word (near room)⟩).mono fun room M s s'
    ⟨keeps, fine, post⟩ => ⟨keeps, fun q p saved => ?_, fun slots placed value => ?_⟩
  · refine fine.word p (valid.near (grows.room room) ⟨_, saved⟩).spaced fun same => ?_
    subst same
    obtain owned | owned := here.word valid' <;> cases valid'.apart owned (grows.words saved)
  · refine (post _ slots (.word (near (grows.room room))) placed).less fun x v hv => ?_
    by_cases same : x = t
    · rw [same, Function.update_self, value v (same ▸ hv)]
    · rwa [Function.update_of_ne same]

variable (env) in
/-- What was saved gets places again, none of which is the register of the answer. Nothing else gets
another place. -/
structure PutsBack (saved : List (Slot × Register × Int)) (restored : List (Slot × Location))
    (σ σ' : State) : Prop where
  same : restored.map fst = saved.map fst
  located : ∀ p ∈ restored, p.2 ≠ .register returnRegister ∧ σ'.allocation.location? p.1 = some p.2
  others : ∀ u ∉ saved.map fst, σ'.allocation.location? u = σ.allocation.location? u
  calls : σ'.calls = σ.calls
  emits : Emits env σ σ' fun _ s s' => Keeps Working (Owned env σ') s s' ∧
    ∀ slots, Placed env σ slots s → Preserved saved slots s → Placed env σ' slots s'

lemma restoreSaved_lowers (valid : Valid env σ) (distinct : (saved.map fst).Nodup)
    (temporary : ∀ {t r o}, (t, r, o) ∈ saved → env.function.isTemporary t = true)
    (own : ∀ {t r o}, (t, r, o) ∈ saved → σ.word? env (.save r) = some o) :
    Lowers (restoreSaved saved) σ fun restored => PutsBack env saved restored σ := by
  induction saved generalizing σ with
  | nil =>
    refine lowers_pure.2 ⟨rfl, nofun, fun _ _ => rfl, rfl, (Emits.refl valid).mono ?_⟩
    rintro - - s s' rfl
    exact ⟨.refl _ _ s', fun _ placed _ => placed⟩
  | cons p saved ih =>
    obtain ⟨t, r, o⟩ := p
    have temporary' := temporary (.head _)
    have own' := own (.head _)
    obtain ⟨fresh, distinct⟩ := nodup_cons.1 distinct
    -- However the first is restored, the others are restored after it.
    have rest : ∀ {σ₁ : State} (place : Location), Refills env t o σ σ₁ →
        place ≠ .register returnRegister → σ₁.allocation.location? t = some place →
        (∀ u ≠ t, σ₁.allocation.location? u = σ.allocation.location? u) →
        σ₁.calls = σ.calls → Lowers (restoreSaved saved) σ₁ fun restored =>
        PutsBack env ((t, r, o) :: saved) ((t, place) :: restored) σ := by
      intro σ₁ place emits other here others calls
      refine (ih emits.valid distinct (fun h => temporary (.tail _ h)) fun h => emits.grows.words
        (own (.tail _ h))).mono fun restored σ' ⟨same, located, others', calls', emits'⟩ =>
          ⟨congrArg (t :: ·) same, forall_mem_cons.2 ⟨⟨other, (others' t fresh).trans here⟩,
          located⟩, fun u hu => ?_, calls'.trans calls, ?_⟩
      · obtain ⟨hut, hu⟩ := not_or.1 (mt mem_cons.2 hu)
        exact (others' u hu).trans (others u hut)
      · refine emits.trans emits' fun room M s s1 s' ⟨keeps, words, post⟩ ⟨keeps', post'⟩ =>
          ⟨(keeps.mono (fun _ => id) fun _ => emits'.grows.owned).trans keeps',
          fun slots placed preserved => ?_⟩
        refine post' slots (post slots placed fun v => preserved (.head _)) fun h value => ?_
        rw [words _ _ (own (.tail _ h))]
        exact preserved (.tail _ h) value
    simp only [restoreSaved, lowers_bind, lowers_allocation]
    cases found : σ.allocation.findFree? [returnRegister] with
    | some q =>
      obtain ⟨pooled, free, allowed⟩ := findFree?_some found
      simp only [lowers_bind, lowers_emit, lowers_setAllocation, lowers_pure]
      obtain ⟨valid1, grows⟩ :=
        valid.bind free pooled temporary' (σ.add [.binary .mov (.reg q) (frameWord o)]).output
      have here : (σ.allocation.bind t q).location? t = some (.register q) := by rw [location?_bind, if_pos rfl]
      have others u (hu : u ≠ t) : (σ.allocation.bind t q).location? u = σ.allocation.location? u := by
        rw [location?_bind, if_neg hu]
      have emits := restore_emits valid valid1 grows (σ.toList_output_add _) (.of_register here) others own'
      exact (rest _ emits (fun same =>
        allowed (mem_singleton.2 (Location.register.inj same))) here others rfl).mono fun _ _ => id
    | none =>
      cases spills : σ.allocation.spillSlot t with
      | mk a spill =>
        simp only [lowers_bind, lowers_setAllocation, lowers_emitMove, lowers_modifyAllocation, lowers_pure]
        obtain ⟨valid1, grows, here, others⟩ :=
          valid.stack spills temporary' (σ.add (moveCode (frameWord spill) (frameWord o))).output
        have emits := restore_emits valid valid1 grows (σ.toList_output_add _) (.of_stack here) others own'
        exact (rest (.stack spill) emits Location.noConfusion here others rfl).mono fun _ _ => id

/-! ### Arguments -/

lemma readAll_lowers (valid : Valid env σ) (readable : ∀ a ∈ arguments, a.Readable D)
    (somewhere : ∀ a ∈ arguments, Somewhere env σ a) : Lowers (arguments.mapM (read env)) σ
    fun values σ' => σ' = σ ∧ Forall₂ (Reads env σ) arguments values := by
  induction arguments with
  | nil => exact lowers_pure.2 ⟨rfl, .nil⟩
  | cons a arguments ih =>
    rw [forall_mem_cons] at readable somewhere
    simp only [mapM_cons, lowers_bind, lowers_pure]
    refine (read_lowers valid readable.1 somewhere.1).mono ?_
    rintro value σ ⟨rfl, reads⟩
    refine (ih readable.2 somewhere.2).mono ?_
    rintro values σ ⟨rfl, all⟩
    exact ⟨rfl, .cons reads all⟩

/-- What is read keeps its value while the stack grows below the frame. -/
lemma Reads.firm {source : Operand} (h : Reads env σ source value) (valid : Valid env σ)
    (room : Room env σ) (size : σ.allocation.frame.size ≤ F) : Firm F value := by
  have word {o} (owned : Owned env σ o) : Firm F (.mem rbp o) := by
    have inside := valid.inside owned
    exact .word (valid.near room owned) (by omega)
  cases h with
  | @home x o owned =>
    have owned' : σ.word? env (.home x) = some o := owned
    exact word ⟨_, owned'⟩
  | @located _ place location =>
    cases place with
    | register r =>
      have other := ne_of_mem_pool (valid.pooled location)
      exact .reg fun pushing => pushing.elim other.2.1 other.2.2
    | stack o => exact word ⟨_, valid.owned_stack location⟩
  | imm w => exact .imm w
  | str index => exact .str index

lemma reads_steady {M : Setting}
    {ws : List Word} (valid : Valid env σ) (room : Room env σ) (size : σ.allocation.frame.size ≤ F)
    (placed : Placed env σ slots s) (reads : Forall₂ (Reads env σ) arguments values)
    (words : Forall₂ (fun a w => wordOf? M.strings slots a = some w) arguments ws) :
    Forall₂ (Steady M F s) values ws := by
  induction reads generalizing ws with
  | nil =>
    cases words
    exact .nil
  | cons head _ ih =>
    obtain _ | ⟨word, words⟩ := words
    exact .cons ⟨head.holds valid room placed word, head.firm valid room size⟩ (ih words)

lemma pushCode_proper (source : isSource value = true) (within : Within σ value) :
    ∀ i ∈ pushCode value, Proper σ i := by
  have push : ∀ {value : Operand}, isShort value = true → Within σ value → Proper σ (.unary .push value) :=
    fun short within => .of_none rfl (.push short) (forall_mem_singleton.2 within) rfl
  have through {i : Instr} (quiet : Quiet σ i) : ∀ j ∈ [i, .unary .push (.reg scratch)], Proper σ j := by
    exact forall_mem_cons.2 ⟨quiet.toProper, forall_mem_singleton.2 (push rfl trivial)⟩
  cases value with
  | reg _ | mem _ _ => exact forall_mem_singleton.2 (push rfl within)
  | str index => exact through (quiet_scratch rfl rfl (.lea scratch index) within)
  | imm w =>
    simp only [pushCode]
    split_ifs with fits
    · exact forall_mem_singleton.2 (push fits within)
    · exact through (quiet_scratch rfl rfl (.load (.inr ⟨w, rfl⟩)) within)
  | _ => cases source

section

variable (sources : ∀ value ∈ values, isSource value = true ∧ Within σ value)

include sources

lemma passCode_proper :
    ∀ i ∈ passCode values, Proper σ i := by
  have caller : ∀ r ∈ argumentRegisters, isCalleeSaved r = false := by decide
  unfold passCode
  split_ifs
  · simp only [forall_mem_append, mem_flatMap, forall_exists_index, and_imp, List.mem_map,
      forall_apply_eq_imp_iff₂]
    refine ⟨fun i value hv => pushCode_proper (sources value hv).1 (sources value hv).2 i, fun r hr => ?_⟩
    refine .of_caller rfl (.pop r) (forall_mem_singleton.2 trivial) fun q hq => ?_
    cases hq
    exact caller r (mem_of_mem_take (mem_reverse.1 hr))
  · intro i hi
    obtain ⟨p, hp, hi⟩ := mem_flatMap.1 hi
    have mem := of_mem_zip hp
    have working : Working p.2 := (passing_ne mem.2).symm
    exact (moveCode_quiet (target_of_caller _ working (caller _ mem.2)) (sources _ mem.1).1
      (sources _ mem.1).2 i hi).toProper

lemma callCode_proper (known : σ.Shifts (stackWords values * word)) :
    ∀ i ∈ callCode symbol returnType isExternal values, Proper σ i := by
  have shifts : ∀ {op : Opcode} {bytes : Int}, op = .add ∨ op = .sub → σ.Shifts bytes →
      Proper σ (.binary op (.reg rsp) (.imm (Int64.ofInt bytes))) := by
    intro op bytes form known
    refine .of_caller ?_ (.shift form known)
      (forall_mem_cons.2 ⟨trivial, forall_mem_singleton.2 trivial⟩) fun r hr => ?_
    · obtain rfl | rfl := form <;> rfl
    · have other : op ≠ .cmp := by
        obtain rfl | rfl := form <;> decide
      obtain rfl := mem_unique (if_neg other) hr
      rfl
  unfold callCode cleanCode
  simp only [forall_mem_append, forall_mem_singleton]
  refine ⟨?_, ?_, passCode_proper fun value hv => sources value (mem_of_mem_take hv),
    .of_none rfl (.call ..) (forall_mem_singleton.2 trivial) rfl, ?_⟩
  · split_ifs
    · exact forall_mem_singleton.2 (shifts (.inr rfl) (.inl rfl))
    · exact forall_mem_nil _
  · intro i hi
    obtain ⟨value, hv, hi⟩ := mem_flatMap.1 hi
    have source := sources value (mem_of_mem_drop (mem_reverse.1 hv))
    exact pushCode_proper source.1 source.2 i hi
  · split_ifs
    · exact forall_mem_singleton.2 (shifts (.inl rfl) known)
    · exact forall_mem_nil _

end

/-! ### The level of the stack -/

/-- The functions that code calls, in the order of the calls, and whether they are external. -/
def callees (is : List Instr) : List (String × Bool) :=
  is.filterMap fun
    | .unary .call (.callee symbol _ _ isExternal) => some (symbol, isExternal)
    | _ => none

@[simp] lemma callees_append (is is' : List Instr) :
    callees (is ++ is') = callees is ++ callees is' := filterMap_append

lemma callees_of_forall {is : List Instr} (others : ∀ i ∈ is, i.opcode ≠ .call) : callees is = [] := by
  refine filterMap_eq_nil_iff.2 fun i hi => ?_
  have other := others i hi
  split
  · exact absurd rfl other
  · rfl

lemma callees_callCode (symbol : String) (returnType : Ty) (isExternal : Bool) (values : List Operand) :
    callees (callCode symbol returnType isExternal values) = [(symbol, isExternal)] := by
  have before : callees (argumentCode values) = [] :=
    callees_of_forall fun i hi => ((sinking_arguments values).bodily i hi).opcode_ne_call
  have behind : callees (cleanCode values) = [] := callees_of_forall (cleanup_opcode _)
  rw [callCode_eq, callees_append, before, callees, filterMap_cons, ← callees, behind]
  rfl

/-- Code that leaves the stack pointer at its level, but for calls, between whose first argument and
whose clean-up it is lower. In a leaf there are no calls. -/
inductive Level (leaf : Bool) (σ : State) : List Instr → Prop where
  | nil : Level leaf σ []
  | still {i : Instr} {code : List Instr} (still : Still i) (rest : Level leaf σ code) :
      Level leaf σ (i :: code)
  | call {symbol : String} {returnType : Ty} {isExternal : Bool} {values : List Operand}
      {code : List Instr} (calling : leaf = false) (known : σ.Shifts (stackWords values * word))
      (rest : Level leaf σ code) :
      Level leaf σ (callCode symbol returnType isExternal values ++ code)

namespace Level

variable {leaf : Bool} {code code' : List Instr}

lemma grow (h : Level leaf σ code) (grows : Grows env σ σ') : Level leaf σ' code := by
  induction h with
  | nil => exact .nil
  | still still _ ih => exact .still still ih
  | call calling known _ ih => exact .call calling (known.imp_right fun ⟨record, made, same⟩ =>
      ⟨record, grows.calls.subset made, same⟩) ih

lemma append (h : Level leaf σ code) (h' : Level leaf σ code') : Level leaf σ (code ++ code') := by
  induction h with
  | nil => exact h'
  | still still _ ih => exact .still still ih
  | call calling known _ ih =>
    rw [append_assoc]
    exact .call calling known ih

lemma of_quiet (quiet : ∀ i ∈ code, Quiet σ i) : Level leaf σ code := by
  induction code with
  | nil => exact .nil
  | cons i code ih =>
    rw [forall_mem_cons] at quiet
    exact .still quiet.1.still (ih quiet.2)

end Level

lemma callees_of_quiet {code : List Instr} (quiet : ∀ i ∈ code, Quiet σ i) : callees code = [] := by
  exact callees_of_forall fun i hi => (quiet i hi).still.opcode_ne_call

/-! ### Calls -/

variable (env) in
/-- The frame ends at `F`, and all that instructions have to reach is in reach. -/
structure Reach (F : Int) (σ : State) : Prop where
  size : σ.allocation.frame.size ≤ F
  whole : 8 ∣ F
  small : F ≤ 2147483647
  top : env.top ≤ 2147483647
  bytes : ∀ call ∈ σ.calls, call.stackBytes ≤ 2147483647

lemma Reach.room (reach : Reach env F σ) : Room env σ := ⟨reach.size.trans reach.small, reach.top⟩

lemma Grows.reach (grows : Grows env σ σ') (reach : Reach env F σ') : Reach env F σ :=
  ⟨grows.size.trans reach.size, reach.whole, reach.small, reach.top,
  fun call h => reach.bytes call (grows.calls.subset h)⟩

variable (env) in
/-- The words that may change: those that belong to someone, and those outside of the frame. -/
def Touched (F : Int) (σ : State) (o : Int) : Prop := Owned env σ o ∨ o < -F ∨ env.top ≤ o

/-- The values of slots when an answer has been received. -/
def received (target : Option Slot) (answer : Word) (slots : Slot → Option Word) : Slot → Option Word :=
  match target with
  | some t => Function.update slots t (some answer)
  | none => slots

/-- What is done around a call: the temporaries that are saved, where they are restored to, and the
code before and after the call. -/
structure CallParts where
  saved : List (Slot × Register × Int)
  restored : List (Slot × Location)
  front : List Instr
  back : List Instr

def CallParts.code (parts : CallParts) (symbol : String) (returnType : Ty) (isExternal : Bool) : List Instr :=
  parts.front ++ .unary .call (.callee symbol [] returnType isExternal) :: parts.back

variable (env) in
/-- From `σ` to `σ'` the code of a call is added, after which the slots in `live` live on, and those
in `after` when its answer has been taken over. -/
structure Calls (symbol : String) (arguments : List Operand) (returnType : Ty) (isExternal : Bool)
    (live after : LiveSet) (target : Option Slot) (parts : CallParts) (σ σ' : State) : Prop where
  valid : Valid env σ'
  grows : Grows env σ σ'
  saves : Saves env σ.allocation.occupiedCallerSaved live σ' parts.saved
  restores : parts.restored.map fst = parts.saved.map fst
  restored : ∀ p ∈ parts.restored, p.2 ≠ .register returnRegister ∧
    (p.1 ∈ after → σ'.allocation.location? p.1 = some p.2)
  answered : ∀ t, target = some t → t ∉ live → t ∈ after →
    σ'.allocation.location? t = some (.register returnRegister)
  lives : ∀ u ∈ after, u ∈ live → σ.allocation.location? u ≠ none → σ'.allocation.location? u ≠ none
  noted : σ'.calls = σ.calls ++ [⟨symbol, parts.saved.map fun p => (p.1, p.2.1), parts.restored,
    stackWords arguments * word⟩]
  added : σ'.output.toList = σ.output.toList ++ parts.code symbol returnType isExternal
  proper : ∀ i ∈ parts.code symbol returnType isExternal, Proper σ' i
  level : Level false σ' (parts.code symbol returnType isExternal)
  called : callees (parts.code symbol returnType isExternal) = [(symbol, isExternal)]
  runs : ∀ F, Reach env F σ' → ∀ (M : Setting) s slots ws, Deep F s → Placed env σ slots s → Forall₂
    (fun a w => wordOf? M.strings slots a = some w) arguments ws → ∃ s₁, Passes M parts.front s s₁ ∧
    Passed ws 0 s₁ ∧ Keeps Passing (fun o => o < -F ∨ ∃ t r, (t, r, o) ∈ parts.saved) s s₁ ∧
    ∀ n, (∀ t, target = some t → t ∉ live) → M.Honours (s.reg rbp) (-F) env.top →
    ∃ s', Passes M parts.back (M.callee n s₁) s' ∧ Keeps Working (Touched env F σ') s s' ∧
    Placed env σ' (received target (M.answer n s₁) slots) s'

variable (env) in
/-- Before a call, what lives on is in saved words or in places that the call leaves alone. -/
structure Readied (live : LiveSet) (saved : List (Slot × Register × Int)) (σ σ' : State) : Prop where
  saves : Saves env σ.allocation.occupiedCallerSaved live σ' saved
  locations : σ'.allocation.locations = σ.allocation.locations
  calls : σ'.calls = σ.calls
  emits : Emits env σ σ' fun _ s s' => Keeps (fun _ => False) (fun o => ∃ t r, (t, r, o) ∈ saved) s s' ∧
    ∀ slots, Placed env σ slots s → Placed env σ' slots s' ∧ Preserved saved slots s'

lemma readied_lowers (valid : Valid env σ) (live : LiveSet) :
    Lowers (saveLive live σ.allocation.occupiedCallerSaved) σ fun saved => Readied env live saved σ := by
  have distinct : (σ.allocation.occupiedCallerSaved.map fst).Nodup :=
    σ.allocation.nodup_occupied.sublist (filter_sublist.map _)
  refine (saveLive_lowers valid distinct).mono fun saved σ' ⟨saves, locations, calls, emits⟩ =>
    ⟨saves, locations, calls, emits.mono ?_⟩
  intro room M s s' ⟨words, keeps⟩
  refine ⟨keeps, fun slots placed => ⟨?_, fun {t r o v} h value => ?_⟩⟩
  · have placed' := placed.keep valid (emits.grows.room room) keeps (fun _ _ _ => id)
      fun w o hw owned ⟨t, r, h⟩ =>
      hw r (emits.valid.apart (emits.grows.words owned) (saves.word h))
    exact ⟨placed'.homes, fun location => placed'.located ((congrArg (·[_]?) locations).symm.trans location)⟩
  · have occupied := (mem_occupiedCallerSaved.1 (saves.own h).1).2.1
    rw [words h]
    exact placed.located (valid.allocation.occupant_iff.1 occupied) value

/-- The state when the code of a call is there and the registers that it may change are empty. -/
def State.called (σ : State) (code : List Instr) : State :=
  { σ.add code with allocation :=
  σ.allocation.occupiedCallerSaved.foldl (fun a p => a.release p.1) σ.allocation }

lemma called_spec (valid : Valid env σ) (code : List Instr) : Valid env (σ.called code) ∧
    Grows env σ (σ.called code) ∧ Allocation.Releases (fun r => isCallerSaved r = true) σ.allocation
    (σ.called code).allocation := by
  have releases := valid.allocation.releaseCallerSaved
  obtain ⟨valid', grows⟩ := valid.empty releases (σ.add code).output
  exact ⟨valid', grows, releases⟩

/-- Values that a call leaves alone are where they were. -/
lemma called_placed {s' : Cpu} (code : List Instr) (valid : Valid env σ) (reach : Reach env F σ)
    (placed : Placed env σ slots s) (keeps : Keeps Changing (fun o => o < -F ∨ env.top ≤ o) s s') :
    Placed env (σ.called code) slots s' ∧ ∀ w o, σ.word? env w = some o → s'.word o = s.word o := by
  obtain ⟨valid', grows, releases⟩ := called_spec valid code
  have alone w o (owned : σ.word? env w = some o) : ¬ (o < -F ∨ env.top ≤ o) := by
    have inside := valid.inside ⟨w, owned⟩
    have size := reach.size
    omega
  refine ⟨?_, fun w o owned => keeps.word o (valid.near reach.room ⟨w, owned⟩).spaced (alone w o owned)⟩
  have placed' : Placed env (σ.called code) slots s := placed.forget fun u place h => (releases.location.1 h).1
  have size : (σ.called code).allocation.frame.size = σ.allocation.frame.size :=
    congrArg Frame.size releases.frame
  refine placed'.keep valid' ⟨size ▸ reach.room.1, reach.top⟩ keeps (fun u r h => ?_) fun w o _ owned out => ?_
  · have pooled := valid'.pooled h
    have kept := (releases.location.1 h).2 r rfl
    revert pooled kept
    unfold Changing
    cases r <;> decide
  · have inside := valid'.inside ⟨w, owned⟩
    have below := reach.size
    omega

variable (env) in
/-- The answer of a call goes to its target, if there is one, in the register that it comes in. -/
structure Receives (target : Option Slot) (σ σ' : State) : Prop where
  emits : Emits env σ σ' fun _ s s' => s' = s ∧
    ∀ slots, Placed env σ slots s → Placed env σ' (received target (s.reg returnRegister) slots) s
  here : ∀ t, target = some t → σ'.allocation.location? t = some (.register returnRegister)
  others : ∀ u, target ≠ some u → σ'.allocation.location? u = σ.allocation.location? u
  calls : σ'.calls = σ.calls

/-- What lives on stays where it is when the rest is released. -/
lemma releaseDead_location (valid : Valid env σ) (alive : u ∈ live) :
    (σ.allocation.releaseDead live).location? u = σ.allocation.location? u := by
  refine Option.ext fun place => ⟨fun h => ((valid.allocation.releaseDead live).location.1 h).1, fun here => ?_⟩
  refine (valid.allocation.releaseDead live).location.2 ⟨here, fun r hr ⟨t, occupied, dead⟩ => ?_⟩
  have occupied' := valid.allocation.occupant_iff.2 (hr ▸ here)
  exact dead (mem_unique occupied occupied' ▸ alive)

section

variable {code : List Instr} (readied : Readied env live saved σ σ₁)
  (receives : Receives env target (σ₁.called code) σ₃)
  (restores : PutsBack env saved restored σ₃ σ₄)

include readied receives restores

/-- What lives on behind a call has a place there, in a register that the call leaves alone or where
it is restored to. -/
lemma call_lives (valid : Valid env σ) (alive : u ∈ live) (h : σ.allocation.location? u ≠ none) :
    σ₄.allocation.location? u ≠ none := by
  by_cases mem : u ∈ saved.map fst
  · obtain ⟨p, hp, rfl⟩ := mem_map.1 (restores.same ▸ mem)
    exact fun none => nomatch (restores.located p hp).2.symm.trans none
  rw [restores.others u mem]
  by_cases answer : target = some u
  · exact fun none => nomatch (receives.here u answer).symm.trans none
  rw [receives.others u answer]
  obtain ⟨place, here⟩ := ne_none_iff_exists'.1 h
  have here' : σ₁.allocation.location? u = some place := (congrArg (·[u]?) readied.locations).trans here
  obtain ⟨-, -, changed⟩ := called_spec readied.emits.valid code
  refine ne_none_iff_exists'.2 ⟨place, changed.location.2 ⟨here', fun r hr caller => mem ?_⟩⟩
  subst hr
  obtain ⟨o, ho⟩ := readied.saves.all
    (mem_occupiedCallerSaved.2 ⟨valid.pooled here, valid.allocation.occupant_iff.2 here, caller⟩) alive
  exact mem_map.2 ⟨_, ho, rfl⟩

/-- Behind a call its answer is received, and then what was saved is restored. -/
lemma answer_emits : Emits env (σ₁.called code) σ₄ fun _ s s' => Keeps Working (Owned env σ₄) s s' ∧
    ∀ slots, (∀ t, target = some t → t ∉ live) → Placed env (σ₁.called code) slots s → Preserved saved slots s →
      Placed env σ₄ (received target (s.reg returnRegister) slots) s' := by
  refine receives.emits.trans restores.emits fun room M s s' s'' ⟨same, placed⟩ ⟨keeps, back⟩ => ?_
  subst same
  refine ⟨keeps, fun slots fresh before preserved =>
    back _ (placed slots before) fun {t r o v} h value => preserved h ?_⟩
  -- The temporaries that are restored are other ones than the one of the answer.
  cases target with
  | none => exact value
  | some u =>
    have other : t ≠ u := fun same => fresh u rfl (same ▸ (readied.saves.own h).2)
    rwa [received, Function.update_of_ne other] at value

end

variable (valid : Valid env σ)

include valid

lemma call_completes
    (readied : Readied env live saved σ σ₁) (reads : Forall₂ (Reads env σ₁) arguments values)
    (receives : Receives env target (σ₁.called (callCode symbol returnType isExternal values)) σ₃)
    (restores : PutsBack env saved restored σ₃ σ₄) :
    ∃ parts, Calls env symbol arguments returnType isExternal live after target parts σ { σ₄ with
      allocation := σ₄.allocation.releaseDead after
      calls := σ₄.calls ++ [⟨symbol, saved.map fun p => (p.1, p.2.1), restored,
      stackWords values * word⟩] } := by
  set code := callCode symbol returnType isExternal values with hcode
  set record : CallRecord := ⟨symbol, saved.map fun p => (p.1, p.2.1), restored,
    stackWords values * word⟩ with hrecord
  set σ' : State := { σ₄ with allocation := σ₄.allocation.releaseDead after, calls :=
    σ₄.calls ++ [record] } with hσ'
  obtain ⟨valid1, grows1, front, added1, quiet1, run1⟩ := readied.emits
  obtain ⟨valid2, grows2, -⟩ := called_spec valid1 code
  obtain ⟨valid4, grows4, back, added4, quiet4, run4⟩ := answer_emits readied receives restores
  have releases := valid4.allocation.releaseDead after
  obtain ⟨valid5, grows5⟩ := valid4.empty releases σ₄.output
  have valid' : Valid env σ' := ⟨valid5.allocation, valid5.homed, valid5.inside, valid5.apart, valid5.whole⟩
  have after4 : Grows env σ₄ σ' := ⟨grows5.size, grows5.words, grows5.used, prefix_append ..⟩
  have after1 := grows2.trans (grows4.trans after4)
  have known : σ'.Shifts (stackWords values * word) := .inr ⟨record, by simp [hσ'], rfl⟩
  have sources value (hv : value ∈ values) : isSource value = true ∧ Within σ' value := by
    obtain ⟨k, hk, rfl⟩ := mem_iff_getElem.1 hv
    have read := (forall₂_iff_get.1 reads).2 k (by rw [reads.length_eq]; exact hk) hk
    exact ⟨read.isSource, (read.within valid1).grow after1⟩
  have front' i (hi : i ∈ front) : Quiet σ' i := (quiet1 i hi).mono after1
  have back' i (hi : i ∈ back) : Quiet σ' i := (quiet4 i hi).mono after4
  let parts : CallParts := ⟨saved, restored, front ++ argumentCode values, cleanCode values ++ back⟩
  have shape : parts.code symbol returnType isExternal = front ++ (code ++ back) := by
    simp only [parts, CallParts.code, hcode, callCode_eq, append_assoc, cons_append]
  have location : ∀ u ∈ after, σ'.allocation.location? u = σ₄.allocation.location? u :=
    fun u => releaseDead_location valid4
  refine ⟨parts, valid', grows1.trans after1, readied.saves.grow after1, restores.same,
    fun p hp => (restores.located p hp).imp_right fun here alive => (location _ alive).trans here,
    fun t ht fresh alive => ?_, fun u alive' alive h => ?_, ?_, ?_, ?_, ?_, ?_, ?_⟩
  · rw [location t alive, restores.others t, receives.here t ht]
    intro mem
    obtain ⟨⟨_, r, o⟩, here, rfl⟩ := mem_map.1 mem
    exact fresh (readied.saves.own here).2
  · rw [location u alive']
    exact call_lives readied receives restores valid alive h
  · show σ₄.calls ++ [record] = _
    rw [restores.calls, receives.calls, length_stackWords reads.length_eq]
    exact congrArg (· ++ [record]) readied.calls
  · have output : (σ₁.called code).output.toList = σ₁.output.toList ++ code := σ₁.toList_output_add code
    rw [shape, added4, output, added1]
    simp only [append_assoc]
  · rw [shape]
    refine forall_mem_append.2 ⟨fun i hi => (front' i hi).toProper,
      forall_mem_append.2 ⟨callCode_proper sources known, ?_⟩⟩
    exact fun i hi => (back' i hi).toProper
  · rw [shape]
    exact (Level.of_quiet front').append (.call rfl known (.of_quiet back'))
  · rw [shape, callees_append, callees_append, callees_of_quiet front', callees_of_quiet back',
      callees_callCode]
    rfl
  · intro F reach M s slots ws deep placed words
    have reach1 := after1.reach reach
    have positive : 0 ≤ F := valid1.whole.2.trans reach1.size
    obtain ⟨s0, passes1, keeps1, post1⟩ := run1 reach1.room M s
    obtain ⟨placed1, preserved1⟩ := post1 slots placed
    have frame : s0.reg rbp = s.reg rbp := keeps1.reg rbp id
    have deep1 : Deep F s0 := by
      unfold Deep
      rw [keeps1.reg rsp id, frame, deep]
    have steady := reads_steady valid1 reach1.room reach1.size placed1 reads words
    have few : (stackWords values : Int) * word ≤ 2147483647 := reach.bytes record (by simp [hσ'])
    obtain ⟨s1, passes, passed, keeps, comesBack⟩ := call_runs steady deep1 reach.whole positive reach.small few
    refine ⟨s1, passes1.append passes, passed, (keeps1.mono (fun _ => False.elim) fun _ =>
      .inr).trans (keeps.mono (fun _ => id) fun _ => .inl), fun n fresh honours => ?_⟩
    obtain ⟨s2, passes2, answer, -, keeps2⟩ := comesBack n (frame.symm ▸ honours)
    obtain ⟨placed2, alone⟩ := called_placed code valid1 reach1 placed1 keeps2
    have preserved2 : Preserved saved slots s2 :=
      fun h value => (alone _ _ (readied.saves.word h)).trans (preserved1 h value)
    obtain ⟨s4, passes4, keeps4, post4⟩ := run4 (after4.reach reach).room M s2
    have placed4 := post4 slots fresh placed2 preserved2
    rw [answer] at placed4
    refine ⟨s4, passes2.append passes4, ?_, placed4.forget fun u place h => (releases.location.1 h).1⟩
    refine (keeps1.mono (fun _ => False.elim) fun _ ⟨_, _, h⟩ => .inl (after1.owned ⟨_,
      readied.saves.word h⟩)).trans ((keeps2.mono (fun r hr => ⟨hr.2.1, hr.2.2⟩) fun _ =>
      .inr).trans (keeps4.mono (fun _ => id) fun _ h => .inl (after4.owned h)))

lemma receives_none : Receives env none σ σ :=
  ⟨(Emits.refl valid).mono fun _ _ _ _ same => ⟨same, fun _ => id⟩, nofun, fun _ _ => rfl, rfl⟩

lemma receives_some (free : σ.allocation.occupant? returnRegister = none)
    (temporary : env.function.isTemporary t = true) :
    Receives env (some t) σ { σ with allocation := σ.allocation.bind t returnRegister } := by
  set σ' : State := { σ with allocation := σ.allocation.bind t returnRegister }
  obtain ⟨valid', grows⟩ := valid.bind free (by decide) temporary σ.output
  have here : σ'.allocation.location? t = some (.register returnRegister) := by
    rw [location?_bind, if_pos rfl]
  have others u (hu : u ≠ t) : σ'.allocation.location? u = σ.allocation.location? u := by
    rw [location?_bind, if_neg hu]
  refine ⟨⟨valid', grows, [], (append_nil _).symm, forall_mem_nil _,
    fun room M s => ⟨s, .nil M s, rfl, fun slots placed => ?_⟩⟩, fun u hu => some.inj hu ▸ here,
    fun u hu => others u fun same => hu (congrArg some same.symm), rfl⟩
  exact placed.write valid valid' grows room (.of_register here) (M := M) (.reg _) (.refl _ _ s)
    fun u place hu h => others u hu ▸ h

/-- After a call and its answer, what was saved is restored and what is not needed any more is
forgotten. -/
lemma finishCall_lowers (readied : Readied env live saved σ σ₁)
    (reads : Forall₂ (Reads env σ₁) arguments values)
    (receives : Receives env target (σ₁.called (callCode symbol returnType isExternal values)) σ₃)
    (after : LiveSet) (n : Nat) : Lowers (do
      let restored ← restoreSaved saved
      modify fun s => { s with calls := s.calls ++ [⟨symbol, saved.map fun p => (p.1, p.2.1),
        restored, stackWords values * word⟩] }
      modifyAllocation (·.releaseDead after)
      return n) σ₃ fun n' σ' => n' = n ∧
        ∃ parts, Calls env symbol arguments returnType isExternal live after target parts σ σ' := by
  have grows3 := (called_spec readied.emits.valid _).2.1.trans receives.emits.grows
  simp only [lowers_bind, lowers_modify, lowers_modifyAllocation, lowers_pure]
  refine (restoreSaved_lowers receives.emits.valid (readied.saves.nodup valid) (fun h => ?_)
    fun h => grows3.words (readied.saves.word h)).mono fun restored σ4 restores => ⟨trivial,
    call_completes valid readied reads receives restores⟩
  have occupied := (mem_occupiedCallerSaved.1 (readied.saves.own h).1).2.1
  exact valid.allocation.temporary (valid.allocation.occupant_iff.1 occupied)

lemma lowerCall_lowers (readable : ∀ a ∈ arguments, a.Readable D) (somewhere : ∀ a ∈ arguments,
      Somewhere env σ a) {rest : List (Instr × LiveSet)} {target : Option (Slot × Nat × LiveSet)}
    (known : (if returnType.hasValue then resultTarget? env.function rest else none) = target)
    (temporary : ∀ p, target = some p → env.function.isTemporary p.1 = true) :
    Lowers (lowerCall env symbol arguments returnType isExternal live rest) σ fun n σ' =>
    n = target.elim 0 (·.2.1) ∧ ∃ parts, Calls env symbol arguments returnType isExternal live
    (target.elim live (·.2.2)) (target.map fst) parts σ σ' := by
  simp only [lowerCall, lowers_bind, lowers_allocation, known]
  refine (readied_lowers valid live).mono fun saved σ₁ readied => ?_
  have valid1 := readied.emits.valid
  have location u : σ₁.allocation.location? u = σ.allocation.location? u := congrArg (·[u]?) readied.locations
  refine (readAll_lowers valid1 readable fun a ha t ht temporary =>
    location t ▸ somewhere a ha t ht temporary).mono ?_
  rintro values σ₁ ⟨rfl, reads⟩
  simp only [lowers_when fun _ => lowers_emit, lowers_bind,
    lowers_forM fun _ _ _ => lowers_pushOperand, lowers_passInRegisters, lowers_emit, State.add_add,
    append_assoc, lowers_modifyAllocation]
  obtain ⟨valid2, grows2, releases⟩ := called_spec valid1 (callCode symbol returnType isExternal values)
  cases target with
  | none => exact finishCall_lowers valid readied reads (receives_none valid2) live 0
  | some p =>
    have free : (σ₁.called
      (callCode symbol returnType isExternal values)).allocation.occupant? returnRegister = none :=
      eq_none_iff_forall_ne_some.2 fun u occupied => (releases.occupant.1 occupied).2 rfl
    refine lowers_bind.2 (lowers_modifyAllocation.2 ?_)
    exact finishCall_lowers valid readied reads (receives_some valid2 free (temporary p rfl)) p.2.2 p.2.1

end Lowering

end EmLang.Native
