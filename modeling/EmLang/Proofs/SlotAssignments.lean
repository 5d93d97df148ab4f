import EmLang.Proofs.MachineArithmetic
import EmLang.Proofs.RegisterMoves
import EmLang.Proofs.StraightCode

/-!
Instructions that give a slot a new value. The code for each brings the value to the place of the
slot, and the values of all other slots that are still needed stay where they can be found.
-/

namespace EmLang.Native

open Lir List Option Register

variable {M : Setting} {s : Cpu} {v w : Word}

/-- The value of an operand, from the values of slots. -/
def wordOf? (strings : Nat → Word) (slots : Slot → Option Word) : Operand → Option Word
  | .slot s => slots s
  | .imm w => some w.toBitVec
  | .str index => some (strings index)
  | _ => none

lemma Stands.unique {operand : Operand} (h : Stands M s operand v) (h' : Stands M s operand w) : v = w := by
  cases h <;> cases h' <;> rfl

namespace Lowering

variable {env : Env} {σ σ' σ1 : State} {source value destination : Operand} {t x : Slot}
  {r q : Register} {excluded : List Register} {o : Int} {op : Opcode} {slots : Slot → Option Word}

/-! ### Reading -/

variable (env) in
/-- Where the value of an operand is. -/
inductive Reads (σ : State) : Operand → Operand → Prop where
  | home {x : Slot} {o : Int} (owned : env.homes.offsets[x]? = some o) : Reads σ (.slot x) (frameWord o)
  | located {t : Slot} {place : Location} (location : σ.allocation.location? t = some place) :
      Reads σ (.slot t) place.operand
  | imm (w : Int64) : Reads σ (.imm w) (.imm w)
  | str (index : Nat) : Reads σ (.str index) (.str index)

/-- A register, a word of memory, a number or a string. -/
def isSource : Operand → Bool
  | .reg _ | .mem .. | .imm _ | .str _ => true
  | _ => false

section

variable (h : Reads env σ source value)

include h

lemma Reads.isSource : isSource value = true := by
  cases h with
  | home _ | imm _ | str _ => rfl
  | @located _ place _ => cases place <;> rfl

/-- There is a value, and if the values of slots are in their places it is that of the operand. -/
lemma Reads.stands (valid : Valid env σ) (room : Room env σ) (M : Setting) (s : Cpu) :
    ∃ v, Stands M s value v ∧ ∀ slots w, Placed env σ slots s →
    wordOf? M.strings slots source = some w → w = v := by
  cases h with
  | @home x o owned =>
    have owned' : σ.word? env (.home x) = some o := owned
    exact ⟨_, .word (valid.near room ⟨_, owned'⟩), fun slots w placed h => (placed.homes owned h).symm⟩
  | located location =>
    exact ⟨_, valid.stands room location M s, fun slots w placed h => (placed.located location h).symm⟩
  | imm w => exact ⟨_, .imm w, fun slots v _ h => (some.inj h).symm⟩
  | str index => exact ⟨_, .str index, fun slots v _ h => (some.inj h).symm⟩

lemma Reads.holds (valid : Valid env σ) (room : Room env σ) (placed : Placed env σ slots s)
    (word : wordOf? M.strings slots source = some v) : Stands M s value v := by
  obtain ⟨w, stands, same⟩ := h.stands valid room M s
  exact same slots v placed word ▸ stands

/-- The value stays in its place if the slot that it is in does. -/
lemma Reads.same (same : ∀ t place, source = .slot t → σ.allocation.location? t = some place →
      σ'.allocation.location? t = some place) : Reads env σ' source value := by
  cases h with
  | home owned => exact .home owned
  | located location => exact .located (same _ _ rfl location)
  | imm w => exact .imm w
  | str index => exact .str index

end

variable (env) in
/-- If the operand is a temporary, it is somewhere. -/
def Somewhere (σ : State) (operand : Operand) : Prop :=
  ∀ t, operand = .slot t → env.function.isTemporary t = true → σ.allocation.location? t ≠ none

lemma Somewhere.stays (h : Somewhere env σ source) (stays : Stays σ σ') : Somewhere env σ' source :=
  fun t ht temporary => stays t (h t ht temporary)

lemma Valid.home (valid : Valid env σ) (variable_ : env.function.isTemporary x = false) :
    ∃ o, env.homes.offsets[x]? = some o := by
  have lt : x < env.homes.offsets.length := by
    rw [valid.homed]
    exact Nat.lt_of_not_le fun le => nomatch variable_.symm.trans (decide_eq_true le)
  exact ⟨_, getElem?_eq_getElem lt⟩

variable {D : Slot → Prop}

lemma read_lowers (valid : Valid env σ) (readable : source.Readable D) (somewhere : Somewhere env σ source) :
    Lowers (read env source) σ fun value σ' => σ' = σ ∧ Reads env σ source value := by
  cases source with
  | slot x =>
    cases temporary : env.function.isTemporary x with
    | true =>
      obtain ⟨place, location⟩ := ne_none_iff_exists'.1 (somewhere x rfl temporary)
      simp only [read, temporary, if_true, lowers_bind, lowers_allocation, location, lowers_pure]
      exact ⟨trivial, .located location⟩
    | false =>
      obtain ⟨o, home⟩ := valid.home temporary
      simp only [read, temporary, Bool.false_eq_true, if_false, Homes.home?, home, map_some, lowers_pure]
      exact ⟨trivial, .home home⟩
  | imm w => exact lowers_pure.2 ⟨rfl, .imm w⟩
  | str index => exact lowers_pure.2 ⟨rfl, .str index⟩
  | _ => exact readable.elim

/-! ### Moving -/

lemma lowers_emitMove {Q : Unit → State → Prop} : Lowers (emitMove destination source) σ Q ↔
    Q () (σ.add (moveCode destination source)) := by
  by_cases same : destination = source
  · simp [emitMove, moveCode, same, lowers_pure]
  · unfold emitMove moveCode
    rw [if_neg same, if_neg same]
    cases destination with
    | reg _ => cases source <;> simp [moveOver, lowers_emit]
    | mem _ _ =>
      cases source with
      | imm value => by_cases fits : fits32 value.toInt = true <;> simp [moveOver, moveByScratch,
          throughScratch, scratchOperand, fits, lowers_bind, lowers_emit]
      | _ => simp [moveOver, moveByScratch, throughScratch, scratchOperand, lowers_bind, lowers_emit]
    | _ => cases source <;> simp [moveOver, moveByScratch, throughScratch, scratchOperand,
        lowers_bind, lowers_emit]

/-- A destination that may be written, whose use is noted if it has to be. -/
def Target (σ : State) : Operand → Prop
  | .reg r => Working r ∧ (isCalleeSaved r = true → r ∈ σ.allocation.usedCalleeSaved)
  | .mem base o => Within σ (.mem base o)
  | _ => False

lemma target_of_caller (σ : State) (working : Working r) (caller : isCalleeSaved r = false) :
    Target σ (.reg r) :=
  ⟨working, fun saved => nomatch caller.symm.trans saved⟩

lemma quiet_scratch (plain : isPlain op = true) (other : usesStack op = false)
    (encodable : Encodable σ.Shifts (.binary op (.reg scratch) source)) (within : Within σ source) :
    Quiet σ (.binary op (.reg scratch) source) := by
  have named r (hr : destination? (.binary op (.reg scratch) source) = some r) : r = scratch := by
    simp only [destination?] at hr
    split_ifs at hr
    exact (some.inj hr).symm
  refine ⟨.of_caller plain encodable ?_ fun r hr => ?_, other, fun r hr => ?_⟩
  · exact forall_mem_cons.2 ⟨trivial, forall_mem_singleton.2 within⟩
  · rw [named r hr]
    rfl
  · rw [named r hr]
    exact working_scratch

lemma moveCode_quiet (target : Target σ destination) (source' : isSource source = true)
    (within : Within σ source) : ∀ i ∈ moveCode destination source, Quiet σ i := by
  have store : ∀ {base o source}, Within σ (.mem base o) → isShort source = true →
      isMemory source = false → Within σ source → Quiet σ (.binary .mov (.mem base o) source) := by
    intro base o source there short plain here
    refine ⟨.of_none rfl (.store short plain) ?_ rfl, rfl, nofun⟩
    exact forall_mem_cons.2 ⟨there, forall_mem_singleton.2 here⟩
  have through : ∀ {base o op source}, Within σ (.mem base o) → isPlain op = true →
      usesStack op = false → Encodable σ.Shifts (.binary op (.reg scratch) source) →
      Within σ source → ∀ i ∈ throughScratch op (.mem base o) source, Quiet σ i := by
    intro base o op source there plain other encodable here i hi
    simp only [throughScratch, mem_cons, not_mem_nil, or_false] at hi
    obtain rfl | rfl := hi
    · exact quiet_scratch plain other encodable here
    · exact store there rfl rfl trivial
  intro i hi
  rw [moveCode] at hi
  split_ifs at hi
  · cases hi
  cases destination with
  | reg r =>
    have load : ∀ {op : Opcode}, isPlain op = true → usesStack op = false → op ≠ .cmp →
        Encodable σ.Shifts (.binary op (.reg r) source) → Quiet σ (.binary op (.reg r) source) := by
      intro op plain other named encodable
      have same : ∀ q, destination? (.binary op (.reg r) source) = some q → r = q := fun q hq =>
        mem_unique (if_neg named) hq
      refine ⟨⟨plain, encodable, ?_, fun q hq saved => ?_⟩, other, fun q hq => same q hq ▸ target.1⟩
      · exact forall_mem_cons.2 ⟨trivial, forall_mem_singleton.2 within⟩
      · exact .inl (same q hq ▸ target.2 (same q hq ▸ saved))
    cases source with
    | str index =>
      obtain rfl := mem_singleton.1 hi
      exact load rfl rfl (by decide) (.lea r index)
    | reg _ | mem _ _ =>
      obtain rfl := mem_singleton.1 hi
      exact load rfl rfl (by decide) (.load (.inl rfl))
    | imm w =>
      obtain rfl := mem_singleton.1 hi
      exact load rfl rfl (by decide) (.load (.inr ⟨w, rfl⟩))
    | _ => cases source'
  | mem base o =>
    cases source with
    | reg q =>
      obtain rfl := mem_singleton.1 hi
      exact store target rfl rfl within
    | mem _ _ => exact through target rfl rfl (.load (.inl rfl)) within i hi
    | str index => exact through target rfl rfl (.lea scratch index) within i hi
    | imm w =>
      by_cases fits : fits32 w.toInt = true
      · simp only [moveOver, fits, if_true] at hi
        obtain rfl := mem_singleton.1 hi
        exact store target fits rfl within
      · simp only [moveOver, fits, if_false, Bool.false_eq_true] at hi
        exact through target rfl rfl (.load (.inr ⟨w, rfl⟩)) within i hi
    | _ => cases source'
  | _ => exact target.elim

variable (env) in
/-- The slot has the new value, and all others have theirs. -/
structure Assigns (σ σ' : State) (t : Slot) (value : Setting → (Slot → Option Word) → Option Word)
    (M : Setting) (s s' : Cpu) : Prop where
  keeps : Keeps Working (Owned env σ') s s'
  placed : ∀ {slots v}, Placed env σ slots s → value M slots = some v →
    Placed env σ' (Function.update slots t (some v)) s'

lemma Valid.pooled (valid : Valid env σ)
    (location : σ.allocation.location? t = some (.register r)) : r ∈ pool :=
  valid.allocation.pooled location

lemma Reads.place (h : Reads env σ (.slot t) destination) (valid : Valid env σ)
    (room : Room env σ) : Place destination := by
  cases h with
  | home owned =>
    have owned' : σ.word? env (.home t) = some _ := owned
    exact .word (valid.near room ⟨_, owned'⟩)
  | @located _ place location =>
    cases place with
    | register r => exact .reg (ne_of_mem_pool (valid.pooled location)).1
    | stack o => exact .word (valid.near room ⟨_, valid.owned_stack location⟩)

lemma Reads.within (h : Reads env σ source value) (valid : Valid env σ) : Within σ value := by
  cases h with
  | @home x o owned =>
    have owned' : σ.word? env (.home x) = some o := owned
    exact valid.within ⟨_, owned'⟩
  | located location => exact valid.within_operand location
  | imm _ | str _ => trivial

lemma Reads.target (h : Reads env σ (.slot t) destination) (valid : Valid env σ) : Target σ destination := by
  have within := h.within valid
  cases h with
  | home _ => exact within
  | @located _ place location =>
    cases place with
    | register r => exact ⟨working_of_mem_pool (valid.pooled location), valid.allocation.noted location⟩
    | stack o => exact within

lemma Reads.word (h : Reads env σ (.slot t) (.mem rbp o)) (valid : Valid env σ) :
    σ.word? env (.home t) = some o ∨ σ.word? env (.spill t) = some o := by
  generalize same : Operand.mem rbp o = destination at h
  cases h with
  | home owned =>
    obtain ⟨-, rfl⟩ := Operand.mem.inj same
    exact .inl owned
  | @located _ place location =>
    cases place with
    | register r => cases same
    | stack o =>
      obtain ⟨-, rfl⟩ := Operand.mem.inj same
      exact .inr (valid.owned_stack location)

lemma Reads.location (h : Reads env σ (.slot t) (.reg r)) : σ.allocation.location? t = some (.register r) := by
  generalize same : Operand.reg r = destination at h
  cases h with
  | home owned => cases same
  | @located _ place location =>
    cases place with
    | stack _ => cases same
    | register q => exact Operand.reg.inj same ▸ location

lemma Reads.of_register (location : σ.allocation.location? t = some (.register r)) :
    Reads env σ (.slot t) (.reg r) :=
  (Reads.located location : Reads env σ (.slot t) (Location.register r).operand)

lemma Reads.of_stack (location : σ.allocation.location? t = some (.stack o)) :
    Reads env σ (.slot t) (frameWord o) :=
  (Reads.located location : Reads env σ (.slot t) (Location.stack o).operand)

lemma Reads.eq_operand (h : Reads env σ (.slot t) value) (valid : Valid env σ) {place : Location}
    (location : σ.allocation.location? t = some place) : value = place.operand := by
  cases h with
  | home owned => cases owned.symm.trans (valid.home?_of_temporary (valid.allocation.temporary location))
  | located location' => rw [mem_unique location location']

lemma Placed.write {s' : Cpu} (placed : Placed env σ slots s)
    (valid : Valid env σ) (valid' : Valid env σ') (grows : Grows env σ σ') (room : Room env σ')
    (here : Reads env σ' (.slot t) destination) (stands : Stands M s' destination v) (keeps : Keeps
      (fun q => q = scratch ∨ destination = .reg q) (fun o => destination = .mem rbp o) s s')
    (others : ∀ u place, u ≠ t → σ'.allocation.location? u = some place → σ.allocation.location? u =
      some place) : Placed env σ' (Function.update slots t (some v)) s' := by
  have value w (h : Function.update slots t (some v) t = some w) : v = w := by
    rw [Function.update_self] at h
    exact some.inj h
  refine placed.change valid (grows.room room) keeps (fun u r hu location => ?_)
    (fun w o home spill owned same => ?_) others (fun u hu => Function.update_of_ne hu ..)
    (fun o w owned h => ?_) fun place w location h => ?_
  · rintro (rfl | rfl)
    · exact (ne_of_mem_pool (valid'.pooled location)).2.2 rfl
    · have occupied := valid'.allocation.occupant_iff.2 location
      exact hu (mem_unique occupied (valid'.allocation.occupant_iff.2 here.location))
  · subst same
    obtain owned' | owned' := here.word valid'
    · exact home (valid'.apart (grows.words owned) owned')
    · exact spill (valid'.apart (grows.words owned) owned')
  · obtain rfl := value w h
    cases here with
    | home owned' =>
      obtain rfl := mem_unique owned owned'
      cases stands
      rfl
    | located location =>
        cases owned.symm.trans (valid'.home?_of_temporary (valid'.allocation.temporary location))
  · obtain rfl := value w h
    cases here with
    | home owned' => cases owned'.symm.trans (valid'.home?_of_temporary (valid'.allocation.temporary location))
    | located location' =>
      obtain rfl := mem_unique location location'
      cases place <;> cases stands <;> rfl

section

variable (valid : Valid env σ)

include valid

lemma write_emits (valid' : Valid env σ') (grows : Grows env σ σ') (added : σ'.output.toList =
      σ.output.toList ++ moveCode destination value) (here : Reads env σ' (.slot t) destination)
    (others : ∀ u place, u ≠ t → σ'.allocation.location? u = some place → σ.allocation.location? u =
      some place) (source : isSource value = true) (within : Within σ value)
    (stands : Room env σ → ∀ M s, ∃ v, Stands M s value v) : Emits env σ σ' fun M s s' =>
    Keeps Working (Owned env σ') s s' ∧ Keeps (fun q => q = scratch ∨ destination = .reg q)
    (fun o => destination = .mem rbp o) s s' ∧ ∀ v slots, Stands M s value v →
    Placed env σ slots s → Placed env σ' (Function.update slots t (some v)) s' := by
  refine ⟨valid', grows, _, added, moveCode_quiet (here.target valid') source (within.grow grows),
    fun room M s => ?_⟩
  obtain ⟨v, hv⟩ := stands (grows.room room) M s
  obtain ⟨s', passes, stands', keeps⟩ := moves (here.place valid' room) hv
  refine ⟨s', passes, keeps.mono ?_ ?_, keeps, fun w slots hw placed => ?_⟩
  · rintro r (rfl | rfl)
    · exact working_scratch
    · exact working_of_mem_pool (valid'.pooled here.location)
  · rintro o rfl
    exact (here.word valid').elim (fun h => ⟨_, h⟩) fun h => ⟨_, h⟩
  · obtain rfl := hv.unique hw
    exact placed.write valid valid' grows room here stands' keeps others

/-- A register is made free, and the value is still where it was. -/
lemma adoptOrTake_lowers (reads : Reads env σ source value) (live : LiveSet) :
    Lowers (adoptOrTake env value live) σ fun r σ' => r ∈ pool ∧ σ'.allocation.occupant? r = none ∧
    Emits env σ σ' (fun M s s' => Moves env (fun _ => False) σ σ' s s' ∧ ∀ slots v,
      Placed env σ slots s → wordOf? M.strings slots source = some v → Stands M s' value v) ∧
    Remains live σ σ' := by
  -- The registers that are taken are others than the one of the value.
  have take : ∀ excluded q, q ∈ pool → q ∉ excluded → (∀ r, value = .reg r → r ∈ excluded) →
      Lowers (takeRegister env excluded) σ fun r σ' => r ∈ pool ∧ σ'.allocation.occupant? r = none ∧
        Emits env σ σ' (fun M s s' => Moves env (fun _ => False) σ σ' s s' ∧
          ∀ slots v, Placed env σ slots s → wordOf? M.strings slots source = some v → Stands M s' value v) ∧
        Remains live σ σ' := by
    intro excluded q pooled allowed own
    refine (takeRegister_lowers valid pooled allowed).mono fun r σ' takes => ?_
    have reads' : Reads env σ' source value := by
      refine reads.same fun t place ht location => ?_
      rw [takes.others t fun here => ?_, location]
      subst ht
      exact takes.allowed (own r (reads.eq_operand valid here))
    refine ⟨takes.pooled, takes.free, takes.emits.mono fun room M s s' moves =>
      ⟨moves, fun slots v placed => ?_⟩, takes.stays.remains live⟩
    exact reads'.holds takes.emits.valid room (moves.placed placed)
  unfold adoptOrTake
  rw [lowers_bind, lowers_allocation]
  cases value with
  | reg r =>
    cases adopts : canAdopt σ.allocation r live with
    | false =>
      have other : ∃ q ∈ pool, q ∉ [r] := by cases r <;> decide
      obtain ⟨q, pooled, allowed⟩ := other
      simp only [adopts, Bool.false_eq_true, if_false]
      exact take [r] q pooled allowed fun q hq => by simp [Operand.reg.inj hq]
    | true =>
      simp only [adopts, if_true, lowers_bind, lowers_setAllocation, lowers_pure]
      simp only [canAdopt, Bool.and_eq_true, decide_eq_true_eq, Option.all_eq_true, Bool.not_eq_true'] at adopts
      obtain ⟨pooled, dead⟩ := adopts
      have dead' t (ht : σ.allocation.occupant? r = some t) : t ∉ live := by
        rw [Std.ExtTreeSet.mem_iff_contains, dead t ht]
        exact Bool.false_ne_true
      obtain ⟨emits, free, -, remains⟩ := release_emits valid dead'
      refine ⟨pooled, free, emits.mono fun room M s s' post => ⟨post.2, fun slots v placed => ?_⟩, remains⟩
      obtain ⟨rfl, -⟩ := post
      exact reads.holds valid (emits.grows.room room) placed
  | _ => exact take [] rax (by decide) (by simp) nofun

lemma Valid.add (code : List Instr) : Valid env (σ.add code) ∧ Grows env σ (σ.add code) :=
  valid.update (σ.add code).output valid.allocation rfl rfl fun _ => id

/-- The value of an operand is moved to the place that its slot has. -/
lemma write_assigns (reads : Reads env σ source value) (here : Reads env σ (.slot t) destination) :
    Emits env σ (σ.add (moveCode destination value))
      (Assigns env σ (σ.add (moveCode destination value)) t fun M slots => wordOf? M.strings slots source) := by
  obtain ⟨valid', grows⟩ := valid.add (moveCode destination value)
  have emits := write_emits valid valid' grows (σ.toList_output_add _) (here.same fun _ _ _ => id)
    (fun _ _ _ => id) reads.isSource (reads.within valid) fun room M s =>
    (reads.stands valid room M s).imp fun _ => And.left
  refine emits.mono fun room M s s' ⟨keeps, _, post⟩ => ⟨keeps, fun placed word => ?_⟩
  exact post _ _ (reads.holds valid (grows.room room) placed word) placed

variable (readable : source.Readable D) (somewhere : Somewhere env σ source) (live : LiveSet)

include readable somewhere live

lemma lowerMove_lowers :
    Lowers (lowerMove env (.slot t) source live) σ fun _ σ' =>
      Emits env σ σ' (Assigns env σ σ' t fun M slots => wordOf? M.strings slots source) ∧
      Somewhere env σ' (.slot t) ∧
      Remains live σ σ' := by
  unfold lowerMove
  rw [lowers_bind]
  refine (read_lowers valid readable somewhere).mono ?_
  rintro value σ ⟨rfl, reads⟩
  cases temporary : env.function.isTemporary t with
  | false =>
    obtain ⟨o, home⟩ := valid.home temporary
    simp only [temporary, Bool.false_eq_true, if_false, read, lowers_bind, Homes.home?, home,
      map_some, lowers_pure, lowers_emitMove]
    refine ⟨write_assigns valid reads (.home home), fun u hu temporary' => ?_, fun _ _ => id⟩
    cases hu
    cases temporary.symm.trans temporary'
  | true =>
    simp only [temporary, if_true, lowers_bind, lowers_allocation]
    cases location : σ.allocation.location? t with
    | some place =>
      simp only [lowers_emitMove]
      refine ⟨write_assigns valid reads (.located location), fun u hu _ => ?_, fun _ _ => id⟩
      cases hu
      exact location ▸ some_ne_none place
    | none =>
      simp only [lowers_bind]
      refine (adoptOrTake_lowers valid reads live).mono fun r σ1 ⟨pooled, free, emits, remains⟩ => ?_
      simp only [lowers_modifyAllocation, lowers_emitMove]
      have valid1 := emits.valid
      obtain ⟨valid', grows⟩ := valid1.bind free pooled temporary (σ1.add (moveCode (.reg r) value)).output
      have here : (σ1.allocation.bind t r).location? t = some (.register r) :=
        by rw [Allocation.location?_bind, if_pos rfl]
      have others u (hu : u ≠ t) : (σ1.allocation.bind t r).location? u = σ1.allocation.location? u := by
        rw [Allocation.location?_bind, if_neg hu]
      have writes := write_emits valid1 valid' grows (σ1.toList_output_add _) (.of_register here)
        (fun u place hu h => others u hu ▸ h) reads.isSource ((reads.within valid).grow emits.grows)
        fun room M s => (reads.stands valid (emits.grows.room room) M s).imp fun _ => And.left
      refine ⟨emits.trans writes fun room M s s1 s' ⟨moves, stands⟩ ⟨keeps, _, post⟩ =>
        ⟨?_, fun placed word => ?_⟩, fun u hu _ => ?_,
        fun u hu h => stays_bind σ1 t r u (remains u hu h)⟩
      · exact (moves.keeps.mono (fun _ => False.elim) fun _ => grows.owned).trans keeps
      · exact post _ _ (stands _ _ placed word) (moves.placed placed)
      · cases hu
        exact here ▸ some_ne_none _

lemma lowerReturn_lowers :
    Lowers (lowerMove env .returnSlot source live) σ fun _ σ' => Emits env σ σ' fun M s s' =>
      Keeps Working (Owned env σ') s s' ∧ ∀ slots v, Placed env σ slots s →
        wordOf? M.strings slots source = some v → s'.reg returnRegister = v := by
  unfold lowerMove
  rw [lowers_bind]
  refine (read_lowers valid readable somewhere).mono ?_
  rintro value σ ⟨rfl, reads⟩
  by_cases same : value = .reg returnRegister
  · subst same
    simp only [if_true, lowers_emitMove, moveCode, State.add_nil]
    refine (Emits.refl valid).mono ?_
    rintro room M s s' rfl
    refine ⟨.refl _ _ s', fun slots v placed word => ?_⟩
    cases reads.holds valid room placed word
    rfl
  · simp only [same, if_false, lowers_bind, lowers_allocation, lowers_emitMove]
    refine (evict_lowers valid returnRegister (registerOf σ.allocation value) live).mono fun _ σ1 evicts => ?_
    have emits := evicts.emits
    have reads1 : Reads env σ1 source value := by
      refine reads.same fun t place ht location => ?_
      subst ht
      rw [evicts.others t fun here => same (reads.eq_operand valid here), location]
    obtain ⟨valid', grows⟩ := emits.valid.add (moveCode (.reg returnRegister) value)
    have moves : Emits env σ1 (σ1.add (moveCode (.reg returnRegister) value)) fun M s s' =>
        Keeps (· = returnRegister) (fun _ => False) s s' ∧ ∀ v, Stands M s value v →
        s'.reg returnRegister = v := by
      refine ⟨valid', grows, _, σ1.toList_output_add _,
        moveCode_quiet (target_of_caller _ (working_of_mem_pool (by decide)) rfl) reads.isSource
        ((reads1.within emits.valid).grow grows), fun room M s => ?_⟩
      obtain ⟨v, stands, -⟩ := reads1.stands emits.valid (grows.room room) M s
      obtain ⟨s', passes, value, keeps⟩ := moves_reg stands (by decide : returnRegister ≠ rbp)
      exact ⟨s', passes, keeps, fun w hw => hw.unique stands ▸ value⟩
    refine emits.trans moves ?_
    rintro room M s s1 s' moved ⟨keeps, post⟩
    refine ⟨?_, fun slots v placed word => ?_⟩
    · refine (moved.keeps.mono (fun r hr => working_of_mem_pool hr.1) fun _ => grows.owned).trans
        (keeps.mono ?_ fun _ => False.elim)
      rintro r rfl
      exact working_of_mem_pool (by decide)
    · exact post v (reads1.holds emits.valid (grows.room room) (moved.placed placed) word)

end

/-! ### Arithmetic -/

lemma materialize_lowers (valid : Valid env σ) (source : isSource value = true)
    (number : ∀ index, value ≠ .str index) (pooled : q ∈ pool) (allowed : q ∉ excluded) :
    Lowers (materialize env value excluded) σ fun value' σ' => isShort value' = true ∧
    (value' = value ∨ ∃ r, value' = .reg r) ∧ Emits env σ σ'
    (fun M s s' => Moves env Working σ σ' s s' ∧ ∀ v, Stands M s value v → Stands M s' value' v) ∧
    (∀ t r, r ∈ excluded → σ.allocation.location? t = some (.register r) →
      σ'.allocation.location? t = some (.register r)) ∧ Stays σ σ' := by
  have keep (short : isShort value = true) : Lowers (pure value) σ fun value' σ' =>
      isShort value' = true ∧ (value' = value ∨ ∃ r, value' = .reg r) ∧ Emits env σ σ'
      (fun M s s' => Moves env Working σ σ' s s' ∧ ∀ v, Stands M s value v → Stands M s' value' v) ∧
      (∀ t r, r ∈ excluded → σ.allocation.location? t = some (.register r) →
      σ'.allocation.location? t = some (.register r)) ∧ Stays σ σ' := by
    refine lowers_pure.2 ⟨short, .inl rfl, (Emits.refl valid).mono ?_, fun _ _ _ => id, fun _ => id⟩
    rintro - M s s' rfl
    exact ⟨⟨.refl _ _ s', id⟩, fun _ => id⟩
  unfold materialize
  cases value with
  | reg _ | mem _ _ => exact keep rfl
  | str index => exact absurd rfl (number index)
  | imm w =>
    by_cases fits : fits32 w.toInt = true
    · simp only [fits, if_true]
      exact keep fits
    simp only [fits, Bool.false_eq_true, if_false, lowers_bind, lowers_emit, lowers_pure]
    refine (takeRegister_lowers valid pooled allowed).mono fun r σ1 takes => ?_
    obtain ⟨valid', grows⟩ := takes.emits.valid.add [.binary .mov (.reg r) (.imm w)]
    have wide : IsWide (.binary .mov (.reg r) (.imm w)) := ⟨r, w, rfl, by simpa using fits⟩
    have loads : Emits env σ1 (σ1.add [.binary .mov (.reg r) (.imm w)]) fun M s s' => s' = s.set r w.toBitVec :=
      ⟨valid', grows, _, σ1.toList_output_add _, forall_mem_singleton.2 ⟨⟨rfl, .load (.inr ⟨w, rfl⟩),
          forall_mem_cons.2 ⟨trivial, forall_mem_singleton.2 trivial⟩, fun _ _ _ => .inr wide⟩, rfl, fun q hq =>
          some.inj hq ▸ working_of_mem_pool takes.pooled⟩,
        fun room M s => ⟨_, .single rfl, rfl⟩⟩
    refine ⟨rfl, .inr ⟨r, rfl⟩, takes.emits.trans loads ?_, fun t q hq location => ?_, takes.stays⟩
    · rintro room M s s1 s' moves rfl
      have keeps : Keeps (· = r) (fun _ => False) s1 (s1.set r w.toBitVec) :=
        .set s1 _ (ne_of_mem_pool takes.pooled).1 rfl
      refine ⟨⟨?_, fun placed => ?_⟩, fun v stands => ?_⟩
      · refine (moves.keeps.mono (fun _ => False.elim) fun _ => grows.owned).trans
          (keeps.mono ?_ fun _ => False.elim)
        rintro _ rfl
        exact working_of_mem_pool takes.pooled
      · -- The register is free, so that no slot is in it.
        have placed1 :=
          (moves.placed placed).keep takes.emits.valid (grows.room room) keeps ?_ fun _ _ _ _ => id
        · exact ⟨placed1.homes, placed1.located⟩
        · rintro u _ location rfl
          cases takes.free.symm.trans (takes.emits.valid.allocation.occupant_iff.2 location)
      · obtain rfl : v = w.toBitVec := by cases stands; rfl
        exact .of_reg (s1.reg_set_self r _)
    · have kept := takes.others t fun here => takes.allowed ?_
      · exact kept.trans location
      · obtain rfl := Location.register.inj (mem_unique location here)
        exact hq
  | _ => cases source

/-- Some register can be taken when only few may not. -/
lemma exists_allowed (few : excluded.length ≤ 12) : ∃ q ∈ pool, q ∉ excluded := by
  by_contra none
  have all : pool ⊆ excluded := fun q pooled => by
    by_contra allowed
    exact none ⟨q, pooled, allowed⟩
  have long : pool.length ≤ excluded.length := (List.Nodup.subperm (by decide) all).length_le
  have count : pool.length = 13 := rfl
  omega

lemma length_registerOf (a : Allocation) (operand : Operand) : (registerOf a operand).length ≤ 1 := by
  cases operand with
  | slot s =>
    rw [registerOf, length_toList]
    split <;> omega
  | _ => simp [registerOf]

/-- The register of a temporary is worked on, by an instruction that changes no other. -/
lemma work_emits {i : Instr} (valid : Valid env σ)
    (location : σ.allocation.location? t = some (.register r)) (plain : isPlain i.opcode = true)
    (other : usesStack i.opcode = false) (encodable : Encodable σ.Shifts i)
    (within : ∀ operand ∈ i.operands, Within σ operand) (destination : destination? i = some r)
    (value : Setting → Cpu → Word) (run : Room env σ → ∀ M s, ∃ s', s.perform M.strings i =
      .next s' ∧ s'.reg r = value M s ∧ Keeps (· = r) (fun _ => False) s s') : Emits env σ
    (σ.add [i]) fun M s s' => Keeps Working (fun _ => False) s s' ∧ ∀ slots, Placed env σ slots s →
    Placed env (σ.add [i]) (Function.update slots t (some (value M s))) s' := by
  obtain ⟨valid', grows⟩ := valid.add [i]
  have here : Reads env (σ.add [i]) (.slot t) (.reg r) := .of_register location
  refine ⟨valid', grows, [i], σ.toList_output_add _,
    forall_mem_singleton.2 ⟨⟨plain, encodable, within, ?_⟩, other, ?_⟩, fun room M s => ?_⟩
  · intro q hq saved
    obtain rfl := mem_unique destination hq
    exact .inl (valid.allocation.noted location saved)
  · intro q hq
    obtain rfl := mem_unique destination hq
    exact working_of_mem_pool (valid.pooled location)
  · obtain ⟨s', performs, result, keeps⟩ := run (grows.room room) M s
    refine ⟨s', .single performs, keeps.mono ?_ fun _ => id, fun slots placed => ?_⟩
    · rintro _ rfl
      exact working_of_mem_pool (valid.pooled location)
    · refine placed.write valid valid' grows room here (M := M) (.of_reg result)
        (keeps.mono ?_ fun _ => False.elim) fun _ _ _ => id
      rintro _ rfl
      exact .inr rfl

/-- Values are moved about before a slot gets its new one. -/
lemma Emits.assigns {T : Register → Prop} {value : Setting → (Slot → Option Word) → Option Word}
    (h : Emits env σ σ1 fun _ s s' => Moves env T σ σ1 s s') (working : ∀ r, T r → Working r)
    (h' : Emits env σ1 σ' (Assigns env σ1 σ' t value)) : Emits env σ σ' (Assigns env σ σ' t value) := by
  refine h.trans h' fun room M s s1 s' moves assigns => ⟨?_, fun placed result =>
    assigns.placed (moves.placed placed) result⟩
  exact (moves.keeps.mono working fun _ => h'.grows.owned).trans assigns.keeps

/-- The values of two operands, put together. -/
def combined (f : Word → Word → Word) (t : Slot) (source : Operand) (M : Setting)
    (slots : Slot → Option Word) : Option Word :=
  (slots t).bind fun l => (wordOf? M.strings slots source).map (f l)

lemma lowerArithmetic_lowers (valid : Valid env σ) {f : Word → Word → Word}
    (known : Opcode.onWords? op = some f) (temporary : env.function.isTemporary t = true)
    (readable : source.Readable D) (number : ∀ index, source ≠ .str index)
    (somewhere : Somewhere env σ source) (here : Somewhere env σ (.slot t)) :
    Lowers (lowerArithmetic env op (.slot t) source) σ fun _ σ' =>
      Emits env σ σ' (Assigns env σ σ' t (combined f t source)) ∧ Stays σ σ' := by
  have few := length_registerOf σ.allocation source
  obtain ⟨q, pooled, allowed⟩ := exists_allowed (few.trans (by decide))
  simp only [lowerArithmetic, lowers_bind, lowers_allocation, temporary, if_true]
  refine (inRegister_lowers valid pooled allowed (here t rfl temporary)).mono
    fun left σ1 ⟨location, emits1, stays1⟩ => ?_
  have valid1 := emits1.valid
  simp only [lowers_pure]
  refine (read_lowers valid1 readable (somewhere.stays stays1)).mono ?_
  rintro value σ1 ⟨rfl, reads⟩
  have number' : ∀ index, value ≠ .str index := by
    intro index same
    cases reads with
    | str index => exact number index rfl
    | @located _ place _ => cases place <;> cases same
    | home _ | imm _ => cases same
  have few' : (registerOf σ.allocation source ++ [left]).length ≤ 12 := by
    rw [length_append, length_singleton]
    omega
  obtain ⟨q', pooled', allowed'⟩ := exists_allowed few'
  refine (materialize_lowers valid1 reads.isSource number' pooled' allowed').mono ?_
  rintro value' σ2 ⟨short, form, emits2, kept, stays2⟩
  have valid2 := emits2.valid
  have location2 := kept t left (by simp) location
  have stands : Room env σ2 → ∀ M s, ∃ v, Stands M s value' v := by
    intro room M s
    obtain rfl | ⟨r, rfl⟩ := form
    · exact (reads.stands valid1 (emits2.grows.room room) M s).imp fun _ => And.left
    · exact ⟨_, .reg r⟩
  have ready : op ∈ [Opcode.add, .sub, .imul, .cmp] ∧ isPlain op = true ∧ usesStack op = false ∧ op ≠ .cmp := by
    cases op <;> cases known <;> decide
  have within : Within σ2 value' := by
    obtain rfl | ⟨r, rfl⟩ := form
    · exact (reads.within valid1).grow emits2.grows
    · trivial
  have works :=
    work_emits valid2 location2 (i := .binary op (.reg left) value') ready.2.1 ready.2.2.1
    (.operate ready.1 short) (forall_mem_cons.2 ⟨trivial, forall_mem_singleton.2 within⟩)
    (if_neg ready.2.2.2) (fun _ s => f (s.reg left) ((s.value? value').getD 0)) ?_
  · simp only [lowers_emit]
    refine ⟨emits1.assigns ?_ (emits2.trans works ?_), fun u hu => stays2 u (stays1 u hu)⟩
    · rintro _ rfl
      exact working_of_mem_pool (valid1.pooled location)
    · intro room M s1 s2 s' ⟨moves, stands'⟩ ⟨keeps, post⟩
      refine ⟨(moves.keeps.mono (fun _ => id) fun _ => works.grows.owned).trans
        (keeps.mono (fun _ => id) fun _ => False.elim), fun {slots v} placed result => ?_⟩
      obtain ⟨l, hl, result⟩ := bind_eq_some_iff.1 result
      obtain ⟨r, hr, rfl⟩ := map_eq_some_iff.1 result
      have standing := reads.holds valid1 ((emits2.grows.trans works.grows).room room) placed hr
      have placed2 := moves.placed placed
      have left' : s2.reg left = l := placed2.located location2 hl
      have right : s2.value? value' = some r := (stands' r standing).value? short
      have after := post slots placed2
      rwa [left', right] at after
  · intro room M s
    obtain ⟨v, hv⟩ := stands room M s
    rw [hv.value? short]
    exact perform_operate known hv short (ne_of_mem_pool (valid2.pooled location2)).1

lemma lowerNegate_lowers (valid : Valid env σ) (temporary : env.function.isTemporary t = true)
    (here : Somewhere env σ (.slot t)) : Lowers (lowerNegate env (.slot t)) σ fun _ σ' =>
      Emits env σ σ' (Assigns env σ σ' t fun _ slots => (slots t).map (- ·)) ∧ Stays σ σ' := by
  simp only [lowerNegate, temporary, if_true, map_eq_pure_bind, lowers_bind]
  refine (inRegister_lowers valid (by decide : rax ∈ pool) (by simp) (here t rfl temporary)).mono
    fun r σ1 ⟨location, emits, stays⟩ => ?_
  have valid1 := emits.valid
  have works := work_emits valid1 location (i := .unary .neg (.reg r)) rfl rfl
    (.neg r) (forall_mem_singleton.2 trivial) rfl (fun _ s => -s.reg r) fun _ M s =>
    perform_neg M.strings s (ne_of_mem_pool (valid1.pooled location)).1
  simp only [lowers_pure, lowers_emit]
  refine ⟨emits.assigns ?_ (works.mono fun room M s s' ⟨keeps, post⟩ =>
    ⟨keeps.mono (fun _ => id) fun _ => False.elim, ?_⟩), stays⟩
  · rintro _ rfl
    exact working_of_mem_pool (valid1.pooled location)
  · intro slots v placed result
    obtain ⟨w, hw, rfl⟩ := map_eq_some_iff.1 result
    have value : s.reg r = w := placed.located location hw
    exact value ▸ post slots placed

end Lowering

end EmLang.Native
