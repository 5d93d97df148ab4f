import EmLang.Proofs.FunctionCode

/-!
What lowering does to its state, whatever the code is. Registers and words of the frame change in a
few kinds of steps only, and what each of them keeps is kept at every moment.
-/

namespace EmLang.Native

open Allocation Lir Option Register

variable {i : Instr} {op : Opcode} {c : Prop} {α : Type}

/-- The targets of the jumps among instructions. -/
def jumpsOf (is : List Instr) : List BlockId := is.flatMap fun i => i.jumpTarget?.toList

@[simp] lemma jumpsOf_nil : jumpsOf [] = [] := rfl

@[simp] lemma jumpsOf_cons (i : Instr) (is : List Instr) :
    jumpsOf (i :: is) = i.jumpTarget?.toList ++ jumpsOf is := List.flatMap_cons

@[simp] lemma jumpsOf_append (is is' : List Instr) :
    jumpsOf (is ++ is') = jumpsOf is ++ jumpsOf is' := List.flatMap_append

@[simp] lemma jumpsOf_ite [Decidable c] (is is' : List Instr) :
    jumpsOf (if c then is else is') = if c then jumpsOf is else jumpsOf is' :=
  apply_ite ..

@[simp] lemma jumpsOf_flatMap (as : List α) (code : α → List Instr) :
    jumpsOf (as.flatMap code) = as.flatMap fun a => jumpsOf (code a) :=
  List.flatMap_assoc

@[simp] lemma jumpsOf_moveCode (destination source : Operand) : jumpsOf (moveCode destination source) = [] := by
  unfold moveCode moveOver throughScratch
  repeat' split
  all_goals rfl

@[simp] lemma jumpsOf_pushCode (value : Operand) : jumpsOf (pushCode value) = [] := by
  unfold pushCode
  repeat' split
  all_goals rfl

lemma jumpsOf_map {instr : α → Instr} (stays : ∀ a, (instr a).jumpTarget? = none) (as : List α) :
    jumpsOf (as.map instr) = [] := by
  simp [jumpsOf, List.flatMap_map, stays]

@[simp] lemma jumpsOf_passCode (values : List Operand) : jumpsOf (passCode values) = [] := by
  unfold passCode
  split_ifs
  · rw [jumpsOf_append, jumpsOf_map fun _ => rfl]
    simp
  · simp

namespace Lowering

variable {code : List Instr} {f : Lir.Function} {liveness : Liveness} {source : Operand}
  {σ' σ σ'' : State} {I : State → Prop} {β : Type} {Q R : α → State → Prop} {act : Lower α}

/-! ### What actions yield -/

/-- If the action succeeds, `Q` holds of its value and the state after it. -/
def Yields {α : Type} (act : Lower α) (σ : State) (Q : α → State → Prop) : Prop :=
  ∀ a σ', act σ = .ok (a, σ') → Q a σ'

lemma Yields.mono (h : Yields act σ Q) (imp : ∀ a σ', Q a σ' → R a σ') : Yields act σ R :=
  fun a σ' run => imp a σ' (h a σ' run)

lemma yields_of_lowers {a : α} (h : ∀ Q : α → State → Prop, Lowers act σ Q ↔ Q a σ') :
    Yields act σ Q ↔ Q a σ' := by
  obtain ⟨b, σ'', run, rfl, rfl⟩ := (h fun b σ'' => b = a ∧ σ'' = σ').2 ⟨rfl, rfl⟩
  refine ⟨fun yields => yields _ _ run, fun holds b' τ run' => ?_⟩
  obtain ⟨rfl, rfl⟩ := Prod.mk.inj (Except.ok.inj (run.symm.trans run'))
  exact holds

lemma yields_throw (failure : Failure) : Yields (throw failure) σ Q := nofun

lemma yields_pure {a : α} : Yields (pure a) σ Q ↔ Q a σ := yields_of_lowers fun _ => lowers_pure

lemma bind_eq_ok {act : Lower β} {f : β → Lower α} {a : α} :
    (act >>= f) σ = .ok (a, σ'') ↔ ∃ b σ', act σ = .ok (b, σ') ∧ f b σ' = .ok (a, σ'') :=
  (ok_of_bind (f := fun p : β × State => f p.1 p.2)).trans Prod.exists

lemma yields_bind {act : Lower β} {f : β → Lower α} :
    Yields (act >>= f) σ Q ↔ Yields act σ fun b σ' => Yields (f b) σ' Q := by
  constructor
  · exact fun h b σ' run a σ'' run' => h a σ'' (bind_eq_ok.2 ⟨b, σ', run, run'⟩)
  · intro h a σ'' run
    obtain ⟨b, σ', run, run'⟩ := bind_eq_ok.1 run
    exact h b σ' run a σ'' run'

lemma yields_get {Q : State → State → Prop} : Yields get σ Q ↔ Q σ σ := yields_of_lowers fun _ => lowers_get

lemma yields_set {Q : PUnit → State → Prop} : Yields (set σ') σ Q ↔ Q () σ' :=
  yields_of_lowers fun _ => lowers_set

lemma yields_modify {f : State → State} {Q : Unit → State → Prop} : Yields (modify f) σ Q ↔ Q () (f σ) :=
  yields_of_lowers fun _ => lowers_modify

lemma yields_modifyGet {g : State → α × State} : Yields (modifyGet g) σ Q ↔ Q (g σ).1 (g σ).2 :=
  yields_of_lowers fun _ => lowers_modifyGet

lemma yields_emit {Q : Unit → State → Prop} : Yields (emit i) σ Q ↔ Q () (σ.add [i]) :=
  yields_of_lowers fun _ => lowers_emit

lemma yields_allocation {Q : Allocation → State → Prop} : Yields allocation σ Q ↔ Q σ.allocation σ :=
  yields_of_lowers fun _ => lowers_allocation

lemma yields_setAllocation {a : Allocation} {Q : Unit → State → Prop} : Yields (setAllocation a) σ Q
    ↔ Q () { σ with allocation := a } := yields_of_lowers fun _ => lowers_setAllocation

lemma yields_modifyAllocation {f : Allocation → Allocation} {Q : Unit → State → Prop} :
    Yields (modifyAllocation f) σ Q ↔ Q () { σ with allocation := f σ.allocation } :=
    yields_of_lowers fun _ => lowers_modifyAllocation

lemma yields_emitMove {destination : Operand} {Q : Unit → State → Prop} :
    Yields (emitMove destination source) σ Q ↔ Q () (σ.add (moveCode destination source)) :=
    yields_of_lowers fun _ => lowers_emitMove

lemma yields_pushOperand {value : Operand} {Q : Unit → State → Prop} :
    Yields (pushOperand value) σ Q ↔ Q () (σ.add (pushCode value)) :=
    yields_of_lowers fun _ => lowers_pushOperand

lemma yields_passInRegisters {values : List Operand} {Q : Unit → State → Prop} :
    Yields (passInRegisters values) σ Q ↔ Q () (σ.add (passCode values)) :=
    yields_of_lowers fun _ => lowers_passInRegisters

lemma yields_ite {act' : Lower α} [Decidable c] (h : c → Yields act σ Q)
    (h' : ¬ c → Yields act' σ Q) : Yields (if c then act else act') σ Q := by
  split_ifs with hc
  · exact h hc
  · exact h' hc

lemma yields_when [Decidable c] {first : Lower Unit}
    (adds : ∀ Q : Unit → State → Prop, Yields first σ Q ↔ Q () (σ.add code)) : Yields
    (if c then do first; act else act) σ Q ↔ Yields act (σ.add (if c then code else [])) Q := by
  split_ifs
  · rw [yields_bind, adds]
  · rw [State.add_nil]

lemma yields_forM {act : β → Lower Unit} {bs : List β} (keeps : ∀ b ∈ bs, ∀ σ, I σ →
      Yields (act b) σ fun _ => I) (h : I σ) : Yields (bs.forM act) σ fun _ => I := by
  induction bs generalizing σ with
  | nil => exact yields_pure.2 h
  | cons b bs ih =>
    obtain ⟨first, rest⟩ := List.forall_mem_cons.1 keeps
    show Yields (act b >>= fun _ => bs.forM act) σ _
    rw [yields_bind]
    exact (first σ h).mono fun _ σ' h' => ih rest h'

lemma yields_mapM {act : β → Lower α} {bs : List β} {J : α → Prop}
    (keeps : ∀ b ∈ bs, ∀ σ, I σ → Yields (act b) σ fun a σ' => I σ' ∧ J a) (h : I σ) :
    Yields (bs.mapM act) σ fun as σ' => as.length = bs.length ∧ I σ' ∧ ∀ a ∈ as, J a := by
  induction bs generalizing σ with
  | nil => exact yields_pure.2 ⟨rfl, h, nofun⟩
  | cons b bs ih =>
    obtain ⟨first, rest⟩ := List.forall_mem_cons.1 keeps
    simp only [List.mapM_cons, yields_bind, yields_pure]
    exact (first σ h).mono fun _ σ' ⟨h', here⟩ => (ih rest h').mono fun _ σ'' ⟨count, h'', all⟩ =>
      ⟨congrArg Nat.succ count, h'', List.forall_mem_cons.2 ⟨here, all⟩⟩

/-! ### Steps -/

variable {P : Slot → Prop} {R : CallRecord → Prop} {T : BlockId → Prop} {σ₀ σ : State}
  {env : Env} {a : Allocation} {t : Slot} {r : Register} {out live : LiveSet}
  {rest : List (Instr × LiveSet)}

/-- A step of lowering. Only slots in `P` get places, and only calls in `R` are noted. -/
inductive Step (P : Slot → Prop) (R : CallRecord → Prop) (σ : State) : State → Prop where
  | output (output : Array Instr) : Step P R σ { σ with output }
  | bind {t : Slot} {r : Register} (free : σ.allocation.occupant? r = none) (pooled : r ∈ pool) (has : P t) :
      Step P R σ { σ with allocation := σ.allocation.bind t r }
  | spill {t : Slot} (has : P t) : Step P R σ
      { σ with allocation := (σ.allocation.spillSlot t).1.moveToStack t (σ.allocation.spillSlot t).2 }
  | release (r : Register) : Step P R σ { σ with allocation := σ.allocation.release r }
  | save {r : Register} (fresh : σ.saveArea[r]? = none) :
      Step P R σ { σ with
        allocation := { σ.allocation with frame := σ.allocation.frame.allocate.1 }
        saveArea := σ.saveArea.insert r σ.allocation.frame.allocate.2 }
  | note {record : CallRecord} (has : R record) : Step P R σ { σ with calls := σ.calls ++ [record] }

lemma Step.valid (step : Step P R σ σ') (valid : σ.allocation.Valid P) : σ'.allocation.Valid P := by
  cases step with
  | output | note => exact valid
  | bind free pooled has => exact valid.bind free pooled has
  | spill has => exact (valid.spillSlot _).1.moveToStack (valid.spillSlot _).2 has
  | release r => exact (valid.release r).valid valid
  | save => exact ⟨valid.occupant_iff, valid.pooled, valid.noted, valid.stacked, valid.temporary, valid.used⟩

/-- From `σ₀` steps lead to `σ`, where places are consistent. -/
structure Reached (P : Slot → Prop) (R : CallRecord → Prop) (σ₀ σ : State) : Prop where
  valid : σ.allocation.Valid P
  steps : Relation.ReflTransGen (Step P R) σ₀ σ

lemma Reached.refl (valid : σ.allocation.Valid P) : Reached P R σ σ := ⟨valid, .refl⟩

lemma Reached.step (h : Reached P R σ₀ σ) (step : Step P R σ σ') : Reached P R σ₀ σ' :=
  ⟨step.valid h.valid, h.steps.tail step⟩

/-- Steps lead from `σ₀` to `σ`, where all jumps in the output are to blocks in `T`. -/
structure Lands (P : Slot → Prop) (R : CallRecord → Prop) (T : BlockId → Prop) (σ₀ σ : State) :
    Prop extends Reached P R σ₀ σ where
  jumps : ∀ b ∈ jumpsOf σ.output.toList, T b

section

variable (h : Lands P R T σ₀ σ)

include h

lemma Lands.step (step : Step P R σ σ') (same : σ'.output = σ.output) : Lands P R T σ₀ σ' :=
  ⟨h.toReached.step step, same ▸ h.jumps⟩

lemma Lands.add (code : List Instr) (jumps : ∀ b ∈ jumpsOf code, T b) : Lands P R T σ₀ (σ.add code) := by
  refine ⟨h.toReached.step (.output _), ?_⟩
  rw [State.toList_output_add, jumpsOf_append, List.forall_mem_append]
  exact ⟨h.jumps, jumps⟩

lemma Lands.move (destination source : Operand) :
    Lands P R T σ₀ (σ.add (moveCode destination source)) := h.add _ (by simp)

lemma Lands.binary (op : Opcode) (destination source : Operand) :
    Lands P R T σ₀ (σ.add [.binary op destination source]) :=
  h.add _ (by simp [Instr.jumpTarget?])

lemma Lands.releaseAll (l : List (Register × Slot)) :
    Lands P R T σ₀ { σ with allocation := l.foldl (fun a p => a.release p.1) σ.allocation } := by
  induction l generalizing σ with
  | nil => exact h
  | cons p l ih => exact ih (h.step (.release p.1) rfl)

/-! ### Registers -/

lemma read_reaches (operand : Operand) : Yields (read env operand) σ fun _ => Lands P R T σ₀ := by
  unfold read
  split
  · refine yields_ite (fun _ => ?_) fun _ => ?_
    · rw [yields_bind, yields_allocation]
      split
      · exact yields_pure.2 h
      · exact yields_throw _
    · split
      · exact yields_pure.2 h
      · exact yields_throw _
  · exact yields_pure.2 h
  any_goals exact yields_throw _
  all_goals exact yields_pure.2 h

lemma spill_reaches (r : Register) : Yields (spill r) σ fun _ σ' => Lands P R T σ₀ σ' ∧
    σ'.allocation.occupant? r = none := by
  rw [spill, yields_bind, yields_allocation]
  split
  case h_1 free => exact yields_pure.2 ⟨h, free⟩
  case h_2 t occupied =>
    have location := h.valid.occupant_iff.1 occupied
    simp only [yields_bind, yields_emit, yields_setAllocation]
    refine ⟨(h.step (.spill (h.valid.temporary location)) rfl).binary .., ?_⟩
    rw [occupant?_moveToStack, location?_spillSlot, if_pos location]

lemma takeRegister_reaches (excluded : List Register) : Yields (takeRegister env excluded) σ
    fun r σ' => Lands P R T σ₀ σ' ∧ r ∈ pool ∧ σ'.allocation.occupant? r = none := by
  rw [takeRegister, yields_bind, yields_allocation]
  split
  case h_1 r found =>
    obtain ⟨pooled, free, -⟩ := findFree?_some found
    exact yields_pure.2 ⟨h, pooled, free⟩
  · split
    case h_1 r chosen =>
      simp only [yields_bind, yields_pure]
      exact (spill_reaches h r).mono fun _ _ h' => ⟨h'.1, (chooseVictim?_some chosen).1, h'.2⟩
    · exact yields_throw _

lemma inRegister_reaches (has : P t) (excluded : List Register) :
    Yields (inRegister env t excluded) σ fun _ => Lands P R T σ₀ := by
  rw [inRegister, yields_bind, yields_allocation]
  split
  · exact yields_pure.2 h
  · simp only [yields_bind, yields_emit, yields_modifyAllocation, yields_pure]
    refine (takeRegister_reaches h excluded).mono ?_
    rintro r σ' ⟨h', pooled, free⟩
    exact (h'.binary ..).step (.bind free pooled has) rfl
  · exact yields_throw _

lemma evict_reaches (r : Register) (excluded : List Register) (live : LiveSet) :
    Yields (evict r excluded live) σ fun _ => Lands P R T σ₀ := by
  rw [evict, yields_bind, yields_allocation]
  split
  · exact yields_pure.2 h
  case h_2 t occupied =>
    refine yields_ite (fun _ => ?_) fun _ => yields_setAllocation.2 (h.step (.release r) rfl)
    split
    case h_1 q found =>
      obtain ⟨pooled, free, -⟩ := findFree?_some found
      simp only [yields_bind, yields_emit, yields_setAllocation]
      exact (h.binary ..).step (.bind free pooled (h.valid.temporary (h.valid.occupant_iff.1 occupied))) rfl
    · exact (spill_reaches h r).mono fun _ _ => And.left

lemma materialize_reaches (value : Operand) (excluded : List Register) :
    Yields (materialize env value excluded) σ fun _ => Lands P R T σ₀ := by
  unfold materialize
  split
  · simp only [yields_bind, yields_emit, yields_pure]
    exact (takeRegister_reaches h excluded).mono fun _ _ h' => h'.1.binary ..
  · refine yields_ite (fun _ => yields_pure.2 h) fun _ => ?_
    simp only [yields_bind, yields_emit, yields_pure]
    exact (takeRegister_reaches h excluded).mono fun _ _ h' => h'.1.binary ..
  · exact yields_pure.2 h

/-! ### Instructions -/

lemma adoptOrTake_reaches (value : Operand) (live : LiveSet) : Yields (adoptOrTake env value live) σ
    fun r σ' => Lands P R T σ₀ σ' ∧ r ∈ pool ∧ σ'.allocation.occupant? r = none := by
  rw [adoptOrTake, yields_bind, yields_allocation]
  split
  case h_1 r =>
    refine yields_ite (fun adopts => ?_) fun _ => takeRegister_reaches h _
    simp only [yields_bind, yields_setAllocation, yields_pure]
    refine ⟨h.step (.release r) rfl, of_decide_eq_true (Bool.and_eq_true_iff.1 adopts).1, ?_⟩
    exact eq_none_iff_forall_ne_some.2 fun u occupied => ((h.valid.release r).occupant.1 occupied).2 rfl
  · exact takeRegister_reaches h _

lemma lowerMove_reaches (destination source : Operand) (live : LiveSet)
    (slots : ∀ t, destination = .slot t → env.function.isTemporary t = true → P t) :
    Yields (lowerMove env destination source live) σ fun _ => Lands P R T σ₀ := by
  rw [lowerMove, yields_bind]
  refine (read_reaches h source).mono fun value σ1 h1 => ?_
  split
  case h_1 t =>
    refine yields_ite (fun temporary => ?_) fun _ => ?_
    · rw [yields_bind, yields_allocation]
      split
      · exact yields_emitMove.2 (h1.move ..)
      · simp only [yields_bind, yields_modifyAllocation, yields_emitMove]
        exact (adoptOrTake_reaches h1 value live).mono fun r σ2 ⟨h2, pooled, free⟩ =>
          (h2.step (.bind free pooled (slots t rfl temporary)) rfl).move ..
    · rw [yields_bind]
      exact (read_reaches h1 _).mono fun _ σ2 h2 => yields_emitMove.2 (h2.move ..)
  · refine yields_ite (fun _ => yields_emitMove.2 (h1.move ..)) fun _ => ?_
    simp only [yields_bind, yields_allocation, yields_emitMove]
    exact (evict_reaches h1 _ _ live).mono fun _ _ h2 => h2.move ..
  · exact yields_ite (fun _ => yields_throw _) fun _ => yields_emitMove.2 (h1.move ..)

lemma arithmetic_reaches (left : Register) (home : Option Operand) (pinned : List Register) : Yields (do
      let value ← read env source
      let value ← materialize env value (pinned ++ [left])
      emit (.binary op (.reg left) value)
      match home with
      | some home => emitMove home (.reg left)
      | none => pure ()) σ fun _ => Lands P R T σ₀ := by
  simp only [yields_bind, yields_emit]
  refine (read_reaches h source).mono fun _ σ1 h1 => (materialize_reaches h1 _ _).mono fun _ σ2 h2 => ?_
  cases home with
  | some home => exact yields_emitMove.2 ((h2.binary ..).move ..)
  | none => exact yields_pure.2 (h2.binary ..)

lemma lowerArithmetic_reaches (op : Opcode) (destination source : Operand)
    (slots : ∀ t, destination = .slot t → env.function.isTemporary t = true → P t) :
    Yields (lowerArithmetic env op destination source) σ fun _ => Lands P R T σ₀ := by
  have scratched : Yields (do
      let value ← read env destination
      emitMove scratchOperand value
      return (scratch, if op = .cmp then none else some value)) σ fun _ => Lands P R T σ₀ := by
    simp only [yields_bind, yields_emitMove, yields_pure]
    exact (read_reaches h destination).mono fun _ _ h1 => h1.move ..
  rw [lowerArithmetic, yields_bind, yields_allocation]
  cases destination with
  | slot t =>
    refine yields_ite (fun temporary => ?_) fun _ =>
      yields_bind.2 (scratched.mono fun _ _ h => arithmetic_reaches h _ _ _)
    rw [yields_bind]
    refine (inRegister_reaches h (slots t rfl temporary) _).mono fun left σ1 h1 => ?_
    exact arithmetic_reaches h1 left none _
  | _ => exact yields_bind.2 (scratched.mono fun _ _ h => arithmetic_reaches h _ _ _)

lemma lowerNegate_reaches
    (operand : Operand) (slots : ∀ t, operand = .slot t → env.function.isTemporary t = true → P t) :
    Yields (lowerNegate env operand) σ fun _ => Lands P R T σ₀ := by
  have plain : Yields (do emit (.unary .neg (← read env operand))) σ fun _ => Lands P R T σ₀ := by
    simp only [yields_bind, yields_emit]
    exact (read_reaches h operand).mono fun _ _ h1 => h1.add _ (by simp [Instr.jumpTarget?])
  cases operand with
  | slot t =>
    refine yields_ite (fun temporary => ?_) fun _ => plain
    simp only [map_eq_pure_bind, yields_bind, yields_pure, yields_emit]
    exact (inRegister_reaches h (slots t rfl temporary) []).mono fun _ _ h1 =>
      h1.add _ (by simp [Instr.jumpTarget?])
  | _ => exact plain

lemma emptyFixed_reaches (dividend : Option Slot) (pinned : List Register) (live : LiveSet) (r : Register) :
    Yields (emptyFixed dividend pinned live r) σ fun _ => Lands P R T σ₀ := by
  exact yields_ite (fun _ => evict_reaches h r pinned live) fun _ => yields_pure.2 h

/-- The fixed registers of a division are emptied, and one of them is taken. -/
lemma Lands.takeFixed (fixed : r = rax ∨ r = rdx) (has : P t) :
    Lands P R T σ₀ { σ with allocation := ((σ.allocation.release rax).release rdx).bind t r } := by
  have first := h.step (.release rax) rfl
  refine (first.step (.release rdx) rfl).step
    (.bind (eq_none_iff_forall_ne_some.2 fun u occupied => ?_) ?_ has) rfl
  · obtain ⟨occupied, other⟩ := (first.valid.release rdx).occupant.1 occupied
    exact fixed.elim ((h.valid.release rax).occupant.1 occupied).2 other
  · obtain rfl | rfl := fixed <;> decide

lemma lowerDivision_reaches (op : Opcode) (destination source : Operand) (live : LiveSet)
    (slots : ∀ t, destination = .slot t → env.function.isTemporary t = true → P t) :
    Yields (lowerDivision env op destination source live) σ fun _ => Lands P R T σ₀ := by
  rw [lowerDivision, yields_bind]
  refine (read_reaches h source).mono fun value σ1 h1 => ?_
  have has t (dividend : destination.slot?.filter env.function.isTemporary = some t) : P t := by
    cases destination with
    | slot t' =>
      obtain ⟨same, temporary⟩ := filter_eq_some_iff.1 dividend
      exact slots t (congrArg Operand.slot (some.inj same)) temporary
    | _ => cases dividend
  simp only [yields_when fun _ => yields_emitMove]
  generalize destination.slot?.filter env.function.isTemporary = dividend at has ⊢
  rw [yields_bind]
  refine (emptyFixed_reaches (h1.add _ (by simp)) dividend _ live rax).mono fun _ σ2 h2 => ?_
  rw [yields_bind]
  refine (emptyFixed_reaches h2 dividend _ live rdx).mono fun _ σ3 h3 => ?_
  cases dividend with
  | none =>
    simp only [yields_bind, yields_emitMove, yields_emit, State.add_add]
    exact (read_reaches h3 destination).mono fun _ σ4 h4 => (read_reaches
      (h4.add _ (by simp [Instr.jumpTarget?])) destination).mono fun _ _ h5 => h5.move ..
  | some t =>
    rw [yields_bind, yields_allocation]
    split
    · simp only [yields_bind, yields_emitMove, yields_emit, yields_modifyAllocation, State.add_add,
        State.allocation_add]
      have fixed : (if op = .idiv then rax else rdx) = rax ∨ (if op = .idiv then rax else rdx) = rdx := by
        split_ifs <;> simp
      split
      · exact ((h3.step (.release _) rfl).takeFixed fixed (has t rfl)).add _ (by simp [Instr.jumpTarget?])
      · exact (h3.takeFixed fixed (has t rfl)).add _ (by simp [Instr.jumpTarget?])
    · exact yields_bind.2 (yields_throw _)

/-! ### Calls -/

lemma saveSlot_reaches (r : Register) : Yields (saveSlot r) σ fun _ => Lands P R T σ₀ := by
  rw [saveSlot, yields_bind, yields_get]
  split
  · exact yields_pure.2 h
  case h_2 fresh =>
    simp only [yields_bind, yields_set, yields_pure]
    exact h.step (.save fresh) rfl

lemma saveLive_reaches (live : LiveSet) {l : List (Register × Slot)} (slots : ∀ p ∈ l, P p.2) :
    Yields (saveLive live l) σ fun saved σ' => Lands P R T σ₀ σ' ∧ ∀ p ∈ saved, P p.1 := by
  induction l generalizing σ with
  | nil => exact yields_pure.2 ⟨h, by simp⟩
  | cons p l ih =>
    obtain ⟨r, t⟩ := p
    obtain ⟨has, slots⟩ := List.forall_mem_cons.1 slots
    refine yields_ite (fun _ => ?_) fun _ => ih h slots
    simp only [yields_bind, yields_emit, yields_pure]
    refine (saveSlot_reaches h r).mono fun _ σ1 h1 =>
      (ih (h1.binary ..) slots).mono fun saved σ2 ⟨h2, all⟩ => ⟨h2, ?_⟩
    exact List.forall_mem_cons.2 ⟨has, all⟩

lemma restoreSaved_reaches {saved : List (Slot × Register × Int)} (slots : ∀ p ∈ saved, P p.1) :
    Yields (restoreSaved saved) σ fun _ => Lands P R T σ₀ := by
  induction saved generalizing σ with
  | nil => exact yields_pure.2 h
  | cons p saved ih =>
    obtain ⟨t, q, o⟩ := p
    obtain ⟨has, slots⟩ := List.forall_mem_cons.1 slots
    rw [restoreSaved, yields_bind, yields_allocation]
    split
    case h_1 r found =>
      obtain ⟨pooled, free, -⟩ := findFree?_some found
      simp only [yields_bind, yields_emit, yields_setAllocation, yields_pure]
      exact ih ((h.binary ..).step (.bind free pooled has) rfl) slots
    · simp only [yields_bind, yields_emitMove, yields_setAllocation, yields_modifyAllocation, yields_pure]
      exact ih ((h.step (.spill has) rfl).move ..) slots

omit h in
lemma resultTarget?_spec {done : Nat} (target : resultTarget? f rest = some (t, done, live)) :
    f.isTemporary t = true ∧ ∃ before after, rest = before ++
    (.binary .mov (.slot t) .returnSlot, live) :: after ∧ done = before.length + 1 := by
  fun_induction resultTarget? f rest generalizing done with
  | case1 _ _ rest ih =>
    obtain ⟨⟨t', done', live'⟩, found, same⟩ := map_eq_some_iff.1 target
    obtain ⟨rfl, rfl, rfl⟩ : t' = t ∧ done' + 1 = done ∧ live' = live := by simpa using same
    obtain ⟨temporary, before, after, rfl, rfl⟩ := ih found
    exact ⟨temporary, _ :: before, after, rfl, rfl⟩
  | case2 t' _ _ temporary =>
    obtain ⟨rfl, rfl, rfl⟩ : t' = t ∧ 1 = done ∧ _ = live := by simpa using target
    exact ⟨temporary, [], _, rfl, rfl⟩
  | case3 => cases target
  | case4 => cases target

/-- These instructions begin with `n` that are done with a call: none at all, or those up to the
move of its answer. -/
def Answered (rest : List (Instr × LiveSet)) (n : Nat) : Prop :=
  n = 0 ∨ ∃ before t live after, rest = before ++ (.binary .mov (.slot t) .returnSlot, live) ::
  after ∧ n = before.length + 1

/-- What places and notes an instruction may ask for. -/
structure Allows (env : Env) (P : Slot → Prop) (R : CallRecord → Prop) (T : BlockId → Prop)
    (i : Instr) : Prop where
  slots : ∀ t, i.Mentions t → env.function.isTemporary t = true → P t
  calls : ∀ symbol arguments returnType isExternal,
    i = .unary .call (.callee symbol arguments returnType isExternal) → ∀ saved restored, R ⟨symbol,
    saved, restored, stackWords arguments * word⟩
  jumps : ∀ b ∈ i.jumpTarget?, T b

omit h in
lemma Allows.destination
    {destination : Operand} (h : Allows env P R T (.binary op destination source)) (t : Slot)
    (here : destination = .slot t) : env.function.isTemporary t = true → P t :=
  h.slots t ⟨_, List.mem_cons_self, here ▸ .slot⟩

omit h in
lemma Allows.operand {operand : Operand} (h : Allows env P R T (.unary op operand)) (t : Slot)
    (here : operand = .slot t) : env.function.isTemporary t = true → P t :=
  h.slots t ⟨_, List.mem_cons_self, here ▸ .slot⟩

lemma lowerCall_reaches (symbol : String) (arguments : List Operand)
    (returnType : Ty) (isExternal : Bool) (noted : ∀ saved restored, R ⟨symbol, saved, restored,
      stackWords arguments * word⟩) (live : LiveSet) (later : ∀ p ∈ rest, Allows env P R T p.1) :
    Yields (lowerCall env symbol arguments returnType isExternal live rest) σ fun n σ' =>
    Lands P R T σ₀ σ' ∧ Answered rest n := by
  unfold lowerCall
  simp only [yields_bind, yields_allocation]
  have occupied : ∀ p ∈ σ.allocation.occupiedCallerSaved, P p.2 := fun p hp =>
    h.valid.temporary (h.valid.occupant_iff.1 (mem_occupiedCallerSaved.1 hp).2.1)
  refine (saveLive_reaches h live occupied).mono ?_
  rintro saved σ1 ⟨h1, all⟩
  refine (yields_mapM (J := fun _ => True) (fun operand _ σ h =>
    (read_reaches h operand).mono fun _ _ h => ⟨h, trivial⟩) h1).mono ?_
  rintro values σ2 ⟨count, h2, _⟩
  simp only [yields_when fun _ => yields_emit, yields_bind, yields_passInRegisters, yields_emit,
    yields_modifyAllocation, State.add_add, State.allocation_add]
  refine (yields_forM (fun value _ σ h => yields_pushOperand.2 (h.add _ (by simp)))
    (h2.add _ (by simp [Instr.jumpTarget?]))).mono fun _ σ3 h3 => ?_
  have called (code : List Instr) (jumps : ∀ b ∈ jumpsOf code, T b) :=
    (h3.add code jumps).releaseAll σ3.allocation.occupiedCallerSaved
  -- the call is noted in the end
  have ended : ∀ {σ : State}, Lands P R T σ₀ σ → ∀ (live : LiveSet) saved restored, Lands P R T σ₀ { σ with
      allocation := σ.allocation.releaseDead live
      calls := σ.calls ++ [⟨symbol, saved, restored, ((values.drop argumentRegisters.length).length
        + (values.drop argumentRegisters.length).length % 2 : Nat) * word⟩] } := by
    intro σ h live saved restored
    have bytes := noted saved restored
    rw [← length_stackWords count] at bytes
    exact (h.step (.note bytes) rfl).releaseAll _
  have has : ∀ target, (if returnType.hasValue then resultTarget? env.function rest else none) = some target →
      P target.1 ∧ Answered rest target.2.1 := by
    rintro ⟨t, done, after⟩ found
    split_ifs at found
    obtain ⟨temporary, before, after', rfl, count⟩ := resultTarget?_spec found
    exact ⟨(later _ (List.mem_append_right _ List.mem_cons_self)).destination t rfl temporary,
      .inr ⟨before, t, after, after', rfl, count⟩⟩
  generalize (if returnType.hasValue then resultTarget? env.function rest else none) = target at has ⊢
  cases target with
  | none =>
    simp only [yields_bind, yields_modify, yields_modifyAllocation, yields_pure]
    exact (restoreSaved_reaches (called _ (by simp [Instr.jumpTarget?])) all).mono
      fun restored σ4 h4 => ⟨ended h4 live _ restored, .inl rfl⟩
  | some target =>
    simp only [yields_bind, yields_modify, yields_modifyAllocation, yields_pure]
    have free : (σ3.allocation.occupiedCallerSaved.foldl (fun a p =>
      a.release p.1) σ3.allocation).occupant? returnRegister = none := eq_none_iff_forall_ne_some.2
      fun u occupied => (h3.valid.releaseCallerSaved.occupant.1 occupied).2 rfl
    exact (restoreSaved_reaches ((called _ (by simp [Instr.jumpTarget?])).step
      (.bind free (by decide) (has target rfl).1) rfl) all).mono fun restored σ4 h4 =>
      ⟨ended h4 _ _ restored, (has target rfl).2⟩

/-! ### Blocks -/

lemma spillLiveOut_reaches (out : LiveSet) : Yields (spillLiveOut out) σ fun _ => Lands P R T σ₀ := by
  exact yields_forM (fun p _ σ h =>
    yields_ite (fun _ => (spill_reaches h p.1).mono fun _ _ => And.left) fun _ => yields_pure.2 h) h

lemma lowerInstr_reaches (out : LiveSet) (live : LiveSet)
    (allows : Allows env P R T i) (later : ∀ p ∈ rest, Allows env P R T p.1) :
    Yields (lowerInstr env out i live rest) σ fun n σ' => Lands P R T σ₀ σ' ∧ Answered rest n := by
  have released {σ : State} (h : Lands P R T σ₀ σ) : Yields (do
      modifyAllocation (·.releaseDead live)
      return 0) σ fun n σ' => Lands P R T σ₀ σ' ∧ Answered rest n := by
    simp only [yields_bind, yields_modifyAllocation, yields_pure]
    exact ⟨h.releaseAll _, .inl rfl⟩
  have emits {σ : State} (h : Lands P R T σ₀ σ) : Yields (do
      emit i
      modifyAllocation (·.releaseDead live)
      return 0) σ fun n σ' => Lands P R T σ₀ σ' ∧ Answered rest n := by
    exact released (h.add [i] (by simpa using allows.jumps))
  unfold lowerInstr
  split
  · exact lowerCall_reaches h _ _ _ _ (allows.calls _ _ _ _ rfl) live later
  · split
    · exact released h
    · exact yields_bind.2 ((lowerMove_reaches h _ _ live allows.destination).mono fun _ _ => released)
    iterate 4 exact yields_bind.2 ((lowerArithmetic_reaches h _ _ _ allows.destination).mono
      fun _ _ => released)
    iterate 2 exact yields_bind.2 ((lowerDivision_reaches h _ _ _ live allows.destination).mono
      fun _ _ => released)
    · exact yields_bind.2 ((lowerNegate_reaches h _ allows.operand).mono fun _ _ => released)
    iterate 2 exact yields_bind.2 ((spillLiveOut_reaches h out).mono fun _ _ => emits)
    · exact yields_ite (fun _ => yields_bind.2 (yields_throw _)) fun _ => emits h

lemma lowerInstrs_reaches (out : LiveSet)
    (done : Nat) {code : List (Instr × LiveSet)} (allows : ∀ p ∈ code, Allows env P R T p.1) :
    Yields (lowerInstrs env out done code) σ fun _ => Lands P R T σ₀ := by
  induction code generalizing σ done with
  | nil =>
    cases done <;> exact yields_pure.2 h
  | cons p rest ih =>
    obtain ⟨here, later⟩ := List.forall_mem_cons.1 allows
    cases done with
    | succ done => exact ih h done later
    | zero =>
      rw [lowerInstrs, yields_bind]
      exact (lowerInstr_reaches h out p.2 here later).mono fun done σ1 h1 => ih h1.1 done later

lemma enterBlock_reaches {live : LiveSet} (slots : ∀ t ∈ live, env.function.isTemporary t = true → P t) :
    Yields (enterBlock env live) σ fun _ => Lands P R T σ₀ := by
  refine yields_forM (fun t ht σ h => ?_) (h.releaseAll _)
  rw [yields_modifyAllocation]
  obtain ⟨mem, temporary⟩ := List.mem_filter.1 ht
  exact h.step (.spill (slots t (Std.ExtTreeSet.mem_toList.1 mem) temporary)) rfl

lemma lowerBlock_reaches {block : Block} {position : Nat}
    (slots : ∀ t ∈ liveness.liveIn.getD position ∅, env.function.isTemporary t = true → P t)
    (allows : ∀ i ∈ block.instructions, Allows env P R T i) :
    Yields (lowerBlock env liveness block position) σ fun code σ' => Lands P R T σ₀ σ' ∧
    ∀ b ∈ jumpsOf code, T b := by
  have ended : ∀ {σ : State}, Lands P R T σ₀ σ → Lands P R T σ₀ σ.cut ∧ ∀ b ∈ jumpsOf σ.output.toList, T b :=
    fun h => ⟨⟨h.toReached.step (.output _), nofun⟩, h.jumps⟩
  simp only [lowerBlock, yields_bind]
  refine (enterBlock_reaches h slots).mono fun _ σ1 h1 => (lowerInstrs_reaches h1 _ 0 ?_).mono fun _ σ2 h2 => ?_
  · exact fun p hp => allows p.1 (List.of_mem_zip hp).1
  · refine yields_ite (fun _ => ?_) fun _ => yields_modifyGet.2 (ended h2)
    simp only [yields_bind, yields_modifyGet]
    exact (spillLiveOut_reaches h2 _).mono fun _ _ => ended

end

/-! ### Whole functions -/

variable {blocks : List Block} {lir : Lir} {flow : Flow} {codes : List (List Instr)}
  {report : FunctionReport}

lemma jumpsOf_prologue {adjusts : Bool} {homes : Homes} {saved : List (Register × Int)} {size : Int}
    (starts : prologue? homes size adjusts saved = some code) : jumpsOf code = [] := by
  obtain ⟨parameters, -, same⟩ := bind_eq_some_iff.1 starts
  cases same
  rw [jumpsOf_append, jumpsOf_append, jumpsOf_map fun _ => rfl, jumpsOf_map fun _ => rfl]
  cases adjusts <;> rfl

lemma jumpsOf_withEpilogue (adjusts : Bool) (saved : List (Register × Int)) (is : List Instr) :
    jumpsOf (withEpilogue (epilogue adjusts saved) is) = jumpsOf is := by
  have none : jumpsOf (epilogue adjusts saved) = [] := by
    rw [epilogue, jumpsOf_append, jumpsOf_append, jumpsOf_map fun _ => rfl]
    cases adjusts <;> rfl
  rw [withEpilogue, jumpsOf_flatMap]
  refine List.flatMap_congr fun i _ => ?_
  split_ifs <;> simp [none]

/-- The frame and the report are settled when the blocks are lowered, and no more jumps come
then. -/
lemma lowerBlocks_reports : Yields (lowerBlocks env liveness blocks) σ fun result τ => result.2 =
    τ.report env.function ∧ ∃ codes, (blocks.zipIdx.mapM fun p => lowerBlock env liveness p.1 p.2) σ
    = .ok (codes, τ) ∧ ∀ is ∈ result.1, ∃ is' ∈ codes, jumpsOf is = jumpsOf is' := by
  rw [lowerBlocks, yields_bind]
  intro codes τ run
  rw [yields_bind, yields_get]
  cases codes with
  | nil =>
    simp only [yields_bind, yields_pure]
    exact ⟨rfl, _, run, by rintro _ ⟨⟩⟩
  | cons entry others =>
    dsimp only
    split
    case h_1 start starts =>
      simp only [yields_bind, yields_pure]
      refine ⟨rfl, _, run, List.forall_mem_map.2
        (List.forall_mem_cons.2 ⟨⟨entry, List.mem_cons_self, ?_⟩, fun is mem => ?_⟩)⟩
      · rw [jumpsOf_withEpilogue, jumpsOf_append, jumpsOf_prologue starts, List.nil_append]
      · exact ⟨is, List.mem_cons_of_mem _ mem, jumpsOf_withEpilogue ..⟩
    · exact yields_bind.2 (yields_throw _)

lemma lowerFunction_reports (lowered : lowerFunction lir f flow liveness = .ok (codes, report)) :
    ∃ blocks τ codes', flow.blocks.mapM lir.getBlock = .ok blocks ∧ lowerBlocks
    (.of f) liveness blocks (.start f) = .ok ((codes, report), τ) ∧ report = τ.report f ∧
    (blocks.zipIdx.mapM fun p => lowerBlock (.of f) liveness p.1 p.2) (.start f) = .ok (codes', τ) ∧
    ∀ is ∈ codes, ∃ is' ∈ codes', jumpsOf is = jumpsOf is' := by
  obtain ⟨blocks, found, lowered⟩ := ok_of_bind.1 lowered
  obtain ⟨⟨result, τ⟩, run, same⟩ := ok_of_bind.1 lowered
  obtain rfl : result = (codes, report) := Except.ok.inj same
  obtain ⟨reports, codes', run', jumps⟩ := lowerBlocks_reports _ τ run
  exact ⟨blocks, τ, codes', found, run, reports, run', jumps⟩

lemma functionCode_eq_ok {g : Nat} {blocks : List BlockId} (found : lir.functions[g]? = some f)
    (coded : functionCode lir g = .ok (blocks, codes, report)) :
    ∃ flow liveness, Flow.of lir f = .ok flow ∧ Liveness.of lir f flow = .ok liveness ∧
    lowerFunction lir f flow liveness = .ok (codes, report) ∧ flow.blocks = blocks := by
  rw [functionCode, getFunction, found] at coded
  obtain ⟨_, ⟨⟩, coded⟩ := ok_of_bind.1 coded
  obtain ⟨flow, flows, coded⟩ := ok_of_bind.1 coded
  obtain ⟨liveness, lives, coded⟩ := ok_of_bind.1 coded
  obtain ⟨⟨_, _⟩, lowered, coded⟩ := ok_of_bind.1 coded
  obtain ⟨blocks, ⟨⟩⟩ := Prod.mk.inj (Except.ok.inj coded)
  exact ⟨flow, liveness, flows, lives, lowered, blocks⟩

end Lowering

end EmLang.Native
