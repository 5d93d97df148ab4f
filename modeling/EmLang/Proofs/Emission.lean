import EmLang.Proofs.MachineRuns
import EmLang.Proofs.Placement

/-!
What lowering keeps true while it works: every word of the frame belongs to one variable, one
temporary or one saved register, and in a run of the code so far the values of slots are where the
allocation says. The values of slots come from the meaning of the code that is lowered.
-/

namespace EmLang.Native

open Lir Register

variable {s' : Cpu} {i : Instr} {W : Int → Prop} {T T' : Register → Prop} {slots' : Slot → Option Word}

def Location.value (s : Cpu) : Location → Word
  | .register r => s.reg r
  | .stack o => s.word o

namespace Lowering

variable {o : Int} {σ σ' σ'' : State} {α β : Type} {Q R : α → State → Prop}

/-! ### Actions -/

def State.add (σ : State) (code : List Instr) : State := { σ with output := σ.output ++ code.toArray }

section

variable (σ : State) (code code' : List Instr)

@[simp] lemma State.allocation_add : (σ.add code).allocation = σ.allocation := rfl

@[simp] lemma State.toList_output_add : (σ.add code).output.toList = σ.output.toList ++ code := by
  simp [State.add]

@[simp] lemma State.add_nil : σ.add [] = σ := by
  simp [State.add]

@[simp] lemma State.add_add : (σ.add code).add code' = σ.add (code ++ code') := by
  simp [State.add]

end

/-- The action succeeds, and `Q` holds of its value and the state after it. -/
def Lowers {α : Type} (act : Lower α) (σ : State) (Q : α → State → Prop) : Prop :=
  ∃ a σ', act σ = .ok (a, σ') ∧ Q a σ'

lemma Lowers.mono {act : Lower α} (h : Lowers act σ Q) (imp : ∀ a σ', Q a σ' → R a σ') : Lowers act σ R := by
  obtain ⟨a, σ', run, post⟩ := h
  exact ⟨a, σ', run, imp a σ' post⟩

lemma lowers_pure {a : α} : Lowers (pure a) σ Q ↔ Q a σ := by
  constructor
  · rintro ⟨b, σ', ⟨⟩, post⟩
    exact post
  · exact fun post => ⟨a, σ, rfl, post⟩

lemma lowers_bind {act : Lower β} {f : β → Lower α} :
    Lowers (act >>= f) σ Q ↔ Lowers act σ fun b σ' => Lowers (f b) σ' Q := by
  constructor
  · rintro ⟨a, σ'', run, post⟩
    have run' : (act σ >>= fun p => f p.1 p.2) = .ok (a, σ'') := run
    cases first : act σ with
    | error e =>
      rw [first] at run'
      cases run'
    | ok p =>
      rw [first] at run'
      exact ⟨p.1, p.2, first, a, σ'', run', post⟩
  · rintro ⟨b, σ', run, a, σ'', run', post⟩
    refine ⟨a, σ'', ?_, post⟩
    show (act σ >>= fun p => f p.1 p.2) = .ok (a, σ'')
    rw [run]
    exact run'

lemma lowers_get {Q : State → State → Prop} : Lowers get σ Q ↔ Q σ σ := lowers_pure

lemma lowers_modify {f : State → State} {Q : Unit → State → Prop} : Lowers (modify f) σ Q ↔ Q () (f σ) := by
  constructor
  · rintro ⟨a, σ', ⟨⟩, post⟩
    exact post
  · exact fun post => ⟨(), f σ, rfl, post⟩

lemma lowers_set {Q : PUnit → State → Prop} : Lowers (set σ') σ Q ↔ Q () σ' := by
  constructor
  · rintro ⟨a, σ', ⟨⟩, post⟩
    exact post
  · exact fun post => ⟨(), σ', rfl, post⟩

lemma lowers_emit {Q : Unit → State → Prop} : Lowers (emit i) σ Q ↔ Q () (σ.add [i]) := by
  exact lowers_modify

lemma lowers_allocation {Q : Allocation → State → Prop} : Lowers allocation σ Q ↔ Q σ.allocation σ := by
  simp only [allocation, lowers_bind, lowers_get, lowers_pure]

lemma lowers_setAllocation {a : Allocation} {Q : Unit → State → Prop} :
    Lowers (setAllocation a) σ Q ↔ Q () { σ with allocation := a } := lowers_modify

lemma lowers_modifyAllocation {f : Allocation → Allocation} {Q : Unit → State → Prop} :
    Lowers (modifyAllocation f) σ Q ↔ Q () { σ with allocation := f σ.allocation } := lowers_modify

lemma lowers_when {code : List Instr}
    {first : Lower Unit} {α : Type} {Q : α → State → Prop} {c : Prop} [Decidable c] {act : Lower α}
    (adds : ∀ Q : Unit → State → Prop, Lowers first σ Q ↔ Q () (σ.add code)) : Lowers
    (if c then do first; act else act) σ Q ↔ Lowers act (σ.add (if c then code else [])) Q := by
  split_ifs
  · rw [lowers_bind, adds]
  · rw [State.add_nil]

/-! ### Words of the frame -/

/-- What a word of the frame is for. -/
inductive Owner where
  | home (x : Slot)
  | spill (t : Slot)
  | save (r : Register)

/-- The end of the stack arguments, from the frame pointer. -/
def Env.top (env : Env) : Int := stackArgumentOffset env.function.parameterCount

/-- Where the word is that belongs to someone. -/
def State.word? (env : Env) (σ : State) : Owner → Option Int
  | .home x => env.homes.offsets[x]?
  | .spill t => σ.allocation.spillSlots[t]?
  | .save r => σ.saveArea[r]?

variable (env : Env)

/-- A word that belongs to someone. -/
def Owned (σ : State) (o : Int) : Prop := ∃ w, σ.word? env w = some o

/-- The allocation is consistent, and no two own the same word. The words are between the end of the
frame and that of the stack arguments; the frame pointer and the return address belong to nobody. -/
structure Valid (σ : State) : Prop where
  allocation : σ.allocation.Valid fun t => env.function.isTemporary t = true
  homed : env.homes.offsets.length = env.function.declaredCount
  inside : ∀ {o}, Owned env σ o → 8 ∣ o ∧ -σ.allocation.frame.size ≤ o ∧ o + 8 ≤ env.top ∧ (o < 0 ∨ 16 ≤ o)
  apart : ∀ {w w' o}, σ.word? env w = some o → σ.word? env w' = some o → w = w'
  whole : 8 ∣ σ.allocation.frame.size ∧ 0 ≤ σ.allocation.frame.size

/-- The frame may have become larger, and more may be in use. -/
structure Grows (σ σ' : State) : Prop where
  size : σ.allocation.frame.size ≤ σ'.allocation.frame.size
  words : ∀ {w o}, σ.word? env w = some o → σ'.word? env w = some o
  used : ∀ {r}, r ∈ σ.allocation.usedCalleeSaved → r ∈ σ'.allocation.usedCalleeSaved
  calls : σ.calls <+: σ'.calls

/-- All words of the frame are in reach of instructions. -/
def Room (σ : State) : Prop := σ.allocation.frame.size ≤ 2147483647 ∧ env.top ≤ 2147483647

variable {env}

lemma Grows.refl (σ : State) : Grows env σ σ := ⟨le_rfl, id, id, List.prefix_rfl⟩

lemma Grows.trans (h : Grows env σ σ') (h' : Grows env σ' σ'') : Grows env σ σ'' :=
  ⟨h.size.trans h'.size, fun hw => h'.words (h.words hw), fun hr => h'.used (h.used hr), h.calls.trans h'.calls⟩

lemma Grows.owned (h : Grows env σ σ') (owned : Owned env σ o) : Owned env σ' o :=
  owned.imp fun _ => h.words

lemma Grows.room (h : Grows env σ σ') (room : Room env σ') : Room env σ := ⟨h.size.trans room.1, room.2⟩

variable {t : Slot} {slots : Slot → Option Word} {s : Cpu}

lemma Valid.near (valid : Valid env σ) (room : Room env σ) (owned : Owned env σ o) : Near o := by
  obtain ⟨multiple, low, high, -⟩ := valid.inside owned
  obtain ⟨small, top⟩ := room
  unfold Near
  omega

/-! ### Values of slots -/

variable (env) in
/-- The values of slots are where the allocation says. -/
structure Placed (σ : State) (slots : Slot → Option Word) (s : Cpu) : Prop where
  homes : ∀ {x o v}, env.homes.offsets[x]? = some o → slots x = some v → s.word o = v
  located : ∀ {t place v}, σ.allocation.location? t = some place → slots t = some v → place.value s = v

lemma Valid.owned_stack (valid : Valid env σ) (h : σ.allocation.location? t = some (.stack o)) :
    σ.word? env (.spill t) = some o :=
  valid.allocation.stacked h

lemma Valid.home?_of_temporary (valid : Valid env σ) (h : env.function.isTemporary t = true) :
    env.homes.offsets[t]? = none := by
  rw [List.getElem?_eq_none_iff, valid.homed]
  exact of_decide_eq_true h

section

variable (placed : Placed env σ slots s) (valid : Valid env σ) (room : Room env σ) (keeps : Keeps T W s s')

include placed valid room keeps

/-- Values stay in their places when one slot changes its own or its value, as long as nothing else
is overwritten. -/
lemma Placed.change (registers : ∀ u r, u ≠ t → σ'.allocation.location? u = some (.register r) →
      ¬ T r) (words : ∀ w o, w ≠ .home t → w ≠ .spill t → σ.word? env w = some o → ¬ W o)
    (others : ∀ u place, u ≠ t → σ'.allocation.location? u = some place → σ.allocation.location? u =
      some place) (same : ∀ u, u ≠ t → slots' u = slots u) (home : ∀ o v, env.homes.offsets[t]? =
      some o → slots' t = some v → s'.word o = v) (here : ∀ place v, σ'.allocation.location? t =
      some place → slots' t = some v → place.value s' = v) : Placed env σ' slots' s' where
  homes {x o v} owned value := by
    by_cases hx : x = t
    · exact home o v (hx ▸ owned) (hx ▸ value)
    · have owned' : σ.word? env (.home x) = some o := owned
      have kept := keeps.word o (valid.near room ⟨_, owned'⟩).spaced
        (words (.home x) o (fun h => hx (by injection h)) nofun owned')
      exact kept.trans (placed.homes owned (same x hx ▸ value))
  located {u place v} location value := by
    by_cases hu : u = t
    · exact here place v (hu ▸ location) (hu ▸ value)
    · have before := others u place hu location
      have value' := placed.located before (same u hu ▸ value)
      cases place with
      | register r => exact (keeps.reg r (registers u r hu location)).trans value'
      | stack o =>
        have owned := valid.owned_stack before
        have kept := keeps.word o (valid.near room ⟨_, owned⟩).spaced
          (words (.spill u) o nofun (fun h => hu (by injection h)) owned)
        exact kept.trans value'

lemma Placed.keep (registers : ∀ u r, σ.allocation.location? u = some (.register r) → ¬ T r)
    (words : ∀ w o, (∀ r, w ≠ .save r) → σ.word? env w = some o → ¬ W o) :
    Placed env σ slots s' where
  homes {x o v} owned value := by
    have owned' : σ.word? env (.home x) = some o := owned
    exact (keeps.word o (valid.near room ⟨_, owned'⟩).spaced (words (.home x) o nofun owned')).trans
      (placed.homes owned value)
  located {u place v} location value := by
    have before := placed.located location value
    cases place with
    | register r => exact (keeps.reg r (registers u r location)).trans before
    | stack o =>
      have owned := valid.owned_stack location
      exact (keeps.word o (valid.near room ⟨_, owned⟩).spaced (words (.spill u) o nofun owned)).trans before

end

lemma Placed.less (placed : Placed env σ slots' s)
    (less : ∀ x v, slots x = some v → slots' x = some v) : Placed env σ slots s :=
  ⟨fun home value => placed.homes home (less _ _ value), fun location value =>
  placed.located location (less _ _ value)⟩

lemma Placed.forget (placed : Placed env σ slots s) (others : ∀ u place, σ'.allocation.location? u =
      some place → σ.allocation.location? u = some place) : Placed env σ' slots s :=
  ⟨placed.homes, fun location => placed.located (others _ _ location)⟩

/-! ### Code that is added -/

/-- The register that an instruction names as its destination. -/
def destination? : Instr → Option Register
  | .binary op (.reg r) _ => if op = .cmp then none else some r
  | .unary .neg (.reg r) | .unary .pop (.reg r) => some r
  | _ => none

/-- A number goes to a register because it is too wide for another instruction. -/
def IsWide (i : Instr) : Prop := ∃ r w, i = .binary .mov (.reg r) (.imm w) ∧ fits32 w.toInt = false

/-- The numbers of bytes by which calls move the stack pointer. -/
def State.Shifts (σ : State) (bytes : Int) : Prop := bytes = word ∨ ∃ call ∈ σ.calls, call.stackBytes = bytes

/-- Whether an instruction is no jump, no return and no division. -/
def isPlain : Opcode → Bool
  | .jmp | .jcc _ | .ret | .idiv | .irem => false
  | _ => true

/-- A word of memory is in reach from the frame pointer, above the end of the frame so far. -/
def Within (σ : State) : Operand → Prop
  | .mem base o => base = rbp ∧ -σ.allocation.frame.size ≤ o
  | _ => True

lemma Within.grow {operand : Operand} (h : Within σ operand) (grows : Grows env σ σ') : Within σ' operand := by
  cases operand with
  | mem base o => exact ⟨h.1, (Int.neg_le_neg grows.size).trans h.2⟩
  | _ => trivial

lemma Valid.within (valid : Valid env σ) (owned : Owned env σ o) : Within σ (frameWord o) :=
  ⟨rfl, (valid.inside owned).2.1⟩

/-- An instruction inside of a function. It writes a register that has to be given back only if that
is noted, wide numbers apart. -/
structure Proper (σ : State) (i : Instr) : Prop where
  plain : isPlain i.opcode = true
  encodable : Encodable σ.Shifts i
  within : ∀ operand ∈ i.operands, Within σ operand
  noted : ∀ r, destination? i = some r → isCalleeSaved r = true → r ∈ σ.allocation.usedCalleeSaved ∨ IsWide i

lemma Proper.mono (h : Proper σ i) (grows : Grows env σ σ') : Proper σ' i := by
  refine ⟨h.plain, h.encodable.mono fun bytes => ?_, fun operand mem => (h.within operand mem).grow grows,
    fun r hr saved => (h.noted r hr saved).imp_left grows.used⟩
  exact Or.imp_right fun ⟨call, made, same⟩ => ⟨call, grows.calls.subset made, same⟩

section

variable (plain : isPlain i.opcode = true) (encodable : Encodable σ.Shifts i)
  (within : ∀ operand ∈ i.operands, Within σ operand)

include plain encodable within

/-- Nothing has to be noted for an instruction without a destination. -/
lemma Proper.of_none (none : destination? i = none) : Proper σ i :=
  ⟨plain, encodable, within, fun _ h => nomatch none.symm.trans h⟩

/-- A register that is not given back may be written. -/
lemma Proper.of_caller (caller : ∀ r, destination? i = some r → isCalleeSaved r = false) : Proper σ i :=
  ⟨plain, encodable, within, fun r h saved => nomatch (caller r h).symm.trans saved⟩

end

/-- A register that is free to be used. -/
def Working (r : Register) : Prop := r ≠ rbp ∧ r ≠ rsp

lemma working_of_mem_pool {r : Register} (h : r ∈ pool) : Working r :=
  ⟨(ne_of_mem_pool h).1, (ne_of_mem_pool h).2.1⟩

lemma working_scratch : Working scratch := by
  constructor <;> decide

/-- Whether an instruction moves the stack pointer without naming it. -/
def usesStack : Opcode → Bool
  | .push | .pop | .call => true
  | _ => false

/-- An instruction that leaves the stack and the frame pointer where they are. -/
structure Still (i : Instr) : Prop where
  opcode : usesStack i.opcode = false
  working : ∀ r, destination? i = some r → Working r

/-- A proper instruction that leaves the stack alone. -/
structure Quiet (σ : State) (i : Instr) : Prop extends Proper σ i where
  still : Still i

lemma Quiet.mono (h : Quiet σ i) (grows : Grows env σ σ') : Quiet σ' i := ⟨h.toProper.mono grows, h.still⟩

lemma quiet_store (r : Register) (within : Within σ (frameWord o)) :
    Quiet σ (.binary .mov (frameWord o) (.reg r)) := by
  refine ⟨.of_none rfl (.store rfl rfl) ?_ rfl, rfl, nofun⟩
  exact List.forall_mem_cons.2 ⟨within, List.forall_mem_singleton.2 trivial⟩

variable (env) in
/-- From `σ` to `σ'` code is added, and all runs pass it. What it does is said by `Q`. -/
structure Emits (σ σ' : State) (Q : Setting → Cpu → Cpu → Prop) : Prop where
  valid : Valid env σ'
  grows : Grows env σ σ'
  code : ∃ code, σ'.output.toList = σ.output.toList ++ code ∧ (∀ i ∈ code, Quiet σ' i) ∧
    (Room env σ' → ∀ M s, ∃ s', Passes M code s s' ∧ Q M s s')

namespace Emits

variable {Q Q' R : Setting → Cpu → Cpu → Prop}

lemma refl (valid : Valid env σ) : Emits env σ σ fun _ s s' => s' = s :=
  ⟨valid, .refl σ, [], by simp, by simp, fun _ M s => ⟨s, .nil M s, rfl⟩⟩

lemma trans (h : Emits env σ σ' Q) (h' : Emits env σ' σ'' Q') (imp : Room env σ'' →
      ∀ M s s' s'', Q M s s' → Q' M s' s'' → R M s s'') : Emits env σ σ'' R := by
  obtain ⟨-, grows, code, added, quiet, run⟩ := h
  obtain ⟨valid', grows', code', added', quiet', run'⟩ := h'
  refine ⟨valid', grows.trans grows', code ++ code', ?_, fun i hi => ?_, fun room M s => ?_⟩
  · rw [added', added, List.append_assoc]
  · obtain hi | hi := List.mem_append.1 hi
    · exact (quiet i hi).mono grows'
    · exact quiet' i hi
  · obtain ⟨s', passes, post⟩ := run (grows'.room room) M s
    obtain ⟨s'', passes', post'⟩ := run' room M s'
    exact ⟨s'', passes.append passes', imp room M s s' s'' post post'⟩

lemma mono (h : Emits env σ σ' Q) (imp : Room env σ' → ∀ M s s', Q M s s' → R M s s') : Emits env σ σ' R := by
  obtain ⟨valid, grows, code, added, quiet, run⟩ := h
  refine ⟨valid, grows, code, added, quiet, fun room M s => ?_⟩
  obtain ⟨s', passes, post⟩ := run room M s
  exact ⟨s', passes, imp room M s s' post⟩

end Emits

variable (env) in
/-- Values are moved about, and only some registers change, and words that belong to someone. -/
structure Moves (T : Register → Prop) (σ σ' : State) (s s' : Cpu) : Prop where
  keeps : Keeps T (Owned env σ') s s'
  placed : ∀ {slots}, Placed env σ slots s → Placed env σ' slots s'

lemma Moves.mono (h : Moves env T σ σ' s s') (imp : ∀ r, T r → T' r) : Moves env T' σ σ' s s' :=
  ⟨h.keeps.mono imp fun _ => id, h.placed⟩

lemma Moves.trans {s'' : Cpu} (h : Moves env T σ σ' s s') (h' : Moves env T' σ' σ'' s' s'')
    (grows : Grows env σ' σ'') : Moves env (fun r => T r ∨ T' r) σ σ'' s s'' :=
  ⟨(h.keeps.mono (fun _ => .inl) fun _ => grows.owned).trans (h'.keeps.mono (fun _ => .inr) fun _ =>
  id), fun placed => h'.placed (h.placed placed)⟩

end Lowering

end EmLang.Native
