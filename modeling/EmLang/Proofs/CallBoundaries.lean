import EmLang.Proofs.FunctionRuns
import EmLang.Proofs.Moments

/-!
What calls do at every moment of lowering. The arguments come to their places whatever places they
are in, and temporaries that a call might change are saved before it and restored behind it.
-/

namespace EmLang.Lir

/-- In straight code every call is in a function that is no leaf, and a value that it has is taken
over at once. -/
lemma Straight.calls {arguments : List Operand} {behind code : List Instr} {exit : BlockId}
    {f : Function} {hi lo : Slot} {isExternal valued : Bool} {returnType : Ty} {site : Site}
    {symbol : String} {D : Slot → Prop} (h : Straight site f exit valued D lo code hi) :
    ∀ front, code = front ++ .unary .call (.callee symbol arguments returnType isExternal) ::
    behind → f.isLeaf = false ∧ (∀ a ∈ arguments, a.Readable fun _ => True) ∧
    (returnType.hasValue = false ∨ returnType.hasValue = true ∧ ∃ t after, f.isTemporary t = true ∧
      behind = copyTo t .returnSlot ++ after) := by
  let call : Instr := .unary .call (.callee symbol arguments returnType isExternal)
  have skip : ∀ {i : Instr} {rest : List Instr} {G : Prop}, i.opcode ≠ .call → (∀ front,
      rest = front ++ call :: behind → G) → ∀ front, i :: rest = front ++ call :: behind → G := by
    intro i rest G other later front same
    cases front with
    | nil => exact absurd (congrArg Instr.opcode (List.cons.inj same).1) other
    | cons _ front => exact later front (List.cons.inj same).2
  have copied : ∀ {t : Slot} {source : Operand} {rest : List Instr} {G : Prop}, (∀ front, rest =
    front ++ call :: behind → G) → ∀ front, copyTo t source ++ rest = front ++ call :: behind → G :=
    fun later => skip (by simp [Instr.opcode]) (skip (by simp [Instr.opcode]) later)
  have none : ∀ {G : Prop} front, [] = front ++ call :: behind → G :=
    fun front same => by simp at same
  induction h with
  | bind _ _ _ ih => exact copied ih
  | assign _ _ _ ih | negate _ _ _ ih => exact skip (by simp [Instr.opcode]) ih
  | operate known _ _ _ _ _ ih =>
    refine skip (fun h => ?_) ih
    obtain rfl : _ = Opcode.call := h
    cases known
  | answered calling _ value temporary sound _ ih =>
    rintro (_ | ⟨_, front⟩) same
    · obtain ⟨⟨⟩, rfl⟩ := List.cons.inj same
      exact ⟨calling, fun a ha => ((sound a ha).mono fun _ _ => trivial).readable,
        .inr ⟨value, _, _, temporary, rfl⟩⟩
    · exact copied ih front (List.cons.inj same).2
  | called calling _ novalue sound _ ih =>
    rintro (_ | ⟨_, front⟩) same
    · obtain ⟨⟨⟩, rfl⟩ := List.cons.inj same
      exact ⟨calling, fun a ha => ((sound a ha).mono fun _ _ => trivial).readable, .inl novalue⟩
    · exact ih front (List.cons.inj same).2
  | ret _ => exact skip (by simp [Instr.opcode]) (skip (by simp [Instr.opcode]) none)
  | leave _ => exact skip (by simp [Instr.opcode]) none

end EmLang.Lir

namespace EmLang.Native

open Lir List Register

namespace Lowering

variable {σ σ' : State} {env : Env} {out live : LiveSet}
  {rest before : List (Instr × LiveSet)} {t u : Slot}

/-! ### Arguments -/

variable {f : Lir.Function} {symbol : String} {arguments : List Operand} {returnType : Ty}
  {isExternal : Bool} {n : Nat} {F : Int}

lemma Lowers.yields {α : Type} {act : Lower α} {Q : α → State → Prop} (h : Lowers act σ Q) :
    Yields act σ Q := by
  obtain ⟨a, σ', run, post⟩ := h
  intro b τ run'
  obtain ⟨rfl, rfl⟩ := Prod.mk.inj (Except.ok.inj (run.symm.trans run'))
  exact post

/-- Where arguments can be read, they are somewhere. -/
lemma readAll_yields : Yields (arguments.mapM (read env)) σ fun _ _ => ∀ a ∈ arguments, Somewhere env σ a := by
  have one a : Yields (read env a) σ fun _ σ' => σ' = σ ∧ Somewhere env σ a := by
    cases a with
    | slot t =>
      refine yields_ite (fun temporary => ?_) fun declared => ?_
      · rw [yields_bind, yields_allocation]
        split
        case h_1 place here =>
          refine yields_pure.2 ⟨rfl, ?_⟩
          rintro _ ⟨⟩ - none
          cases here.symm.trans none
        · exact yields_throw _
      · split
        · exact yields_pure.2 ⟨rfl, fun t' same temporary =>
            absurd (Operand.slot.inj same ▸ temporary) declared⟩
        · exact yields_throw _
    | callee | flag | block => exact yields_throw _
    | _ => exact yields_pure.2 ⟨rfl, nofun⟩
  induction arguments with
  | nil => exact yields_pure.2 (forall_mem_nil _)
  | cons a arguments ih =>
    simp only [mapM_cons, yields_bind, yields_pure]
    refine (one a).mono ?_
    rintro value σ ⟨rfl, somewhere⟩
    exact ih.mono fun _ _ all => forall_mem_cons.2 ⟨somewhere, all⟩

section

variable (valid : Valid env σ) (readable : ∀ a ∈ arguments, a.Readable fun _ => True)

include valid readable

lemma exists_words (somewhere : ∀ a ∈ arguments, Somewhere env σ a)
    (strings : Nat → Word) (s : Cpu) :
    ∃ ws, Forall₂ (fun a w => wordOf? strings (σ.values env s) a = some w) arguments ws := by
  induction arguments with
  | nil => exact ⟨[], .nil⟩
  | cons a arguments ih =>
    rw [forall_mem_cons] at readable somewhere
    obtain ⟨ws, all⟩ := ih readable.2 somewhere.2
    obtain ⟨w, hw⟩ := exists_word valid readable.1 somewhere.1 strings s
    exact ⟨w :: ws, .cons hw all⟩

lemma lowerCall_calls (lowered : lowerCall env symbol arguments returnType isExternal live rest σ =
      .ok (n, σ')) : (∀ a ∈ arguments, Somewhere env σ a)
    ∧ let target := if returnType.hasValue then resultTarget? env.function rest else none
    n = target.elim 0 (·.2.1) ∧ ∃ parts, Calls env symbol arguments returnType isExternal
    live (target.elim live (·.2.2)) (target.map Prod.fst) parts σ σ' := by
  have somewhere : ∀ a ∈ arguments, Somewhere env σ a := by
    obtain ⟨_, _, run, lowered⟩ := bind_eq_ok.1 lowered
    obtain ⟨rfl, rfl⟩ := Prod.mk.inj (Except.ok.inj run)
    obtain ⟨saved, σ1, run, lowered⟩ := bind_eq_ok.1 lowered
    have readied := (readied_lowers valid live).yields saved σ1 run
    obtain ⟨values, σ2, run, -⟩ := bind_eq_ok.1 lowered
    intro a ha t ht temporary
    have location : σ1.allocation.location? t = σ.allocation.location? t := congrArg (·[t]?) readied.locations
    exact location ▸ readAll_yields values σ2 run a ha t ht temporary
  refine ⟨somewhere, (lowerCall_lowers valid readable somewhere rfl fun p target => ?_).yields n σ' lowered⟩
  split_ifs at target
  exact (resultTarget?_spec target).1

end

/-- In a function that is no leaf the stack pointer is at the end of the frame. -/
lemma deep_of_adjusted {s : Cpu} (calling : f.isLeaf = false) (positive : 0 ≤ F)
    (deep : Deep (if needsStackAdjustment f.isLeaf F then F else 0) s) : Deep F s := by
  rw [calling] at deep
  obtain zero | large := positive.eq_or_lt
  · subst zero
    exact deep
  · have adjusts : needsStackAdjustment false F = true := by simp [needsStackAdjustment, large]
    rwa [adjusts, if_pos rfl] at deep

/-- **Arguments come to their places.** Whatever state lowering has come to, before the call the
first arguments are in the registers of the convention and the others on the stack in their order,
with the values that they had where they were. No word of the frame changes but those that
temporaries are saved in. -/
theorem lowerCall_passes
    (reached : Reached (fun t => f.isTemporary t = true) (fun _ => True) (.start f) σ)
    (calling : f.isLeaf = false) (readable : ∀ a ∈ arguments, a.Readable fun _ => True)
    (lowered : lowerCall (.of f) symbol arguments returnType isExternal live rest σ = .ok (n, σ'))
    (reach : Reach (.of f) F σ') : ∃ parts : CallParts, σ'.output.toList =
    σ.output.toList ++ parts.code symbol returnType isExternal ∧ (∀ t r o, (t, r, o) ∈ parts.saved →
      σ'.saveArea[r]? = some o) ∧ ∀ M s, Deep (if needsStackAdjustment f.isLeaf F then F else 0) s →
    ∃ ws s₁, Forall₂ (fun a w => wordOf? M.strings (σ.values (.of f) s) a = some w) arguments ws ∧
    Passes M parts.front s s₁ ∧ Passed ws 0 s₁ ∧ ∀ o, 8 ∣ o → -F ≤ o → o < (Env.of f).top →
    (∀ t r, (t, r, o) ∉ parts.saved) → s₁.word o = s.word o := by
  obtain ⟨valid, -⟩ := (start_valid f).after reached
  obtain ⟨somewhere, -, parts, calls⟩ := lowerCall_calls valid readable lowered
  refine ⟨parts, calls.added, fun t r o h => calls.saves.word h, fun M s deep => ?_⟩
  have deep' := deep_of_adjusted calling (calls.valid.whole.2.trans reach.size) deep
  obtain ⟨ws, words⟩ := exists_words valid readable somewhere M.strings s
  obtain ⟨s₁, passes, passed, keeps, -⟩ := calls.runs F reach M s _ ws deep' (placed_values valid s) words
  refine ⟨ws, s₁, words, passes, passed, fun o whole low high other => keeps.word o ?_ ?_⟩
  · have small := reach.small
    have top := reach.top
    exact ⟨whole, by omega, by omega⟩
  · rintro (below | ⟨t, r, h⟩)
    · omega
    · exact other t r h

/-- A function with two parameters and three temporaries that makes calls. -/
def caller : Lir.Function := ⟨"caller", .int, [], 2, 2, 5, false⟩

/-- More arguments than there are registers for, the first two of them in the registers of one
another. -/
def manyArguments : List Operand :=
  [.slot 2, .slot 3, .imm 7, .str 0, .slot 0, .slot 4, .imm (2 ^ 40), .slot 2]

/-- Where the temporaries are in registers of arguments. -/
def busy : State :=
  { State.start caller with allocation := (((State.start caller).allocation.bind 2 rsi).bind 3 rdi).bind 4 rdx }

lemma busy_reached : Reached (fun t => caller.isTemporary t = true) (fun _ => True) (.start caller) busy := by
  have start : Reached (fun t => caller.isTemporary t = true) (fun _ => True) (.start caller) (.start caller) :=
    .refl (new_valid _)
  have one := start.step (.bind (t := 2) (r := rsi) (by decide +kernel) (by decide) rfl)
  have two := one.step (.bind (t := 3) (r := rdi) (by decide +kernel) (by decide) rfl)
  exact two.step (.bind (t := 4) (r := rdx) (by decide +kernel) (by decide) rfl)

theorem lowerCall_passes_manyArguments :
    ∃ n σ', lowerCall (.of caller) "mix" manyArguments .int false {3, 4} [] busy = .ok (n, σ') ∧
    σ'.calls.map CallRecord.saved = [[(3, rdi), (4, rdx)]] ∧ ∃ parts : CallParts,
    σ'.output.toList = parts.code "mix" .int false ∧ ∀ M s, Deep 32 s → ∃ ws s₁, Forall₂
    (fun a w => wordOf? M.strings (busy.values (.of caller) s) a = some w) manyArguments ws ∧
    Passes M parts.front s s₁ ∧ Passed ws 0 s₁ ∧ s₁.reg rdi = s.reg rsi ∧ s₁.reg rsi = s.reg rdi ∧
    s₁.word (-8) = s.word (-8) := by
  have checks : (lowerCall (.of caller) "mix" manyArguments .int false {3, 4} [] busy).toOption.any fun p =>
      p.2.calls.map CallRecord.saved = [[(3, rdi), (4, rdx)]] ∧ p.2.saveArea.toList.map Prod.snd = [-32, -24] ∧
        p.2.allocation.frame.size ≤ 32 ∧ ∀ call ∈ p.2.calls, call.stackBytes ≤ 2147483647 := by decide +kernel
  obtain ⟨p, run, checks⟩ := exists_of_any checks
  obtain ⟨saved, area, size, bytes⟩ := of_decide_eq_true checks
  obtain ⟨parts, added, kept, runs⟩ := lowerCall_passes (F := 32) busy_reached rfl
    (by simp [manyArguments, Operand.Readable]) run ⟨size, by decide, by decide, by decide, bytes⟩
  refine ⟨p.1, p.2, run, saved, parts, added, fun M s deep => ?_⟩
  obtain ⟨ws, s₁, words, passes, passed, keeps⟩ := runs M s deep
  -- The first two arguments have changed places.
  have swapped : s₁.reg rdi = s.reg rsi ∧ s₁.reg rsi = s.reg rdi := by
    have two : busy.allocation.location? 2 = some (.register rsi) := by decide +kernel
    have three : busy.allocation.location? 3 = some (.register rdi) := by decide +kernel
    obtain _ | ⟨first, _ | ⟨second, -⟩⟩ := words
    rw [wordOf?, State.values, two] at first
    rw [wordOf?, State.values, three] at second
    exact ⟨(passed.registers 0 rdi _ rfl rfl).trans (Option.some.inj first).symm,
      (passed.registers 1 rsi _ rfl rfl).trans (Option.some.inj second).symm⟩
  refine ⟨ws, s₁, words, passes, passed, swapped.1, swapped.2,
    keeps (-8) (by decide) (by decide) (by decide) fun t r mem => ?_⟩
  have here : (-8 : Int) ∈ p.2.saveArea.toList.map Prod.snd :=
    mem_map.2 ⟨_, Std.ExtTreeMap.mem_toList_iff_getElem?_eq_some.2 (kept t r _ mem), rfl⟩
  exact absurd (area ▸ here) (by decide)

/-! ### Temporaries -/

/-- No two temporaries are in one place. -/
lemma Valid.location_inj {place : Location} (valid : Valid env σ) (ht : σ.allocation.location? t =
      some place) (hu : σ.allocation.location? u = some place) : t = u := by
  cases place with
  | register r =>
      exact Option.mem_unique (valid.allocation.occupant_iff.2 ht) (valid.allocation.occupant_iff.2
      hu)
  | stack o =>
    have same := valid.apart (valid.owned_stack ht) (valid.owned_stack hu)
    injection same

/-- What a call does to the temporaries that live on after it, from `σ` to `σ'`. Its target is the
temporary that takes over its answer, with what is live then. -/
structure Restores (f : Lir.Function) (symbol : String) (returnType : Ty) (isExternal : Bool)
    (live : LiveSet) (target : Option (Slot × LiveSet)) (parts : CallParts) (record : CallRecord)
    (σ σ' : State) : Prop where
  output : σ'.output.toList = σ.output.toList ++ parts.code symbol returnType isExternal
  noted : σ'.calls = σ.calls ++ [record]
  saved : ∀ t r, (t, r) ∈ record.saved ↔ t ∈ live ∧ σ.allocation.location? t = some (.register r) ∧
    isCallerSaved r = true
  once : (record.saved.map Prod.fst).Nodup
  restored : record.restored.map Prod.fst = record.saved.map Prod.fst
  distinct : (record.restored.map Prod.snd).Nodup
  located : ∀ p ∈ record.restored, p.2 ≠ .register returnRegister ∧ σ'.allocation.location? p.1 = some p.2 ∧
    ∀ u, u ≠ p.1 → σ'.allocation.location? u ≠ some p.2
  answered : ∀ t after, target = some (t, after) → t ∈ after →
    σ'.allocation.location? t = some (.register returnRegister)
  runs : ∀ F, Reach (.of f) F σ' → ∀ M s, Deep (if needsStackAdjustment f.isLeaf F then F else 0) s
    → M.Honours (s.reg rbp) (-F) (Env.of f).top →
    ∃ s₁, Passes M parts.front s s₁ ∧ ∀ k, ∃ s', Passes M parts.back (M.callee k s₁) s' ∧
    (∀ t r place, (t, r) ∈ record.saved → (t, place) ∈ record.restored → place.value s' = s.reg r) ∧
    ∀ t after, target = some (t, after) → t ∈ after → s'.reg returnRegister = M.answer k s₁

/-- Where the target of a call is not live until it takes over the answer, what was saved is
restored. -/
lemma Calls.restores_all {parts : CallParts}
    (target : Option (Slot × LiveSet)) (valid : Valid (.of f) σ) (calling : f.isLeaf = false)
    (h : Calls (.of f) symbol arguments returnType isExternal live (target.elim live Prod.snd)
      (target.map Prod.fst) parts σ σ') (readable : ∀ a ∈ arguments, a.Readable fun _ => True)
    (somewhere : ∀ a ∈ arguments, Somewhere (.of f) σ a)
    (fresh : ∀ p ∈ target, p.1 ∉ live ∧ ∀ u ∈ live, u ∈ p.2) :
    ∃ record, Restores f symbol returnType isExternal live target parts record σ σ' := by
  have fresh' t (same : target.map Prod.fst = some t) : t ∉ live := by
    obtain ⟨p, here, rfl⟩ := Option.map_eq_some_iff.1 same
    exact (fresh p here).1
  have more : ∀ u ∈ live, u ∈ target.elim live Prod.snd := by
    cases target with
    | none => exact fun _ => id
    | some p => exact (fresh p rfl).2
  have firsts : (parts.saved.map fun p => (p.1, p.2.1)).map Prod.fst = parts.saved.map Prod.fst := by
    rw [map_map]
    rfl
  have once := h.saves.nodup valid
  have saved t r : (t, r) ∈ parts.saved.map (fun p => (p.1, p.2.1)) ↔
      t ∈ live ∧ σ.allocation.location? t = some (.register r) ∧ isCallerSaved r = true := by
    constructor
    · intro mem
      obtain ⟨⟨_, _, o⟩, here, same⟩ := mem_map.1 mem
      cases same
      obtain ⟨occupied, alive⟩ := h.saves.own here
      obtain ⟨-, occupied, caller⟩ := Allocation.mem_occupiedCallerSaved.1 occupied
      exact ⟨alive, valid.allocation.occupant_iff.1 occupied, caller⟩
    · rintro ⟨alive, here, caller⟩
      obtain ⟨o, mem⟩ := h.saves.all (Allocation.mem_occupiedCallerSaved.2 ⟨valid.pooled here,
        valid.allocation.occupant_iff.2 here, caller⟩) alive
      exact mem_map.2 ⟨_, mem, rfl⟩
  have located p (hp : p ∈ parts.restored) : σ'.allocation.location? p.1 = some p.2 := by
    refine (h.restored p hp).2 (more _ ?_)
    have mem : p.1 ∈ parts.saved.map Prod.fst := h.restores ▸ mem_map_of_mem hp
    obtain ⟨⟨_, r, o⟩, here, same⟩ := mem_map.1 mem
    exact same ▸ (h.saves.own here).2
  refine ⟨_, h.added, h.noted, saved, firsts.symm ▸ once, h.restores.trans firsts.symm, ?_,
    fun p hp => ⟨(h.restored p hp).1, located p hp, ?_⟩, ?_, fun F reach M s deep honours => ?_⟩
  · refine Nodup.map_on (fun p hp q hq same => ?_) (Nodup.of_map _ (h.restores.symm ▸ once))
    exact Prod.ext (h.valid.location_inj (located p hp) (same ▸ located q hq)) same
  · exact fun u other here => other (h.valid.location_inj here (located p hp))
  · rintro t after rfl lives
    exact h.answered t rfl (fresh' t rfl) lives
  · obtain ⟨ws, words⟩ := exists_words valid readable somewhere M.strings s
    obtain ⟨s1, passes, -, -, back⟩ := h.runs F reach M s _ ws (deep_of_adjusted calling
      (h.valid.whole.2.trans reach.size) deep) (placed_values valid s) words
    refine ⟨s1, passes, fun k => ?_⟩
    obtain ⟨s', passes', -, placed⟩ := back k fresh' honours
    refine ⟨s', passes', fun t r place mem mem' => ?_, fun t after same lives => ?_⟩
    · obtain ⟨alive, here, -⟩ := (saved t r).1 mem
      refine placed.located (located _ mem') ?_
      have value : σ.values (.of f) s t = some (s.reg r) := by rw [State.values, here]; rfl
      cases target with
      | none => exact value
      | some p => exact (Function.update_of_ne (fun same =>
          fresh' t (congrArg some same.symm) alive) ..).trans value
    · subst same
      exact placed.located (h.answered t rfl (fresh' t rfl) lives) (Function.update_self ..)

/-- The code behind a call, with what is live in it. -/
lemma behind_of_zip {code : List Instr} {i : Instr} (parts : code.zip (liveAfterEach out code) =
      before ++ (i, live) :: rest) : ∃ front behind, code = front ++ i :: behind ∧
    live = liveAtStart out behind ∧ rest = behind.zip (liveAfterEach out behind) := by
  induction before generalizing code with
  | nil =>
    cases code with
    | nil => cases parts
    | cons j code =>
      rw [liveAfterEach_cons, zip_cons_cons] at parts
      obtain ⟨⟨⟩, rfl⟩ := cons.inj parts
      exact ⟨[], code, rfl, rfl, rfl⟩
  | cons p before ih =>
    cases code with
    | nil => cases parts
    | cons j code =>
      obtain ⟨front, behind, rfl, known⟩ := ih (cons.inj parts).2
      exact ⟨j :: front, behind, rfl, known⟩

/-- What the target of a call is live for. -/
lemma live_copyTo {behind : List Instr} : t ∉ liveAtStart out (copyTo t .returnSlot ++ behind) ∧
      ∀ u ∈ liveAtStart out (copyTo t .returnSlot ++ behind), u ∈ liveAtStart out behind := by
  refine ⟨fun h => (mem_liveBefore.1 h).1 rfl, fun u h => ?_⟩
  change u ∈ liveBefore (.unary .declare (.slot t))
    (liveBefore (.binary .mov (.slot t) .returnSlot) (liveAtStart out behind)) at h
  rw [mem_liveBefore, mem_liveBefore, ← Instr.mem_slots, ← Instr.mem_slots] at h
  have other : u ≠ t := fun same => h.1 (same ▸ rfl)
  simpa [Instr.slots, Instr.operands, Operand.slots, other] using h.2

/-- At every call of a function, whatever state lowering has come to, what lives on after it is
restored. The code behind a call that has a value begins with the move of it, which is done with the
call. -/
def RestoresAll (lir : Lir) (f : Lir.Function) (flow : Flow) (liveness : Liveness) : Prop :=
  ∀ position before symbol arguments returnType isExternal live rest σ n σ',
    (flow.code lir position).zip (liveness.liveAfter.getD position []) =
    before ++ (.unary .call (.callee symbol arguments returnType isExternal), live) :: rest →
    Reached (fun t => f.isTemporary t = true) (fun _ => True) (.start f) σ →
    lowerInstr (.of f) (liveness.liveOut.getD position ∅)
    (.unary .call (.callee symbol arguments returnType isExternal)) live rest σ = .ok (n, σ') →
    ∃ target parts record, Restores f symbol returnType isExternal live target parts record σ σ' ∧
      if returnType.hasValue then ∃ t declared after behind, target = some (t, after) ∧ n = 2 ∧
        rest = (.unary .declare (.slot t), declared) :: (.binary .mov (.slot t) .returnSlot, after) :: behind
      else target = none ∧ n = 0

/-- **What is saved is restored.** At every call of a program that is built, whatever state lowering
has come to: what lives on in registers that the call might change is saved before it and restored
behind it, in places of its own that have the values from before the call, and the answer of the
call is in the register of the convention. -/
theorem lowerFunction_restores {text : List Char} {p : Program}
    {lir : Lir} {g : Nat} (accepted : Program.compile text = .ok p) (built : p.build.lir = .ok lir)
    (found : lir.functions[g]? = some f) :
    ∃ flow liveness codes report, Flow.of lir f = .ok flow ∧ Liveness.of lir f flow = .ok liveness ∧
    lowerFunction lir f flow liveness = .ok (codes, report) ∧ RestoresAll lir f flow liveness := by
  obtain ⟨entry, exit, front, first, last, plainly⟩ :=
    plainly_of_built (Program.checked_of_compile accepted) built found
  obtain ⟨codes, report, coded, -⟩ := plainly.functionCode found
  obtain ⟨flow, liveness, flows, lives, lowered, -⟩ := functionCode_eq_ok found coded
  refine ⟨flow, liveness, codes, report, flows, lives, lowered, ?_⟩
  obtain rfl := Except.ok.inj ((Flow.of_leading plainly.toLeading).symm.trans flows)
  obtain ⟨liveness', lives', -, -, after, live₁, after₁⟩ := Liveness.of_leading plainly.toLeading
  obtain rfl := Except.ok.inj (lives'.symm.trans lives)
  intro position before symbol arguments returnType isExternal live rest σ n σ' split reached lowers
  -- Only the first block has calls.
  have inFirst : first.instructions.zip (liveAfterEach ∅ first.instructions) =
      before ++ (.unary .call (.callee symbol arguments returnType isExternal), live) :: rest := by
    obtain _ | _ | position := position
    · rw [after, Flow.code] at split
      simpa [Flow.leading, plainly.atEntry] using split
    · rw [after₁, Flow.code] at split
      simp [Flow.leading, plainly.atExit, plainly.returns] at split
      cases before <;> simp at split
    · simp [Flow.code, Flow.leading] at split
  obtain ⟨front', behind, same, rfl, rfl⟩ := behind_of_zip inFirst
  obtain ⟨site, hi, straight⟩ := plainly.straight
  obtain ⟨calling, readable, answer⟩ := straight.calls front' same
  obtain ⟨valid, -⟩ := (start_valid f).after reached
  obtain ⟨somewhere, count, parts, calls⟩ := lowerCall_calls valid readable lowers
  obtain novalue | ⟨value, t, behind, temporary, rfl⟩ := answer
  · simp only [novalue, Bool.false_eq_true, if_false] at count calls ⊢
    obtain ⟨record, restores⟩ := Calls.restores_all none valid calling calls readable somewhere (by rintro _ ⟨⟩)
    exact ⟨none, parts, record, restores, rfl, count⟩
  · have taken : (copyTo t .returnSlot ++ behind).zip
      (liveAfterEach ∅ (copyTo t .returnSlot ++ behind)) = (.unary .declare (.slot t), liveAtStart ∅
      (.binary .mov (.slot t) .returnSlot :: behind)) :: (.binary .mov (.slot t) .returnSlot,
      liveAtStart ∅ behind) :: behind.zip (liveAfterEach ∅ behind) := by
      simp only [copyTo, cons_append, nil_append, liveAfterEach_cons, zip_cons_cons]
    have target : resultTarget? (Env.of f).function
        ((copyTo t .returnSlot ++ behind).zip (liveAfterEach ∅ (copyTo t .returnSlot ++ behind))) =
        some (t, 2, liveAtStart ∅ behind) := by
      rw [taken, resultTarget?, resultTarget?]
      exact congrArg (Option.map _) (if_pos temporary)
    simp only [value, if_true, target] at count calls ⊢
    obtain ⟨record, restores⟩ :=
      Calls.restores_all (some (t, liveAtStart ∅ behind)) valid calling calls readable somewhere
      fun _ h => Option.some.inj h ▸ live_copyTo
    exact ⟨_, parts, record, restores, t, _, _, _, rfl, count, taken⟩

theorem lowerFunction_restores_sevenArguments :
    ∃ p lir f flow liveness codes report, Program.compile sevenArguments = .ok p ∧ p.build.lir =
    .ok lir ∧ lir.functions[1]? = some f ∧ Flow.of lir f = .ok flow ∧ Liveness.of lir f flow =
    .ok liveness ∧ lowerFunction lir f flow liveness = .ok (codes, report) ∧
    (∃ call ∈ report.calls, call.saved ≠ []) ∧ RestoresAll lir f flow liveness := by
  obtain ⟨p, lir, f, blocks, code, report, accepted, built, found, coded, -, -, -, -, saves⟩ :=
    exists_sevenArguments
  obtain ⟨flow, liveness, codes, report', flows, lives, lowered, restores⟩ :=
    lowerFunction_restores accepted built found
  obtain ⟨flow', liveness', flows', lives', lowered', -⟩ := functionCode_eq_ok found coded
  obtain rfl := Except.ok.inj (flows.symm.trans flows')
  obtain rfl := Except.ok.inj (lives.symm.trans lives')
  exact ⟨p, lir, f, flow, liveness, code, report, accepted, built, found, flows, lives, lowered',
    saves, restores⟩

end Lowering

end EmLang.Native
