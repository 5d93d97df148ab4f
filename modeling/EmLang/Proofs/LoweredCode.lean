import EmLang.Proofs.CallLowering
import EmLang.Proofs.Divisions
import EmLang.Proofs.LivePaths

/-!
Lowered code does what the code over slots does. Both are run side by side: they make the same calls
with the same arguments, stop at the same division, and where they go on the values of slots that
are still needed are in the places which the allocation says.
-/

namespace EmLang.Native

open Lir List Option Register

variable {operation : Int64 → Int64 → Option Int64} {op : Opcode} {result result' : Option Word}
  {slots slots' : Slot → Option Word} {i : Instr}

/-! ### Runs side by side -/

/-- The calls had these answers. -/
def Setting.Answered (M : Setting) (calls : List Call) (answers : Nat → Word) : Prop :=
  ∀ n call, calls[n]? = some call → answers n = M.answer n call.state

/-- A call of the machine is the one that was asked for. -/
structure Call.Fits (call : Call) (asked : Asked Word) : Prop where
  symbol : call.symbol = asked.symbol
  arguments : Passed asked.arguments 0 call.state

/-- A run over slots comes from the one stage to the other, when the calls of the machine are
answered as they were. -/
def Setting.Proceeds (M : Setting) (calls : List Call) (p q : Stage Word) : Prop :=
  ∀ blocks answers, M.Answered calls answers → Leads (Stage.advance (words M.strings) blocks answers) p q

variable {M : Setting} {calls calls' : List Call} {p q r : Stage Word}

lemma Setting.Answered.less {answers : Nat → Word} (h : M.Answered calls' answers)
    (less : calls <+: calls') : M.Answered calls answers := by
  obtain ⟨rest, rfl⟩ := less
  intro n call here
  have lt := (List.getElem?_eq_some_iff.1 here).1
  exact h n call (by rw [getElem?_append_left lt, here])

lemma Setting.Proceeds.refl (p : Stage Word) : M.Proceeds calls p p := fun _ _ _ => .refl p

lemma Setting.Proceeds.trans (h : M.Proceeds calls p q) (h' : M.Proceeds calls' q r)
    (less : calls <+: calls') : M.Proceeds calls' p r :=
  fun blocks answers answered => (h blocks answers (answered.less less)).trans (h' blocks answers answered)

lemma Setting.Proceeds.step {rest rest' : List Instr} (performs : ∀ blocks,
      (⟨rest, slots, result⟩ : Activation Word).perform (words M.strings) blocks i =
      .next ⟨rest', slots', result'⟩) (asked : List (Asked Word)) : M.Proceeds calls
    (.running ⟨i :: rest, slots, result⟩ asked) (.running ⟨rest', slots', result'⟩ asked) := by
  intro blocks answers _
  refine .of_eq ?_
  simp only [Stage.advance, Activation.step_cons, performs]

/-- How many divisions are in code. -/
def divisions (is : List Instr) : Nat := is.countP fun i => i.opcode = .idiv ∨ i.opcode = .irem

@[simp] lemma divisions_append (is is' : List Instr) :
    divisions (is ++ is') = divisions is + divisions is' := countP_append

namespace Lowering

variable {code : List Instr} {env : Env} {σ σ' σ'' : State}

/-- An instruction of lowered code: a proper one, or a division. -/
def Lawful (σ : State) (i : Instr) : Prop :=
  Proper σ i ∨ (∃ divisor, i = .unary .idiv divisor ∧ Within σ divisor) ∧ Encodable σ.Shifts i

lemma Lawful.mono (h : Lawful σ i) (grows : Grows env σ σ') : Lawful σ' i := by
  obtain proper | ⟨⟨divisor, rfl, within⟩, encodable⟩ := h
  · exact .inl (proper.mono grows)
  · refine .inr ⟨⟨divisor, rfl, within.grow grows⟩, encodable.mono fun bytes => ?_⟩
    exact Or.imp_right fun ⟨call, made, same⟩ => ⟨call, grows.calls.subset made, same⟩

lemma Lawful.within (h : Lawful σ i) : ∀ operand ∈ i.operands, Within σ operand := by
  obtain proper | ⟨⟨divisor, rfl, within⟩, -⟩ := h
  · exact proper.within
  · exact forall_mem_singleton.2 within

lemma Lawful.opcode_ne_ret (h : Lawful σ i) : i.opcode ≠ .ret := by
  obtain proper | ⟨⟨divisor, rfl, -⟩, -⟩ := h
  · intro returns
    have plain := proper.plain
    rw [returns] at plain
    cases plain
  · exact nofun

lemma divisions_of_proper (proper : ∀ i ∈ code, Proper σ i) : divisions code = 0 := by
  refine countP_eq_zero.2 fun i hi => ?_
  have plain := (proper i hi).plain
  revert plain
  cases i.opcode <;> simp [isPlain]

/-- The code of instructions: it has as many divisions and the same calls, and leaves the stack
pointer at its level. -/
structure Coded (leaf : Bool) (σ : State) (is code : List Instr) : Prop where
  lawful : ∀ i ∈ code, Lawful σ i
  divisions : divisions code = divisions is
  callees : callees code = callees is
  level : Level leaf σ code

namespace Coded

variable {leaf : Bool} {is is' code' : List Instr}

lemma append (h : Coded leaf σ is code) (h' : Coded leaf σ' is' code') (grows : Grows env σ σ') :
    Coded leaf σ' (is ++ is') (code ++ code') where
  lawful := forall_mem_append.2 ⟨fun i hi => (h.lawful i hi).mono grows, h'.lawful⟩
  divisions := by rw [divisions_append, divisions_append, h.divisions, h'.divisions]
  callees := by rw [callees_append, callees_append, h.callees, h'.callees]
  level := (h.level.grow grows).append h'.level

/-- Code that leaves the stack alone, of instructions that are no divisions and no calls. -/
lemma of_quiet (quiet : ∀ i ∈ code, Quiet σ i) (none : Native.divisions is = 0)
    (others : Lowering.callees is = []) : Coded leaf σ is code where
  lawful i hi := .inl (quiet i hi).toProper
  divisions := (divisions_of_proper fun i hi => (quiet i hi).toProper).trans none.symm
  callees := (callees_of_quiet quiet).trans others.symm
  level := .of_quiet quiet

end Coded

variable (env : Env)

/-- The frame pointer is that of the frame, which called functions leave alone. In a function that
makes calls, the stack pointer is at the end of the frame. -/
structure Framed (F : Int) (M : Setting) (s : Cpu) : Prop where
  honours : M.Honours (s.reg rbp) (-F) env.top
  deep : env.function.isLeaf = false → Deep F s

/-- Both runs pass their code, with `Q` behind it, or both stop at the same division. -/
inductive Abreast (F : Int) (σ : State) (M : Setting) (Q : (Slot → Option Word) → Option Word →
      Cpu → Prop) (is code : List Instr) (slots : Slot → Option Word) (result : Option Word)
    (s : Cpu) (calls : List Call) (asked : List (Asked Word)) : Prop where
  | passes {slots' : Slot → Option Word} {result' : Option Word}
      {s' : Cpu} {calls' : List Call} {asked' : List (Asked Word)} (machine : ∀ rest,
        Leads M.advance (.running (code ++ rest) s calls) (.running rest s' calls'))
      (proceeds : ∀ rest, M.Proceeds calls' (.running ⟨is ++ rest, slots, result⟩ asked)
        (.running ⟨rest, slots', result'⟩ asked')) (keeps : Keeps Working (Touched env F σ) s s')
      (post : Q slots' result' s') (more : calls <+: calls')
      (fits : Forall₂ Call.Fits calls' asked') : Abreast F σ M Q is code slots result s calls asked
  | traps (behind behind' : List Instr) {calls' : List Call} {asked' : List (Asked Word)}
      (machine : ∀ rest, Leads M.advance (.running (code ++ rest) s calls)
        (.trapped (behind ++ rest) calls')) (proceeds : ∀ rest, M.Proceeds calls'
        (.running ⟨is ++ rest, slots, result⟩ asked) (.trapped (behind' ++ rest) asked'))
      (same : divisions behind = divisions behind') (more : calls <+: calls')
      (fits : Forall₂ Call.Fits calls' asked') : Abreast F σ M Q is code slots result s calls asked

/-- From `σ` to `σ'` the code of instructions is added, and from where `P` holds both are run side
by side to where `Q` holds. -/
structure Runs (P Q : (Slot → Option Word) → Option Word → Cpu → Prop) (is : List Instr)
    (σ σ' : State) : Prop where
  valid : Valid env σ'
  grows : Grows env σ σ'
  code : ∃ code, σ'.output.toList = σ.output.toList ++ code ∧ Coded env.function.isLeaf σ' is code ∧
    ∀ F, Reach env F σ' → ∀ M s slots result calls asked, Framed env F M s → P slots result s →
      Forall₂ Call.Fits calls asked → Abreast env F σ' M Q is code slots result s calls asked

variable {env} {P Q R : (Slot → Option Word) → Option Word → Cpu → Prop} {is is' : List Instr}
  {F : Int} {s s' : Cpu}

lemma Framed.keep {W : Int → Prop} (framed : Framed env F M s) (keeps : Keeps Working W s s') :
    Framed env F M s' := by
  have frame : s'.reg rbp = s.reg rbp := keeps.reg rbp fun h => h.1 rfl
  refine ⟨frame.symm ▸ framed.honours, fun calling => ?_⟩
  unfold Deep
  rw [keeps.reg rsp fun h => h.2 rfl, frame, framed.deep calling]

lemma Touched.grow {o : Int} (touched : Touched env F σ o) (grows : Grows env σ σ') : Touched env F σ' o :=
  touched.imp_left grows.owned

lemma Runs.trans (h : Runs env P Q is σ σ') (h' : Runs env Q R is' σ' σ'') :
    Runs env P R (is ++ is') σ σ'' := by
  obtain ⟨-, grows, code, added, coded, run⟩ := h
  obtain ⟨valid', grows', code', added', coded', run'⟩ := h'
  refine ⟨valid', grows.trans grows', code ++ code', ?_, coded.append coded' grows',
    fun F reach M s slots result calls asked framed pre fits => ?_⟩
  · rw [added', added, append_assoc]
  · obtain ⟨machine, proceeds, keeps, post, more, fits⟩ | ⟨behind, behind', machine, proceeds,
      ahead, more, fits⟩ := run F (grows'.reach reach) M s slots result calls asked framed pre fits
    · obtain ⟨machine', proceeds', keeps', post', more', fits'⟩ | ⟨_, _, machine', proceeds',
        ahead', more', fits'⟩ := run' F reach M _ _ _ _ _ (framed.keep keeps) post fits
      · refine .passes (fun rest => ?_) (fun rest => ?_) ((keeps.mono (fun _ => id) fun _ h =>
          h.grow grows').trans keeps') post' (more.trans more') fits'
        · exact append_assoc .. ▸ (machine _).trans (machine' rest)
        · exact append_assoc .. ▸ (proceeds _).trans (proceeds' rest) more'
      · refine .traps _ _ (fun rest => ?_) (fun rest => ?_) ahead' (more.trans more') fits'
        · exact append_assoc .. ▸ (machine _).trans (machine' rest)
        · exact append_assoc .. ▸ (proceeds _).trans (proceeds' rest) more'
    · refine .traps (behind ++ code') (behind' ++ is') (fun rest => ?_) (fun rest => ?_) ?_ more fits
      · rw [append_assoc, append_assoc]
        exact machine _
      · rw [append_assoc, append_assoc]
        exact proceeds _
      · rw [divisions_append, divisions_append, ahead, coded'.divisions]

/-! ### Single instructions -/

variable (env) in
/-- The slots `D` have values, and values are in their places. -/
structure Holds (D : Slot → Prop) (σ : State) (slots : Slot → Option Word) (result : Option Word)
    (s : Cpu) : Prop where
  placed : Placed env σ slots s
  known : ∀ x, D x → ∃ v, slots x = some v

variable (env) in
/-- Temporaries that have values and are live are somewhere. -/
def Located (D : Slot → Prop) (live : LiveSet) (σ : State) : Prop :=
  ∀ t, D t → env.function.isTemporary t = true → t ∈ live → σ.allocation.location? t ≠ none

variable {D D' : Slot → Prop} {live : LiveSet} {source : Operand} {t : Slot}

lemma value?_words (slots : Slot → Option Word) (result : Option Word) (rest : List Instr)
    (readable : source.Readable D) : (⟨rest, slots, result⟩ : Activation Word).value?
    (words M.strings) source = wordOf? M.strings slots source := by
  cases source with
  | slot _ | imm _ | str _ => rfl
  | _ => exact readable.elim

lemma word?_words {v : Word} (result : Option Word) (rest : List Instr)
    (readable : source.Readable D) (value : wordOf? M.strings slots source = some v) : (⟨rest,
      slots, result⟩ : Activation Word).word? (words M.strings) source = some (.ofBitVec v) := by
  rw [Activation.word?, value?_words slots result rest readable, value]
  rfl

lemma Holds.value (holds : Holds env D σ slots result s) (strings : Nat → Word)
    (readable : source.Readable D) : ∃ v, wordOf? strings slots source = some v := by
  cases source with
  | slot x => exact holds.known x readable
  | imm w => exact ⟨_, rfl⟩
  | str index => exact ⟨_, rfl⟩
  | _ => exact readable.elim

/-- An operand of an instruction is somewhere. -/
lemma Located.somewhere (located : Located env D (liveBefore i live) σ)
    (readable : source.Readable D) (mentions : ∀ u, source = .slot u → i.Mentions u)
    (other : ∀ u, i ≠ .unary .declare (.slot u)) : Somewhere env σ source := by
  rintro u rfl temporary
  exact located u readable temporary (mem_liveBefore.2 ⟨other u, .inl (mentions u rfl)⟩)

/-- What is live after an instruction was live before it. -/
lemma Located.before (located : Located env D (liveBefore i live) σ)
    (other : ∀ u, i ≠ .unary .declare (.slot u)) : Located env D live σ :=
  fun u hu temporary alive => located u hu temporary (mem_liveBefore.2 ⟨other u, .inr alive⟩)

lemma Located.remains (located : Located env D live σ) (remains : Remains live σ σ') : Located env D live σ' :=
  fun u hu temporary alive => remains u alive (located u hu temporary alive)

lemma Emits.runs
    {E : Setting → Cpu → Cpu → Prop} (emits : Emits env σ σ' E) (plain : isPlain i.opcode = true)
    (other : i.opcode ≠ .call) (keeps : ∀ M s s', E M s s' → Keeps Working (Owned env σ') s s')
    (step : ∀ M s s' slots result, E M s s' → P slots result s → ∃ slots' result',
      Q slots' result' s' ∧ ∀ rest blocks, (⟨rest, slots, result⟩ : Activation Word).perform
      (words M.strings) blocks i = .next ⟨rest, slots', result'⟩) : Runs env P Q [i] σ σ' := by
  obtain ⟨valid, grows, code, added, quiet, run⟩ := emits
  have none : divisions [i] = 0 := by
    revert plain
    rw [divisions, countP_singleton]
    cases i.opcode <;> simp [isPlain]
  have coded : Coded env.function.isLeaf σ' [i] code :=
    .of_quiet quiet none (callees_of_forall (forall_mem_singleton.2 other))
  refine ⟨valid, grows, code, added, coded, fun F reach M s slots result calls asked _ pre fits => ?_⟩
  obtain ⟨s', passes, effect⟩ := run reach.room M s
  obtain ⟨slots', result', post, performs⟩ := step M s s' slots result effect pre
  exact .passes (fun rest => passes rest calls) (fun rest => .step (performs rest) asked)
    ((keeps M s s' effect).mono (fun _ => id) fun _ => .inl) post prefix_rfl fits

lemma Holds.update (holds : Holds env D σ slots result s) (same : ∀ x, D' x → x = t ∨ D x) (v : Word) :
    ∀ x, D' x → ∃ w, Function.update slots t (some v) x = some w := by
  intro x hx
  by_cases h : x = t
  · exact ⟨v, by rw [h, Function.update_self]⟩
  · rw [Function.update_of_ne h]
    exact holds.known x ((same x hx).resolve_left h)

lemma Emits.runs_of_assigns {value : Setting → (Slot → Option Word) → Option Word}
    (emits : Emits env σ σ' (Assigns env σ σ' t value)) (plain : isPlain i.opcode = true)
    (other : i.opcode ≠ .call) (same : ∀ x, D' x → x = t ∨ D x)
    (step : ∀ M s slots result, Holds env D σ slots result s → ∃ v, value M slots = some v ∧
      ∀ rest blocks, (⟨rest, slots, result⟩ : Activation Word).perform (words M.strings) blocks i =
      .next ⟨rest, Function.update slots t (some v), result⟩) :
    Runs env (Holds env D σ) (Holds env D' σ') [i] σ σ' := by
  refine emits.runs plain other (fun _ _ _ assigns => assigns.keeps) fun M s s' slots result assigns holds => ?_
  obtain ⟨v, hv, performs⟩ := step M s slots result holds
  exact ⟨_, result, ⟨assigns.placed holds.placed hv, holds.update same v⟩, performs⟩

lemma Runs.releaseDead (h : Runs env P (Holds env D σ') is σ σ') (live : LiveSet) :
    let σ'' : State := { σ' with allocation := σ'.allocation.releaseDead live }
    Runs env P (Holds env D σ'') is σ σ'' := by
  intro σ''
  have forgets : Runs env (Holds env D σ') (Holds env D σ'') [] σ' σ'' := by
    obtain ⟨valid, grows, code, added, quiet, run⟩ := forget_emits h.valid (h.valid.allocation.releaseDead live)
    refine ⟨valid, grows, code, added, .of_quiet quiet rfl rfl,
      fun F reach M s slots result calls asked _ holds fits => ?_⟩
    obtain ⟨s', passes, rfl, moves⟩ := run reach.room M s
    exact .passes (fun rest => passes rest calls) (fun _ => .refl _) (.refl _ _ s')
      ⟨moves.placed holds.placed, holds.known⟩ prefix_rfl fits
  simpa only [append_nil] using h.trans forgets

variable (env) in
/-- From `σ` to `σ'` the code of instructions is added that give the slots `D'` values where the
slots `D` have them, and what is live behind them is somewhere. -/
structure Advances (D D' : Slot → Prop) (is : List Instr) (live : LiveSet) (σ σ' : State) : Prop where
  runs : Runs env (Holds env D σ) (Holds env D' σ') is σ σ'
  located : Located env D' live σ'

lemma lowers_releaseDead {a : Lower Unit} (h : Lowers a σ fun _ => Advances env D D' is live σ) :
    Lowers (do a; modifyAllocation (·.releaseDead live); return 0) σ fun n σ' => n = 0 ∧
    Advances env D D' is live σ σ' := by
  simp only [lowers_bind, lowers_modifyAllocation, lowers_pure]
  refine h.mono fun _ σ' advances => ⟨trivial, advances.runs.releaseDead live, ?_⟩
  exact advances.located.remains fun u alive h => (releaseDead_location advances.runs.valid alive).symm ▸ h

variable {out : LiveSet} {rest : List (Instr × LiveSet)}

lemma declare_ne {u : Slot} (other : u ≠ t) : Instr.unary .declare (.slot t) ≠ .unary .declare (.slot u) := by
  simpa using other.symm

lemma declare_lowers (valid : Valid env σ)
    (located : Located env D (liveBefore (.unary .declare (.slot t)) live) σ) :
    Lowers (lowerInstr env out (.unary .declare (.slot t)) live rest) σ fun n σ' =>
      n = 0 ∧ Advances env D (fun x => x ≠ t ∧ D x) [.unary .declare (.slot t)] live σ σ' := by
  refine lowers_releaseDead (a := pure ()) (lowers_pure.2
    ⟨(Emits.refl valid).runs rfl (by simp [Instr.opcode]) ?_ ?_, fun u hu temporary alive => ?_⟩)
  · rintro M s s' rfl
    exact .refl _ _ s'
  · rintro M s s' slots result rfl holds
    refine ⟨Function.update slots t none, result, ⟨holds.placed.less fun x v hv => ?_,
      fun x hx => ?_⟩, fun _ _ => rfl⟩
    · by_cases same : x = t
      · rw [same, Function.update_self] at hv
        cases hv
      · rwa [Function.update_of_ne same] at hv
    · rw [Function.update_of_ne hx.1]
      exact holds.known x hx.2
  · exact located u hu.2 temporary (mem_liveBefore.2 ⟨declare_ne hu.1, .inr alive⟩)

lemma mov_lowers (valid : Valid env σ) (readable : source.Readable D)
    (located : Located env D (liveBefore (.binary .mov (.slot t) source) live) σ) :
    Lowers (lowerInstr env out (.binary .mov (.slot t) source) live rest) σ fun n σ' =>
      n = 0 ∧ Advances env D (fun x => x = t ∨ D x) [.binary .mov (.slot t) source] live σ σ' := by
  have somewhere : Somewhere env σ source :=
    located.somewhere readable (by rintro u rfl; exact ⟨.slot u, by simp [Instr.operands], .slot⟩) nofun
  refine lowers_releaseDead ((lowerMove_lowers valid readable somewhere live).mono
    fun _ σ' ⟨emits, here, remains⟩ => ⟨?_, ?_⟩)
  · refine emits.runs_of_assigns rfl (by simp [Instr.opcode]) (fun _ => id) fun M s slots result holds => ?_
    obtain ⟨v, hv⟩ := holds.value M.strings readable
    refine ⟨v, hv, fun rest blocks => ?_⟩
    rw [Activation.perform_mov _ _ _ ((value?_words slots result rest readable).trans hv)]
    rfl
  · rintro u (rfl | hu) temporary alive
    · exact here u rfl temporary
    · exact (located.before nofun).remains remains u hu temporary alive

/-- What is made of two words as numbers is what the machine makes of them as bits. -/
lemma operation_words (known : op.operation? = some operation) : (∃ f, Opcode.onWords? op = some f ∧
      ∀ l r, operation (.ofBitVec l) (.ofBitVec r) = some (.ofBitVec (f l r))) ∨
    (op = .idiv ∨ op = .irem) ∧ ∀ l r, operation (.ofBitVec l) (.ofBitVec r) = if HasQuotient
    (.ofBitVec l) (.ofBitVec r) then some (.ofBitVec (divided op l r)) else none := by
  cases op <;> cases known
  case add => exact .inl ⟨_, rfl, fun l r => rfl⟩
  case sub => exact .inl ⟨_, rfl, fun l r => rfl⟩
  case imul => exact .inl ⟨_, rfl, fun l r => rfl⟩
  case idiv => exact .inr ⟨.inl rfl, fun l r => rfl⟩
  case irem => exact .inr ⟨.inr rfl, fun l r => rfl⟩

lemma operate_lowers (valid : Valid env σ) (known : op.operation? = some operation)
    (temporary : env.function.isTemporary t = true) (has : D t)
    (readable : source.Readable D) (number : ∀ index, source ≠ .str index)
    (located : Located env D (liveBefore (.binary op (.slot t) source) live) σ) :
    Lowers (lowerInstr env out (.binary op (.slot t) source) live rest) σ fun n σ' =>
      n = 0 ∧ Advances env D D [.binary op (.slot t) source] live σ σ' := by
  have other : ∀ u, Instr.binary op (.slot t) source ≠ .unary .declare (.slot u) := by rintro _ ⟨⟩
  have somewhere : Somewhere env σ source :=
    located.somewhere readable (by rintro u rfl; exact ⟨.slot u, by simp [Instr.operands], .slot⟩) other
  have here : Somewhere env σ (.slot t) :=
    located.somewhere has (by rintro u ⟨⟩; exact ⟨.slot t, by simp [Instr.operands], .slot⟩) other
  have before := located.before other
  -- The words that the operation is about.
  have operands (M : Setting) s slots result (holds : Holds env D σ slots result s) :
      ∃ l r, slots t = some l ∧ wordOf? M.strings slots source = some r ∧
      ∀ rest blocks, (⟨rest, slots, result⟩ : Activation Word).perform (words M.strings) blocks
      (.binary op (.slot t) source) = (operation (.ofBitVec l) (.ofBitVec r)).elim .trap fun w =>
      .next ⟨rest, Function.update slots t (some w.toBitVec), result⟩ := by
    obtain ⟨l, left⟩ := holds.known t has
    obtain ⟨r, right⟩ := holds.value M.strings readable
    refine ⟨l, r, left, right, fun rest blocks => ?_⟩
    have left' : wordOf? M.strings slots (.slot t) = some l := left
    have reads : (Operand.slot t).Readable D := has
    rw [Activation.perform_operation _ _ _ known (word?_words result rest reads left')
      (word?_words result rest readable right)]
    cases operation (.ofBitVec l) (.ofBitVec r) <;> rfl
  obtain ⟨f, onWords, result⟩ | ⟨division, result⟩ := operation_words known
  · have lowered := (lowerArithmetic_lowers valid onWords temporary readable number somewhere
      here).mono (R := fun _ σ' => Advances env D D [.binary op (.slot t) source] live σ σ')
      fun _ σ' both => ⟨?_, before.remains (both.2.remains live)⟩
    · cases op <;> cases onWords
      all_goals exact lowers_releaseDead lowered
    · refine both.1.runs_of_assigns (by cases op <;> cases onWords <;> rfl)
        (by cases op <;> cases onWords <;> simp [Instr.opcode]) (fun _ => .inr)
        fun M s slots result' holds => ?_
      obtain ⟨l, r, left, right, performs⟩ := operands M s slots result' holds
      refine ⟨f l r, by simp only [combined, left, right, bind_some, map_some], fun rest blocks => ?_⟩
      rw [performs, result]
      rfl
  · have divides : Lowers (lowerDivision env op (.slot t) source live) σ fun _ σ' =>
        Divides env op t source σ σ' ∧ σ'.allocation.location? t ≠ none ∧ Remains live σ σ' :=
      lowerDivision_lowers valid temporary readable somewhere here
    have lowered := divides.mono (R := fun _ σ' => Advances env D D [.binary op (.slot t) source] live σ σ')
      fun _ σ' all => ⟨?_, before.remains all.2.2⟩
    · obtain rfl | rfl := division
      all_goals exact lowers_releaseDead lowered
    · obtain ⟨valid', grows, front, divisor, added, quiet, encodable, within, run⟩ := all.1
      have divides : Coded env.function.isLeaf σ' [.binary op (.slot t) source] [.unary .idiv divisor] := by
        refine ⟨forall_mem_singleton.2 (.inr ⟨⟨divisor, rfl, within⟩, encodable⟩), ?_, ?_,
          .still ⟨rfl, fun _ h => ?_⟩ .nil⟩
        · obtain rfl | rfl := division <;> rfl
        · exact (callees_of_forall (by simp [Instr.opcode])).trans
            (callees_of_forall (by obtain rfl | rfl := division <;> simp [Instr.opcode])).symm
        · cases divisor <;> cases h
      have before : Coded env.function.isLeaf σ' [] front := .of_quiet quiet rfl rfl
      have coded : Coded env.function.isLeaf σ' [.binary op (.slot t) source]
        (front ++ [.unary .idiv divisor]) := before.append divides (.refl σ' : Grows env σ' σ')
      refine ⟨valid', grows, front ++ [.unary .idiv divisor], added, coded,
        fun F reach M s slots result' calls asked _ holds fits => ?_⟩
      obtain ⟨l, r, left, right, performs⟩ := operands M s slots result' holds
      have ends := run reach.room M s slots l r holds.placed left right
      simp only [result, Option.elim] at performs
      split_ifs at ends performs with quotient
      · obtain ⟨s', passes, keeps, placed⟩ := ends
        exact .passes (fun rest => passes rest calls) (fun rest => .step (performs rest) asked)
          (keeps.mono (fun _ => id) fun _ => .inl) ⟨placed, holds.update (fun _ => .inr) _⟩ prefix_rfl fits
      · refine .traps [] [] (fun rest => ends rest calls) (fun rest blocks answers _ =>
          .of_eq ?_) rfl prefix_rfl fits
        show Stage.advance _ _ _ (.running ⟨_ :: rest, slots, result'⟩ asked) = _
        simp only [Stage.advance, Activation.step_cons, performs]
        rfl

lemma negate_lowers (valid : Valid env σ) (temporary : env.function.isTemporary t = true) (has : D t)
    (located : Located env D (liveBefore (.unary .neg (.slot t)) live) σ) :
    Lowers (lowerInstr env out (.unary .neg (.slot t)) live rest) σ fun n σ' =>
      n = 0 ∧ Advances env D D [.unary .neg (.slot t)] live σ σ' := by
  have other : ∀ u, Instr.unary .neg (.slot t) ≠ .unary .declare (.slot u) := by rintro _ ⟨⟩
  have here : Somewhere env σ (.slot t) :=
    located.somewhere has (by rintro u ⟨⟩; exact ⟨.slot t, by simp [Instr.operands], .slot⟩) other
  refine lowers_releaseDead ((lowerNegate_lowers valid temporary here).mono fun _ σ' ⟨emits, stays⟩ =>
    ⟨?_, (located.before other).remains (stays.remains live)⟩)
  refine emits.runs_of_assigns rfl (by simp [Instr.opcode]) (fun _ => .inr) fun M s slots result holds => ?_
  obtain ⟨w, hw⟩ := holds.known t has
  refine ⟨-w, by rw [hw]; rfl, fun rest blocks => ?_⟩
  have value : wordOf? M.strings slots (.slot t) = some w := hw
  have reads : (Operand.slot t).Readable D := has
  simp only [Activation.perform, word?_words result rest reads value]
  rfl

/-! ### Calls -/

variable {symbol : String} {arguments : List Operand} {returnType : Ty} {isExternal : Bool}
  {target : Option Slot}

lemma Holds.values (holds : Holds env D σ slots result s) (readable : ∀ a ∈ arguments, a.Readable D)
    (M : Setting) : ∃ ws, Forall₂ (fun a w => wordOf? M.strings slots a = some w) arguments ws ∧
    ∀ rest, arguments.mapM ((⟨rest, slots, result⟩ : Activation Word).value? (words M.strings)) =
    some ws := by
  induction arguments with
  | nil => exact ⟨[], .nil, fun _ => rfl⟩
  | cons a arguments ih =>
    rw [forall_mem_cons] at readable
    obtain ⟨ws, words', values⟩ := ih readable.2
    obtain ⟨w, hw⟩ := holds.value M.strings readable.1
    refine ⟨w :: ws, .cons hw words', fun rest => ?_⟩
    rw [mapM_cons, value?_words slots result rest readable.1, hw, values rest]
    rfl

/-- A call, with the instructions that take over its answer. -/
lemma Calls.toRuns {parts : CallParts} {after : LiveSet}
    (h : Calls env symbol arguments returnType isExternal live after target parts σ σ')
    (fresh : ∀ t, target = some t → t ∉ live)
    (plain : divisions is = 0) (others : callees is = []) (calling : env.function.isLeaf = false)
    (readable : ∀ a ∈ arguments, a.Readable D) (same : ∀ x, D' x → target = some x ∨ D x)
    (takes : ∀ (M : Setting) calls slots answer asked, ∃ result, ∀ rest, M.Proceeds calls
      (.running ⟨is ++ rest, slots, if returnType.hasValue then some answer else none⟩ asked)
      (.running ⟨rest, received target answer slots, result⟩ asked)) :
    Runs env (Holds env D σ) (Holds env D' σ')
    (.unary .call (.callee symbol arguments returnType isExternal) :: is) σ σ' := by
  have coded : Coded env.function.isLeaf σ'
      (.unary .call (.callee symbol arguments returnType isExternal) :: is)
      (parts.code symbol returnType isExternal) := by
    refine ⟨fun i hi => .inl (h.proper i hi), (divisions_of_proper h.proper).trans plain.symm, ?_,
      calling ▸ h.level⟩
    rw [h.called, callees, filterMap_cons]
    exact congrArg _ others.symm
  refine ⟨h.valid, h.grows, _, h.added, coded, fun F reach M s slots result calls asked framed holds fits => ?_⟩
  obtain ⟨ws, words', values⟩ := holds.values readable M
  obtain ⟨state, passes, passed, -, back⟩ :=
    h.runs F reach M s slots ws (framed.deep calling) holds.placed words'
  obtain ⟨s', passes', keeps, placed⟩ := back calls.length fresh framed.honours
  have machine rest : Leads M.advance (.running (parts.code symbol returnType isExternal ++ rest) s calls)
      (.running rest s' (calls ++ [⟨symbol, state⟩])) := by
    rw [CallParts.code, append_assoc]
    refine (passes _ calls).trans (.head ?_)
    exact passes' rest _
  obtain ⟨result', proceeds⟩ := takes M (calls ++ [⟨symbol, state⟩]) slots
    (M.answer calls.length state) (asked ++ [⟨symbol, ws⟩])
  have fits' : Call.Fits ⟨symbol, state⟩ ⟨symbol, ws⟩ := ⟨rfl, passed⟩
  have holds' : Holds env D' σ' (received target (M.answer calls.length state) slots) result' s' := by
    refine ⟨placed, ?_⟩
    cases target with
    | none => exact fun x hx => holds.known x ((same x hx).resolve_left (by rintro ⟨⟩))
    | some t => exact holds.update (fun x hx => (same x hx).imp_left fun h => (some.inj h).symm) _
  refine .passes machine (fun rest => ?_) keeps holds' (prefix_append ..) (rel_append fits (.cons fits' .nil))
  intro blocks answers answered
  have answer : answers asked.length = M.answer calls.length state := by
    rw [← fits.length_eq]
    exact answered calls.length ⟨symbol, state⟩ (by rw [getElem?_concat_length])
  refine Leads.trans (.of_eq ?_) (proceeds rest blocks answers answered)
  show Stage.advance _ _ _ (.running ⟨_ :: (is ++ rest), slots, result⟩ asked) = _
  simp only [Stage.advance, Activation.step_cons,
    Activation.perform_call _ _ _ returnType isExternal (values _), Activation.resume, answer]

lemma Located.allSomewhere (readable : ∀ a ∈ arguments, a.Readable D) (located : Located env D
      (liveBefore (.unary .call (.callee symbol arguments returnType isExternal)) live) σ) :
    ∀ a ∈ arguments, Somewhere env σ a := by
  refine fun a ha => located.somewhere (readable a ha) ?_ nofun
  rintro u rfl
  exact ⟨_, mem_singleton_self _, .argument ha .slot⟩

lemma called_lowers (valid : Valid env σ)
    (calling : env.function.isLeaf = false) (novalue : returnType.hasValue = false)
    (readable : ∀ a ∈ arguments, a.Readable D) (located : Located env D
      (liveBefore (.unary .call (.callee symbol arguments returnType isExternal)) live) σ) : Lowers
    (lowerInstr env out (.unary .call (.callee symbol arguments returnType isExternal)) live rest) σ
    fun n σ' =>
      n = 0 ∧ Advances env D D [.unary .call (.callee symbol arguments returnType isExternal)] live σ σ' := by
  have known : (if returnType.hasValue then resultTarget? env.function rest else none) = none := by
    rw [novalue]
    rfl
  refine (lowerCall_lowers valid readable (located.allSomewhere readable) known nofun).mono
    fun n σ' ⟨count, parts, calls⟩ => ⟨count, ?_, fun u hu temporary alive => calls.lives u alive alive ?_⟩
  · refine calls.toRuns nofun rfl rfl calling readable (fun _ => .inr)
      fun M calls slots answer asked => ⟨none, fun rest => ?_⟩
    rw [novalue]
    exact .refl _
  · exact located.before nofun u hu temporary alive

lemma answered_lowers (valid : Valid env σ) (calling : env.function.isLeaf = false)
    (value : returnType.hasValue = true) (temporary : env.function.isTemporary t = true)
    (readable : ∀ a ∈ arguments, a.Readable D) (located : Located env D
      (liveBefore (.unary .call (.callee symbol arguments returnType isExternal)) live) σ)
    (fresh : t ∉ live) {live1 live2 : LiveSet} (less : ∀ u ∈ live2, u ≠ t → u ∈ live) :
    Lowers (lowerInstr env out (.unary .call (.callee symbol arguments returnType isExternal)) live
      ((.unary .declare (.slot t), live1) :: (.binary .mov (.slot t) .returnSlot, live2) :: rest)) σ
    fun n σ' =>
      n = 2 ∧ Advances env D (fun x => x = t ∨ D x)
        (.unary .call (.callee symbol arguments returnType isExternal) :: copyTo t .returnSlot) live2 σ σ' := by
  have known : (if returnType.hasValue then resultTarget? env.function ((.unary .declare (.slot t),
      live1) :: (.binary .mov (.slot t) .returnSlot, live2) :: rest) else none) =
      some (t, 2, live2) := by
    simp only [value, if_true, resultTarget?, temporary, map_some]
  refine (lowerCall_lowers valid readable (located.allSomewhere readable) known ?_).mono ?_
  · rintro _ ⟨⟩
    exact temporary
  rintro n σ' ⟨count, parts, calls⟩
  refine ⟨count, ?_, fun u hu temporary alive => ?_⟩
  · refine calls.toRuns (fun u hu => some.inj hu ▸ fresh) rfl rfl calling readable
      (fun x => Or.imp_left fun same => congrArg some same.symm) fun M calls slots answer asked =>
      ⟨some answer, fun rest => ?_⟩
    rw [value, if_pos rfl]
    have declares : M.Proceeds calls (.running ⟨copyTo t .returnSlot ++ rest,
      slots, some answer⟩ asked) (.running ⟨.binary .mov (.slot t) .returnSlot :: rest,
      Function.update slots t none, some answer⟩ asked) := .step (fun _ => rfl) asked
    refine declares.trans (.step (fun blocks => ?_) asked) prefix_rfl
    rw [Activation.perform_mov _ _ _ (show Activation.value? _ _ .returnSlot = some answer from rfl)]
    simp only [Activation.store, Activation.setSlot, Function.update_idem]
    rfl
  · by_cases same : u = t
    · subst same
      exact fun none => by cases (calls.answered u rfl fresh alive).symm.trans none
    · have alive' := less u alive same
      exact calls.lives u alive alive'
        (located.before (by rintro _ ⟨⟩) u (hu.resolve_left same) temporary alive')

/-! ### Bodies -/

/-- A value that has to be given is in the register of the result. -/
def Gives (valued : Bool) (_ : Slot → Option Word) (result : Option Word) (s : Cpu) : Prop :=
  valued = true → result = some (s.reg returnRegister)

variable (env) in
/-- From `σ` to `σ'` the code of instructions is added that end with a jump. -/
def Leaves (exit : BlockId) (valued : Bool) (D : Slot → Prop) (is : List Instr) (σ σ' : State) : Prop :=
  ∃ front σ₁, is = front ++ [.unary .jmp (.block exit)] ∧ Runs env (Holds env D σ) (Gives valued) front σ σ₁ ∧
    Valid env σ' ∧ Grows env σ₁ σ' ∧ σ'.output.toList = σ₁.output.toList ++ [.unary .jmp (.block exit)]

variable {exit : BlockId} {valued : Bool}

lemma Leaves.prepend (h : Runs env (Holds env D σ) (Holds env D' σ') is σ σ')
    (h' : Leaves env exit valued D' is' σ' σ'') : Leaves env exit valued D (is ++ is') σ σ'' := by
  obtain ⟨front, σ1, rfl, runs, rest⟩ := h'
  exact ⟨is ++ front, σ1, (append_assoc ..).symm, h.trans runs, rest⟩

/-- At the jump to a block where nothing is live, nothing is stored. -/
lemma jump_lowers (valid : Valid env σ) (live : LiveSet) :
    Lowers (lowerInstrs env ∅ 0 [(.unary .jmp (.block exit), live)]) σ fun _ σ' => Valid env σ' ∧
    Grows env σ σ' ∧ σ'.output.toList = σ.output.toList ++ [.unary .jmp (.block exit)] := by
  have none (p : Register × Slot) σ (Q : Unit → State → Prop) :
      Lowers (if (∅ : LiveSet).contains p.2 then spill p.1 else pure ()) σ Q ↔ Q () (σ.add []) := by
    simp [lowers_pure]
  simp only [lowerInstrs, lowerInstr, spillLiveOut, lowers_bind, lowers_allocation,
    lowers_forM none, lowers_emit, lowers_modifyAllocation, lowers_pure, State.add_add,
    flatMap_eq_nil_iff.2 fun _ _ => rfl, nil_append]
  obtain ⟨valid', grows⟩ :=
    valid.empty (valid.allocation.releaseDead live) (σ.add [.unary .jmp (.block exit)]).output
  exact ⟨valid', grows, σ.toList_output_add _⟩

variable (valued) in
lemma return_lowers (valid : Valid env σ) (readable : source.Readable D)
    (located : Located env D (liveBefore (.binary .mov .returnSlot source) live) σ) :
    Lowers (lowerInstr env out (.binary .mov .returnSlot source) live rest) σ fun n σ' =>
      n = 0 ∧ Runs env (Holds env D σ) (Gives valued) [.binary .mov .returnSlot source] σ σ' := by
  have somewhere : Somewhere env σ source :=
    located.somewhere readable (by rintro u rfl; exact ⟨.slot u, by simp [Instr.operands], .slot⟩) nofun
  simp only [lowerInstr, lowers_bind, lowers_modifyAllocation, lowers_pure]
  refine (lowerReturn_lowers valid readable somewhere live).mono fun _ σ₁ emits => ⟨trivial, ?_⟩
  have forgets := forget_emits emits.valid (emits.valid.allocation.releaseDead live)
  have both := emits.trans forgets (R := fun M s s' => Keeps Working (Owned env σ₁) s s' ∧
      ∀ slots v, Placed env σ slots s → wordOf? M.strings slots source = some v → s'.reg returnRegister = v) ?_
  · refine both.runs rfl (by simp [Instr.opcode]) (fun _ _ _ h => h.1.mono (fun _ => id) fun _ =>
      forgets.grows.owned) fun M s s' slots result h holds => ?_
    obtain ⟨v, hv⟩ := holds.value M.strings readable
    refine ⟨slots, some v, fun _ => congrArg some (h.2 slots v holds.placed hv).symm, fun rest blocks => ?_⟩
    rw [Activation.perform_mov _ _ _ ((value?_words slots result rest readable).trans hv)]
    rfl
  · rintro room M s s₁ s' h ⟨rfl, -⟩
    exact h

/-- Straight code is lowered to code that does the same. -/
lemma straight_lowers {hi lo : Slot} {site : Site}
    (valid : Valid env σ) (straight : Straight site env.function exit valued D lo code hi)
    (located : Located env D (liveAtStart ∅ code) σ) : Lowers (lowerInstrs env ∅ 0
      (code.zip (liveAfterEach ∅ code))) σ fun _ => Leaves env exit valued D code σ := by
  -- An instruction is lowered, and then the code behind it.
  have next : ∀ {D D' : Slot → Prop} {i : Instr} {is : List Instr} {σ : State},
      (Lowers (lowerInstr env ∅ i (liveAtStart ∅ is) (is.zip (liveAfterEach ∅ is))) σ fun n σ' =>
        n = 0 ∧ Advances env D D' [i] (liveAtStart ∅ is) σ σ') →
      (∀ {σ'}, Valid env σ' → Located env D' (liveAtStart ∅ is) σ' →
        Lowers (lowerInstrs env ∅ 0 (is.zip (liveAfterEach ∅ is))) σ' fun _ =>
        Leaves env exit valued D' is σ') →
      Lowers (lowerInstrs env ∅ 0 ((i :: is).zip (liveAfterEach ∅ (i :: is)))) σ fun _ =>
      Leaves env exit valued D (i :: is) σ := by
    intro D D' i is σ first behind
    rw [liveAfterEach_cons, zip_cons_cons, lowerInstrs, lowers_bind]
    refine first.mono ?_
    rintro _ σ' ⟨rfl, advances⟩
    exact (behind advances.runs.valid advances.located).mono fun _ _ leaves => .prepend advances.runs leaves
  induction straight generalizing σ with
  | bind _ sound _ ih =>
    exact next (declare_lowers valid located) fun valid' located' =>
      next (mov_lowers valid' sound.readable located') ih
  | assign _ sound _ ih => exact next (mov_lowers valid sound.readable located) ih
  | operate known temporary has sound number _ ih =>
      exact next (operate_lowers valid known temporary has sound.readable number located) ih
  | negate temporary has _ ih => exact next (negate_lowers valid temporary has located) ih
  | called calling _ novalue sound _ ih => exact next (called_lowers valid calling novalue
      (fun a ha => (sound a ha).readable) located) ih
  | @answered D t _ symbol arguments returnType isExternal rest calling _ value temporary sound _ ih =>
    have fresh : t ∉ liveAtStart ∅ (copyTo t .returnSlot ++ rest) := fun h => (mem_liveBefore.1 h).1 rfl
    have less u (hu : u ∈ liveAtStart ∅ rest) (other : u ≠ t) :
        u ∈ liveAtStart ∅ (copyTo t .returnSlot ++ rest) := by
      have moved : u ∈ liveBefore (.binary .mov (.slot t) .returnSlot) (liveAtStart ∅ rest) :=
        mem_liveBefore.2 ⟨by rintro ⟨⟩, .inr hu⟩
      exact mem_liveBefore.2 ⟨declare_ne other, .inr moved⟩
    have taken : (copyTo t .returnSlot ++ rest).zip (liveAfterEach ∅ (copyTo t .returnSlot ++ rest)) =
        (.unary .declare (.slot t), liveAtStart ∅ (.binary .mov (.slot t) .returnSlot :: rest)) ::
          (.binary .mov (.slot t) .returnSlot, liveAtStart ∅ rest) :: rest.zip (liveAfterEach ∅ rest) := by
      simp only [copyTo, cons_append, nil_append, liveAfterEach_cons, zip_cons_cons]
    rw [liveAfterEach_cons, zip_cons_cons, taken, lowerInstrs, lowers_bind]
    refine (answered_lowers valid calling value temporary (fun a ha =>
      (sound a ha).readable) located fresh less).mono ?_
    rintro _ σ' ⟨rfl, advances⟩
    refine (ih advances.runs.valid advances.located).mono fun _ _ leaves => ?_
    exact .prepend advances.runs leaves
  | ret sound =>
    simp only [liveAfterEach_cons, liveAfterEach_nil, zip_cons_cons, zip_nil_right]
    rw [lowerInstrs, lowers_bind]
    refine (return_lowers valued valid sound.readable located).mono ?_
    rintro _ σ' ⟨rfl, runs⟩
    exact (jump_lowers runs.valid _).mono fun _ σ'' jumps => ⟨_, σ', rfl, runs, jumps⟩
  | leave novalue =>
    refine (jump_lowers valid _).mono fun _ σ' jumps => ⟨[], σ, rfl,
      ⟨valid, .refl σ, [], by simp, .of_quiet (by simp) rfl rfl, ?_⟩, jumps⟩
    intro F reach M s slots result calls asked _ _ fits
    exact .passes (fun _ => .refl _) (fun _ => .refl _) (.refl _ _ s)
      (fun h => by cases novalue.symm.trans h) prefix_rfl fits

end Lowering

end EmLang.Native
