import EmLang.Proofs.Simulation

/-!
The code of a function does what a call of it does. Its statements are gone through one after the
other; each leads to the code of the next one, or through a `return` to the exit of the function.
-/

namespace EmLang.Lir

open Eval List Option

variable {ids : List StmtId} {returnType ty : Ty}

variable {env : Eval.Env} {lir : Lir} {f g : FunId} {function : EmLang.Function}
  {vars vars' : List VarId} {s t : Eval.State} {slots : Slot → Option Datum}
  {callers : List (Ty × Activation Datum)} {S S' : Progress} {code rest ending : List Instr}
  {K n k : Nat} {lo hi : Slot}

/-! ### Statements -/

/-- The run on blocks is at the code behind a statement, where the variables `vars` can be seen. -/
def Continued (env : Eval.Env) (lir : Lir) (f : FunId) (function : EmLang.Function) (vars : List VarId)
    (rest : List Instr) (callers : List (Ty × Activation Datum)) (S : Progress) (t : Eval.State) : Prop :=
  ∃ k S' slots, Goes lir env.clock k S S' ∧ At env f rest slots callers t S' ∧ Within env f function vars t

/-- The run on blocks is behind the statements of a body: at the code `ending`, or through a
`return` at the exit with the value to return. -/
def Completed (env : Eval.Env) (lir : Lir) (returnType : Ty) (ended : Bool) (ending : List Instr)
    (callers : List (Ty × Activation Datum)) (S : Progress) (t : Eval.State) : Prop :=
  ∃ k S', Goes lir env.clock k S S' ∧ (t.halted = true → S' = .trapped t.output) ∧
    (t.halted = false → t.returned = ended ∧ ∃ slots result,
      S' = .running ⟨⟨if ended then [.nullary .ret] else ending, slots, result⟩, callers, outside t⟩ ∧
      (ended = true → returnType.hasValue = true → ∃ v d, t.last = some v ∧ result = some d ∧ Stands v d))

variable {ended : Bool} {h : Nat} {operand : Operand} {exit : BlockId} {F : Eval.Fault → Eval.State → Prop}

lemma Completed.after (h : Completed env lir returnType ended ending callers S' t)
    (goes : Goes lir env.clock k S S') : Completed env lir returnType ended ending callers S t := by
  obtain ⟨j, T, goes', trapped, running⟩ := h
  exact ⟨k + j, T, goes.trans goes', trapped, running⟩

lemma Completed.trapped (halted : t.halted = true) (h : S = .trapped t.output) :
    Completed env lir returnType ended ending callers S t :=
  ⟨0, S, .refl S, fun _ => h, fun unhalted => by cases halted.symm.trans unhalted⟩

lemma Completed.here (here : At env f ending slots callers s S) (running : s.returned = false) :
    Completed env lir returnType false ending callers S s := by
  refine ⟨0, S, .refl S, here.trapped, fun unhalted => ⟨running, ?_⟩⟩
  obtain ⟨result, rfl⟩ := here.running unhalted
  exact ⟨slots, result, rfl, nofun⟩

lemma At.setLast (h : At env f code slots callers s S) (last : Option Value) :
    At env f code slots callers { s with last } S :=
  ⟨h.trapped, h.running, h.holds⟩

section

variable (fits : Fits env lir) (ih : SimulatesExpr env lir K n)
  (within : Within env f function vars s) (low : function.locals.length ≤ lo) {e init : ExprId}

include fits ih within low

lemma expr_continues
    {operand : Option Operand} (built : (siteOf env lir function).ExprCode h lo e code operand hi)
    (typed : HasType env.ast env.scope vars e ty)
    (here : At env f (code ++ rest) slots callers s S) : Ends (do setLast (← expression env n e)) s
    (fun _ => Continued env lir f function vars rest callers S) (Strays env lir S (Far K n h)) := by
  simp only [setLast, ends_bind, ends_modify]
  refine (ih.ends fits within low built typed here).mono ?_
  rintro r t ⟨evaluated, k, S1, slots1, goes, at1, _, _⟩
  exact ⟨k, S1, slots1, goes, at1.setLast r, within.goes (evaluated.toGoes.setLast r)⟩

lemma let_continues {x : Variable} {v : VarId} (declared : env.scope.var? v = some x)
    (owner : x.function = f) (fresh : v ∉ vars) (typed : HasType env.ast env.scope vars init x.ty)
    (built : (siteOf env lir function).ExprCode h lo init code (some operand) hi)
    (here : At env f (code ++ (.unary .declare (.slot x.slot) :: moveTo (.slot x.slot) operand) ++
      rest) slots callers s S) : Ends (do
      let value := (← expression env n init).getD .void
      setLast none
      bindVariable v value) s
      (fun _ => Continued env lir f function (v :: vars) rest callers S) (Strays env lir S (Far K n h)) := by
  have other := operand_other fits.slotted within.found within.owned declared owner fresh low (built.own typed)
  have copied : .unary .declare (.slot x.slot) :: moveTo (.slot x.slot) operand = copyTo x.slot operand := by
    rw [moveTo, if_neg (Ne.symm other)]
    rfl
  rw [copied, append_assoc] at here
  simp only [setLast, ends_bind, ends_modify]
  refine (ih.ends fits within low built typed here).mono ?_
  rintro r t ⟨evaluated, k, S1, slots1, goes, at1, _, value⟩
  have within1 := within.goes (evaluated.toGoes.setLast none)
  have sound := bindVariable_ends within1.inside v (r.getD .void) (evaluated.stored declared)
    (F := Strays env lir S (Far K n h))
  have stores := bindVariable_sets within1.inside.frames v (r.getD .void) (F := Strays env lir S (Far K n h))
  refine (sound.and stores).imp ?_ fun _ _ both => both.1
  rintro _ u ⟨⟨inside, steps, returned, _, _, bound⟩, sets, halted, world, _⟩
  have within2 : Within env f function (v :: vars) u := by
    refine ⟨⟨inside, returned.trans within1.running, ?_⟩, within.found, ?_⟩
    · exact forall_mem_cons.2 ⟨⟨_, bound⟩, within1.bound.steps steps⟩
    · exact forall_mem_cons.2 ⟨⟨x, declared, owner⟩, within.owned⟩
  cases hhalted : t.halted with
  | true =>
    have output : u.output = t.output := congrArg World.output world
    exact ⟨k, S1, slots1, goes, .of_trapped (halted.trans hhalted) (output ▸ at1.trapped hhalted), within2⟩
  | false =>
    obtain ⟨w, d, rfl, stands, hd⟩ := value hhalted operand rfl
    obtain ⟨result, rfl⟩ := at1.running hhalted
    obtain ⟨j, goes'⟩ := copyTo_passes hd other rest result callers (outside t)
    refine ⟨k + j, _, _, goes.trans goes', .of_running (halted.trans hhalted) (by rw [world]; rfl) ?_, within2⟩
    exact (at1.holds hhalted).bind fits.slotted declared owner stands sets

lemma ret_completes (leaves : lir.code? exit = some [.nullary .ret])
    (typed : HasType env.ast env.scope vars e function.returnType)
    (built : (siteOf env lir function).ExprCode h lo e code (some operand) hi) (here : At env f
      (code ++ moveTo .returnSlot operand ++ [.unary .jmp (.block exit)] ++ ending) slots callers s S) :
    Ends (do
      let value ← expression env n e
      let result ← pure (value.getD .void)
      setLast (some result)
      modify ({ · with returned := true })) s
      (fun _ t => t.stopped = true ∧ Completed env lir function.returnType true ending callers S t)
      (Strays env lir S (Far K n h)) := by
  simp only [append_assoc] at here
  simp only [setLast, ends_bind, ends_modify, ends_pure]
  refine (ih.ends fits within low built typed here).mono ?_
  rintro r t ⟨evaluated, k, S1, slots1, goes, at1, _, value⟩
  refine ⟨rfl, ?_⟩
  cases halted : t.halted with
  | true => exact Completed.after (.trapped rfl (at1.trapped halted)) goes
  | false =>
    obtain ⟨v, d, rfl, stands, hd⟩ := value halted operand rfl
    obtain ⟨result, rfl⟩ := at1.running halted
    have moves : moveTo .returnSlot operand = [.binary .mov .returnSlot operand] := by
      refine if_neg ?_
      rintro rfl
      cases hd
    rw [moves] at goes
    have left := (goes.trans (goes_result hd)).trans (goes_jmp leaves)
    exact ⟨_, _, left, by rintro ⟨⟩, fun _ => ⟨rfl, slots1, some d, rfl, fun _ _ => ⟨v, d, rfl, rfl, stands⟩⟩⟩

end

/-- **The code of statements does what running them does.** The induction is on the statements;
after a fault the rest of them is skipped. -/
lemma body_simulates (fits : Fits env lir) (ih : SimulatesExpr env lir K n)
    (leaves : lir.code? exit = some [.nullary .ret]) (within : Within env f function vars s)
    (built : (siteOf env lir function).BodyCode exit lo ids code hi ended)
    (low : function.locals.length ≤ lo) (typed : StmtsTyped env.ast env.scope f vars ids vars')
    (here : At env f (code ++ ending) slots callers s S) : Ends (ids.forM (statement env (n + 1))) s
    (fun _ => Completed env lir function.returnType ended ending callers S)
    (Strays env lir S (Far K n env.ast.depth)) := by
  induction ids generalizing vars lo code slots s S with
  | nil =>
    obtain ⟨⟩ := built
    exact .here here within.running
  | cons id ids ihBody =>
    cases halted : s.halted with
    | true =>
      refine (forM_skips (by simp [Eval.State.stopped, halted])).mono ?_
      rintro _ t rfl
      exact .trapped halted (here.trapped halted)
    | false =>
      obtain _ | ⟨head, tail⟩ := typed
      obtain ⟨node, hnode, kindOf⟩ := head.node
      have running : ¬ s.stopped = true := by simp [Eval.State.stopped, halted, within.running]
      rw [ends_forM_cons, statement, ends_bind, ends_get, if_neg running]
      cases built with
      | expr kind built below =>
        obtain ⟨rfl, ty, typed⟩ := head.parts kind
        rw [append_assoc] at here
        simp only [hnode, kindOf kind]
        refine (expr_continues fits ih within low built typed here).mono ?_
        rintro _ t ⟨k, S1, slots1, goes, at1, within1⟩
        have done := ihBody within1 below (low.trans (built.own typed).le) tail at1
        exact done.imp (fun _ _ done => done.after goes) fun _ _ strays =>
          strays.after goes fun _ far => far.add _
      | letVar kind declared built below =>
        obtain ⟨v, x, hv, rfl, typed, fresh, declared', owner, -⟩ := head.parts kind
        cases hv
        obtain rfl : _ = x := mem_unique declared declared'
        rw [append_assoc] at here
        simp only [hnode, kindOf kind]
        refine (let_continues fits ih within low declared owner fresh typed built here).mono ?_
        rintro _ t ⟨k, S1, slots1, goes, at1, within1⟩
        have done := ihBody within1 below (low.trans (built.own typed).le) tail at1
        exact done.imp (fun _ _ done => done.after goes) fun _ _ strays =>
          strays.after goes fun _ far => far.add _
      | ret kind built =>
        obtain ⟨-, function', found', typed⟩ := head.parts kind
        obtain rfl : function = function' := mem_unique within.found found'
        simp only [hnode, kindOf kind]
        refine (ret_completes fits ih within low leaves typed built here).mono ?_
        rintro _ t ⟨stopped, done⟩
        refine (forM_skips stopped).mono ?_
        rintro _ u rfl
        exact done
      | retVoid kind =>
        obtain ⟨-, function', found', void⟩ := head.parts kind
        obtain rfl : function = function' := mem_unique within.found found'
        simp only [hnode, kindOf kind, setLast, ends_bind, ends_modify, ends_pure]
        refine (forM_skips rfl).mono ?_
        rintro _ u rfl
        obtain ⟨result, rfl⟩ := here.running halted
        have valueless : ¬ function.returnType.hasValue = true := by
          rw [void]
          decide
        refine ⟨1, _, goes_jmp leaves, fun h => ?_, fun _ => ⟨rfl, slots, result, rfl,
          fun _ h => absurd h valueless⟩⟩
        cases halted.symm.trans h
      | function kind below =>
        obtain rfl := head.parts kind
        simp only [hnode, kindOf kind, ends_pure]
        exact ihBody within below low tail here

lemma block_simulates
    (fits : Fits env lir) (large : env.ast.depth + 6 ≤ K) (ih : ∀ m < n, SimulatesExpr env lir K m)
    (leaves : lir.code? exit = some [.nullary .ret]) (within : Within env f function vars s)
    (built : (siteOf env lir function).BodyCode exit lo ids code hi ended)
    (low : function.locals.length ≤ lo) (typed : StmtsTyped env.ast env.scope f vars ids vars')
    (here : At env f (code ++ ending) slots callers s S) :
    Ends (block env n ids) s (fun _ => Completed env lir function.returnType ended ending callers S)
    (Strays env lir S fun k => n + 1 ≤ k * K + K) := by
  obtain _ | _ | n := n
  · rw [block]
    exact .here here.shows (by omega) _
  · rw [block]
    cases ids with
    | nil =>
      obtain ⟨⟩ := built
      exact .here here within.running
    | cons id ids =>
      rw [ends_forM_cons, statement]
      exact .here here.shows (by omega) _
  · rw [block]
    refine (body_simulates fits (ih n (by omega)) leaves within built low typed here).imp
      (fun _ _ done => done) ?_
    exact fun _ _ strays => strays.imp fun k far => by unfold Far at far; omega

/-! ### Calls -/

lemma bindAll_holds (slotted : env.scope.Slotted) {pairs : List (VarId × Value)}
    (placed : ∀ p ∈ pairs, ∃ x d, env.scope.var? p.1 = some x ∧ x.function = g ∧ slots x.slot =
      some d ∧ Stands p.2 d) (frames : s.frames ≠ []) (holds : Holds env.scope g s slots) :
    Ends (pairs.forM fun (parameter, argument) => bindVariable parameter argument) s
    (fun _ t => Holds env.scope g t slots ∧ t.halted = s.halted ∧ outside t = outside s) F := by
  induction pairs generalizing s with
  | nil => exact ⟨holds, rfl, rfl⟩
  | cons p pairs ih =>
    obtain ⟨x, d, declared, owner, hd, stands⟩ := placed p (by simp)
    rw [ends_forM_cons]
    refine (bindVariable_sets frames p.1 p.2).mono fun _ t ⟨sets, halted, world, frames'⟩ => ?_
    have holds' := holds.bind slotted declared owner stands sets
    rw [← hd, Function.update_eq_self] at holds'
    refine (ih (fun q hq => placed q (by simp [hq])) frames' holds').mono ?_
    exact fun _ u ⟨holds'', halted', world'⟩ => ⟨holds'', halted'.trans halted, world'.trans world⟩

/-- The parameters of a call are in its first slots. -/
lemma enter_holds (slotted : env.scope.Slotted) (found : env.scope.function? g = some function)
    {values : List Value} {ds : List Datum} (stands : List.Forall₂ Stands values ds) :
    Ends (enter function.parameters values) s (fun _ t => Holds env.scope g t (fun i => ds[i]?) ∧
      t.halted = s.halted ∧ outside t = outside s) F := by
  have empty : Holds env.scope g { s with frames := ∅ :: s.frames } fun i => ds[i]? := by
    intro v x value _ _ hv
    rw [Eval.State.var?_cons] at hv
    simp at hv
  refine bindAll_holds slotted (fun p hp => ?_) (by simp) empty
  obtain ⟨i, hi⟩ := mem_iff_getElem?.1 hp
  obtain ⟨hparameter, hvalue⟩ := getElem?_zip_eq_some.1 hi
  obtain ⟨more, locals⟩ := slotted.parameters g function found
  have hlocal : function.locals[i]? = some p.1 := by
    rw [← locals, getElem?_append_left (List.getElem?_eq_some_iff.1 hparameter).1, hparameter]
  obtain ⟨x, declared, owner, rfl⟩ := slotted.slot g function i p.1 found hlocal
  obtain ⟨lt, hvalue⟩ := List.getElem?_eq_some_iff.1 hvalue
  have lt' : x.slot < ds.length := stands.length_eq ▸ lt
  have stands' : Stands values[x.slot] ds[x.slot] := stands.get lt lt'
  exact ⟨x, _, declared, owner, getElem?_eq_getElem lt', hvalue ▸ stands'⟩

lemma default_stands {site : Site} (strings : site.strings = lir.strings) (default : site.Default ty operand)
    (proper : ty.IsProper) (hasValue : ty.hasValue = true) :
    ∃ d, operandValue lir.strings slots operand = some d ∧ Stands (Value.defaultOf ty) d := by
  obtain ⟨resolved, correct⟩ := proper
  cases default with
  | string placed =>
    rw [strings] at placed
    exact ⟨.text "", congrArg (Option.map Datum.text) placed, .string ""⟩
  | word word =>
    refine ⟨.word 0, rfl, ?_⟩
    cases ty with
    | int => exact .number 0
    | bool => exact .bool false
    | string => exact absurd rfl word
    | void => cases hasValue
    | unresolved => exact absurd rfl resolved
    | error => exact absurd rfl correct

lemma defaultReturn_gives (function : EmLang.Function) (s : Eval.State) :
    Ends (defaultReturn function) s (fun v t => v = Value.defaultOf function.returnType ∧
      t.halted = s.halted ∧ outside t = outside s) F := by
  simp only [defaultReturn]
  split <;> exact ⟨rfl, rfl, rfl⟩

section

variable (b : Builds env.ast env.scope lir g function) (proper : function.returnType.IsProper)
  (name : function.name ≠ "main")

include b proper name

lemma ending_goes (open_ : b.ended = false) (slots : Slot → Option Datum)
    (result : Option Datum) (world : World) :
    ∃ k result', Goes lir env.clock k (.running ⟨⟨b.ending, slots, result⟩, callers, world⟩)
    (.running ⟨⟨[.nullary .ret], slots, result'⟩, callers, world⟩) ∧ (function.returnType.hasValue =
      true → ∃ d, result' = some d ∧ Stands (Value.defaultOf function.returnType) d) := by
  have built := b.endBuilt
  rw [open_] at built
  generalize b.ending = ending at built ⊢
  cases built with
  | main main => exact absurd main name
  | default _ value default =>
    obtain ⟨d, hd, stands⟩ := default_stands rfl default proper value
    exact ⟨_, some d, (goes_result hd).trans (goes_jmp b.exitCode), fun _ => ⟨d, rfl, stands⟩⟩
  | void _ valueless =>
    refine ⟨1, result, goes_jmp b.exitCode, fun value => ?_⟩
    nomatch valueless.symm.trans value

/-- Behind the statements of a function its value is brought to the caller. -/
lemma leave_simulates {a : Activation Datum}
    (done : Completed env lir function.returnType b.ended b.ending ((function.returnType, a) :: callers) S t) :
    Ends (leave function) t (Returned env lir function.returnType a callers S) F := by
  obtain ⟨k, S', goes, trapped, running⟩ := done
  simp only [leave, closeFrame, ends_bind, ends_modify, ends_get, ends_pure, ends_ite]
  refine ⟨fun returned => ?_, fun unreturned => (defaultReturn_gives function _).mono ?_⟩
  · cases halted : t.halted with
    | true => exact ⟨k, S', goes, fun _ => trapped halted, by rintro ⟨⟩⟩
    | false =>
      obtain ⟨ended, slots, result, rfl, value⟩ := running halted
      have ended : b.ended = true := ended.symm.trans returned
      rw [if_pos ended] at goes
      refine ⟨_, _, goes.trans goes_ret, by rintro ⟨⟩, fun _ => ⟨result, rfl, fun hasValue => ?_⟩⟩
      obtain ⟨v, d, last, hd, stands⟩ := value ended hasValue
      rw [last]
      exact ⟨d, hd, stands⟩
  · rintro _ u ⟨rfl, same, world⟩
    have output : u.output = t.output := congrArg World.output world
    cases halted : t.halted with
    | true =>
      refine ⟨k, S', goes, fun _ => ?_, fun h => ?_⟩
      · rw [trapped halted, output]
      · cases (same.trans halted).symm.trans h
    | false =>
      obtain ⟨ended, slots, result, rfl, -⟩ := running halted
      have open_ : b.ended = false := by simpa [ended] using unreturned
      rw [open_, if_neg Bool.false_ne_true] at goes
      obtain ⟨j, result', goes', value⟩ := ending_goes b proper name open_ slots result (outside t)
      refine ⟨_, _, (goes.trans goes').trans goes_ret, fun h => ?_, fun _ => ⟨result', ?_, value⟩⟩
      · cases (same.trans halted).symm.trans h
      · exact congrArg (fun world => Progress.running ⟨a.resume function.returnType result',
          callers, world⟩) world.symm

end

variable (fits : Fits env lir) (large : env.ast.depth + 6 ≤ K)

include fits large

/-- **The code of a function does what a call of it does.** -/
lemma call_simulates (ih : ∀ m < n, SimulatesExpr env lir K m) :
    SimulatesCall env lir K (n + 1) := by
  intro f g
    function xs values ds s a callers b S found notMain declared types stands inside running unhalted start
  obtain ⟨report, checked⟩ := fits.checked
  obtain ⟨vars, bodyTyped⟩ := checked.bodies g function found
  have slotted := checked.slotted
  have name : function.name ≠ "main" := by
    intro name
    obtain ⟨main, foundMain, named, -⟩ := checked.main
    exact notMain (checked.names g Scope.main function main found foundMain (name.trans named.symm))
  rw [ends_call env found]
  have sound := enter_ends g (F := Strays env lir S fun k => n + 1 ≤ k * K + K) declared types inside running
  have holds := enter_holds slotted found stands (s := s) (F := Strays env lir S fun k => n + 1 ≤ k * K + K)
  refine (sound.and holds).imp ?_ fun _ _ both => both.1
  intro _ t ⟨⟨fit, _, _⟩, holds, halted, world⟩
  have owned : Owned env.scope g function.parameters.reverse := by
    intro v hv
    obtain ⟨more, locals⟩ := slotted.parameters g function found
    have local_ : v ∈ function.locals := locals ▸ mem_append_left more (mem_reverse.1 hv)
    obtain ⟨i, hi⟩ := mem_iff_getElem?.1 local_
    obtain ⟨x, hx, owner, -⟩ := slotted.slot g function i v found hi
    exact ⟨x, hx, owner⟩
  have within : Within env g function function.parameters.reverse t := ⟨fit, found, owned⟩
  have here : At env g (b.body ++ b.ending) (fun i => ds[i]?) ((function.returnType, a) :: callers) t S :=
    .of_running (halted.trans unhalted) (by rw [start, world]; rfl) holds
  refine (block_simulates fits large ih b.exitCode within b.bodyBuilt le_rfl bodyTyped here).mono ?_
  exact fun _ u done => leave_simulates b (checked.ready.returns g function found) name done

/-- **Built code does what the evaluator does**, whatever the bound on the depth. -/
theorem simulates (n : Nat) : SimulatesExpr env lir K n ∧ SimulatesCall env lir K n := by
  induction n using Nat.strong_induction_on with
  | h n ih =>
    cases n with
    | zero =>
      constructor
      · intro f function vars ty h lo e code operand hi s slots rest callers S within built low typed here
        rw [expression]
        exact .here here.shows (by unfold Far; omega) _
      · intro f g function xs values ds s a callers b S found _ _ _ _ _ _ unhalted start
        rw [call, ends_throw]
        have shows : Shows s S :=
          ⟨fun halted => (by cases halted.symm.trans unhalted), fun _ => ⟨_, start, rfl⟩⟩
        exact .here shows (by omega) _
    | succ n =>
      constructor
      · exact expression_simulates fits (ih n (by omega)).1 (ih n (by omega)).2
      · exact call_simulates fits large fun m hm => (ih m (by omega)).1

end EmLang.Lir
