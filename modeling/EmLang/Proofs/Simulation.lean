import EmLang.Proofs.Matching

/-!
The code of an expression does what evaluating it does. The induction is on the bound on the depth,
and follows the evaluator: it goes through states that a fault has halted as well, where the run on
blocks stays where it has trapped.
-/

namespace EmLang.Lir

open Eval List Option

variable {op : BinaryOp} {b : Builtin} {d : Datum} {F : Eval.Fault → Eval.State → Prop} {g : FunId}
  {later : List ExprId} {code' copy : List Instr} {ids : List StmtId} {tys types : List Ty}
  {values : List Value} {xs : List Variable} {k : Nat} {kept : Operand} {mid' : Slot} {v : VarId}
  {x : Variable} {r : Option Value} {result : Option Datum}

variable {env : Eval.Env} {lir : Lir} {f : FunId} {function : EmLang.Function} {vars : List VarId}
  {s t : Eval.State} {slots slots' slots'' : Slot → Option Datum}
  {callers : List (Ty × Activation Datum)} {S S' : Progress} {code rest : List Instr}
  {operand : Option Operand}

/-- What the code of a function refers to. -/
def siteOf (env : Eval.Env) (lir : Lir) (function : EmLang.Function) : Site :=
  ⟨env.ast, env.scope, lir.strings, function.locals.length⟩

/-- The run on blocks goes through the code to what stands behind it; the operand then holds the
value `r`. -/
def Simulated (env : Eval.Env) (lir : Lir) (f : FunId)
    (code rest : List Instr) (slots : Slot → Option Datum) (callers : List (Ty × Activation Datum))
    (operand : Option Operand) (S : Progress) (r : Option Value) (t : Eval.State) : Prop :=
  ∃ k S' slots', Goes lir env.clock k S S' ∧ At env f rest slots' callers t S' ∧
    (∀ i ∉ writes code, slots' i = slots i) ∧
    (t.halted = false → ∀ o, operand = some o →
      ∃ v d, r = some v ∧ Stands v d ∧ operandValue lir.strings slots' o = some d)

/-- Code in front of simulated code. -/
lemma unwritten_append (h : ∀ i ∉ writes code, slots' i = slots i) (h' : ∀ i ∉ writes code',
      slots'' i = slots' i) : ∀ i ∉ writes (code ++ code'), slots'' i = slots i := by
  intro i hi
  simp only [writes_append, mem_append, not_or] at hi
  rw [h' i hi.2, h i hi.1]

lemma Simulated.after (h : Simulated env lir f code' rest slots' callers operand S' r t)
    (goes : Goes lir env.clock k S S') (same : ∀ i ∉ writes code, slots' i = slots i) :
    Simulated env lir f (code ++ code') rest slots callers operand S r t := by
  obtain ⟨j, T, slots'', goes', here, same', value⟩ := h
  exact ⟨k + j, T, slots'', goes.trans goes', here, unwritten_append same same', value⟩

lemma Simulated.after_call {callee : Operand} (goes : Goes lir env.clock k S S')
    (h : Simulated env lir f code rest slots callers operand S' r t) :
    Simulated env lir f (.unary .call callee :: code) rest slots callers operand S r t := by
  show Simulated env lir f ([.unary .call callee] ++ code) rest slots callers operand S r t
  exact h.after goes fun _ _ => rfl

/-- Where a fault has halted the run, the code is passed over. -/
lemma Simulated.trapped (halted : t.halted = true) (h : S = .trapped t.output) :
    Simulated env lir f code rest slots callers operand S r t :=
  ⟨0, S, slots, .refl S, .of_trapped halted h, fun _ _ => rfl,
  fun unhalted => by cases halted.symm.trans unhalted⟩

/-- A bound on the depth of `n` is used up only after so many steps, where the code is for `h`
nodes. -/
def Far (K n h k : Nat) : Prop := n ≤ k * K + h + 3

lemma Far.parent {K h n : Nat} (far : Far K n h k) : Far K (n + 1) (h + 1) k := by
  unfold Far at *
  omega

lemma Far.add {K h n : Nat} (far : Far K n h k) (j : Nat) : Far K n h (j + k) := by
  unfold Far at *
  rw [Nat.add_mul]
  omega

/-- With the bound `n` on the depth, expressions are simulated by their code. -/
def SimulatesExpr (env : Eval.Env) (lir : Lir) (K n : Nat) : Prop :=
  ∀ f function vars ty h lo e code operand hi s slots rest callers S, Within env f function vars s →
    (siteOf env lir function).ExprCode h lo e code operand hi → function.locals.length ≤ lo →
    HasType env.ast env.scope vars e ty → At env f (code ++ rest) slots callers s S →
    Ends (expression env n e) s (Simulated env lir f code rest slots callers operand S)
    (Strays env lir S (Far K n h))

section Expressions

variable {K n h : Nat} {lo mid hi i : Slot} {e : ExprId} {ty : Ty} {operand : Operand}

/-- The last instruction leaves the value in a slot. -/
lemma Simulated.written {v : Value} (goes : Goes lir env.clock k S
      (.running ⟨⟨rest, Function.update slots i (some d), result⟩, callers, outside t⟩))
    (unhalted : t.halted = false) (holds : Holds env.scope f t (Function.update slots i (some d)))
    (same : ∀ j ∉ writes code, Function.update slots i (some d) j = slots j) (stands : Stands v d) :
    Simulated env lir f code rest slots callers (some (.slot i)) S (some v) t := by
  refine ⟨k, _, _, goes, .of_running unhalted rfl holds, same, fun _ o ho => ?_⟩
  cases ho
  exact ⟨v, d, rfl, stands, Function.update_self ..⟩

/-- A temporary may be written. -/
lemma Holds.temporary (holds : Holds env.scope f t slots) (fits : Fits env lir)
    (found : env.scope.function? f = some function) (high : function.locals.length ≤ i)
    (d : Option Datum) : Holds env.scope f t (Function.update slots i d) :=
  holds.temporaries fits.slotted found fun _ hj => Function.update_of_ne (Nat.ne_of_lt (hj.trans_le high)) _ _

lemma evaluated_number (h : Eval.Evaluated env.scope f .int s r t) (unhalted : t.halted = false)
    {P : Datum → Prop} (value : ∃ v d, r = some v ∧ Stands v d ∧ P d) :
    ∃ n, r = some (.number n) ∧ P (.word n) := by
  obtain ⟨v, d, rfl, stands, brought⟩ := value
  obtain ⟨_, ⟨⟩, hv⟩ := h.value unhalted
  obtain ⟨n, rfl⟩ := Value.eq_number hv
  obtain ⟨⟩ := stands
  exact ⟨n, rfl, brought⟩

lemma moveTo_unwritten {t : Slot} (h : operandValue lir.strings slots operand = some d) :
    ∀ i ∉ writes (moveTo (.slot t) operand), Function.update slots t (some d) i = slots i := by
  intro i hi
  unfold moveTo at hi
  split_ifs at hi with same
  · subst same
    have here : slots t = some d := h
    rw [← here, Function.update_eq_self]
  · exact update_unwritten (by simp [writes, Instr.target?]) i hi

/-- What an operator makes of two numbers is what its instruction makes of two words. -/
lemma operate_simulates (arithmetic : op.isComparison = false) (l r : Int64) (span : Text.Span) :
    ∃ operation, (Build.opcodeOf op).operation? = some operation ∧
    Ends (operate op (.number l) (.number r) span) s
    (fun v t => t.frames = s.frames ∧ outside t = outside s ∧ match operation l r with
        | some n => v = .number n ∧ t.halted = s.halted
        | none => t.halted = true) F := by
  have divides : ∀ (op : BinaryOp) (q : Int64), q = (if op = .div then l / r else l % r) →
      Ends (divide op l r span) s (fun v t => t.frames = s.frames ∧ outside t = outside s ∧
        match (if HasQuotient l r then some q else none) with
        | some n => v = .number n ∧ t.halted = s.halted
        | none => t.halted = true) F := by
    intro op q hq
    by_cases quotient : HasQuotient l r
    · obtain ⟨nonzero, inRange⟩ := quotient
      simp only [divide, nonzero, if_false, inRange, ends_pure,
        if_pos (show HasQuotient l r from ⟨nonzero, inRange⟩), hq]
      trivial
    · simp only [divide, if_neg quotient]
      by_cases zero : r = 0
      · rw [if_pos zero]
        exact ⟨rfl, rfl, rfl⟩
      · have overflow : l = Int64.minValue ∧ r = -1 := by_contra fun h => quotient ⟨zero, h⟩
        rw [if_neg zero, if_pos overflow]
        exact ⟨rfl, rfl, rfl⟩
  cases op with
  | add | sub | mul => exact ⟨_, rfl, rfl, rfl, rfl, rfl⟩
  | div => exact ⟨_, rfl, divides .div (l / r) rfl⟩
  | rem => exact ⟨_, rfl, divides .rem (l % r) rfl⟩
  | eq | ne | lt | gt | le | ge => cases arithmetic

/-- An expression that has no code: its operand stands for its value. -/
lemma Simulated.here {v : Value} (here : At env f rest slots callers s S)
    (stands : Stands v d) (value : operandValue lir.strings slots operand = some d) :
    Simulated env lir f [] rest slots callers (some operand) S (some v) s := by
  refine ⟨0, S, slots, .refl S, here, fun _ _ => rfl, fun _ o ho => ?_⟩
  cases ho
  exact ⟨v, d, rfl, stands, value⟩

lemma var_simulates (within : Within env f function vars s) (seen : v ∈ vars)
    (declared : env.scope.var? v = some x) (here : At env f rest slots callers s S) (name : String) : Ends (do
      match (some v).bind (← get).var? with
      | some value => return some value
      | none => throw (.unbound name)) s
      (Simulated env lir f [] rest slots callers (some (.slot x.slot)) S) (Strays env lir S (Far K n h)) := by
  obtain ⟨value, hvalue⟩ := within.bound v seen
  simp only [ends_bind, ends_get, bind_some, hvalue, ends_pure]
  obtain ⟨y, hy, owned⟩ := within.owned v seen
  rw [declared, some.injEq] at hy
  subst hy
  refine ⟨0, S, slots, .refl S, here, fun _ _ => rfl, fun unhalted o ho => ?_⟩
  cases ho
  obtain ⟨d, hd, stands⟩ := here.holds unhalted v x value declared owned hvalue
  exact ⟨value, d, rfl, stands, hd⟩

section

variable (fits : Fits env lir) (ih : SimulatesExpr env lir K n)
  (within : Within env f function vars s) (low : function.locals.length ≤ lo)

include fits ih within low

/-- Typing and simulation of an expression together. -/
lemma SimulatesExpr.ends
    {operand : Option Operand} (built : (siteOf env lir function).ExprCode h lo e code operand hi)
    (typed : HasType env.ast env.scope vars e ty)
    (here : At env f (code ++ rest) slots callers s S) :
    Ends (expression env n e) s (fun r t => Eval.Evaluated env.scope f ty s r t ∧
      Simulated env lir f code rest slots callers operand S r t) (Strays env lir S (Far K n h)) :=
    by
  have sound := (soundAt fits.checked n).expression f vars e ty s typed within.toFit
  have simulated :=
    ih f function vars ty h lo e code operand hi s slots rest callers S within built low typed here
  exact (sound.and simulated).imp (fun _ _ both => both) fun _ _ both => both.2

/-- Behind the code of an expression a piece of code that only writes temporaries brings the value
where it is asked for, while the tree is left alone. There is a value unless a fault has halted the
run. -/
lemma SimulatesExpr.brings {P : Datum → (Slot → Option Datum) → Prop}
    (built : (siteOf env lir function).ExprCode h lo e code (some operand) mid)
    (typed : HasType env.ast env.scope vars e ty)
    (here : At env f (code ++ (copy ++ rest)) slots callers s S) (high : ∀ i ∈ writes copy, mid ≤ i)
    (run : ∀ {slots d}, operandValue lir.strings slots operand = some d → ∃ slots',
      Passes lir env.clock copy slots slots' ∧ P d slots' ∧ ∀ i ∉ writes copy, slots' i = slots i) :
    Ends (expression env n e) s
    (fun r t => Eval.Evaluated env.scope f ty s r t ∧ ∃ k S' slots', Goes lir env.clock k S S' ∧
      At env f rest slots' callers t S' ∧ (∀ i ∉ writes (code ++ copy), slots' i = slots i) ∧
      (t.halted = false → ∃ v d, r = some v ∧ Stands v d ∧ P d slots'))
    (Strays env lir S (Far K n h)) := by
  refine (ih.ends fits within low built typed here).mono ?_
  rintro r t ⟨evaluated, k, S1, slots1, goes, at1, same, value⟩
  refine ⟨evaluated, ?_⟩
  cases halted : t.halted with
  | true =>
    refine ⟨k, S1, slots1, goes, .of_trapped halted (at1.trapped halted), fun i hi => same i ?_, by rintro ⟨⟩⟩
    exact fun h => hi (by simp [h])
  | false =>
    obtain ⟨result, rfl⟩ := at1.running halted
    obtain ⟨v, d, hv, stands, hd⟩ := value halted operand rfl
    obtain ⟨slots', passes, brought, same'⟩ := run hd
    obtain ⟨j, goes'⟩ := passes rest result callers (outside t)
    refine ⟨k + j, _, slots', goes.trans goes', .of_running halted rfl ?_,
      unwritten_append same same', fun _ => ⟨v, d, hv, stands, brought⟩⟩
    refine (at1.holds halted).temporaries fits.slotted within.found fun i hi => same' i fun hw => ?_
    exact absurd ((low.trans (built.own typed).le).trans (high i hw)) (Nat.not_le.2 hi)

lemma assign_simulates (seen : v ∈ vars) (declared : env.scope.var? v = some x)
    (typed : HasType env.ast env.scope vars e x.ty)
    (built : (siteOf env lir function).ExprCode h lo e code (some operand) hi)
    (here : At env f (code ++ moveTo (.slot x.slot) operand ++ rest) slots callers s S) : Ends (do
      let value := (← expression env n e).getD .void
      bindVariable v value
      return some value) s
      (Simulated env lir f (code ++ moveTo (.slot x.slot) operand) rest slots callers (some (.slot x.slot)) S)
      (Strays env lir S (Far K (n + 1) (h + 1))) := by
  rw [append_assoc] at here
  simp only [ends_bind, ends_pure]
  refine (ih.ends fits within low built typed here).imp ?_ fun _ _ strays => strays.imp fun _ => Far.parent
  intro r t ⟨evaluated, k, S1, slots1, goes, at1, same, value⟩
  refine (bindVariable_sets evaluated.inside.frames v (r.getD .void)).mono
    fun _ u ⟨sets, halted, world, _⟩ => ?_
  have output : u.output = t.output := congrArg World.output world
  cases hhalted : t.halted with
  | true => exact (Simulated.trapped (halted.trans hhalted) (output ▸ at1.trapped hhalted)).after goes same
  | false =>
    obtain ⟨w, d, rfl, stands, hd⟩ := value hhalted operand rfl
    obtain ⟨result, rfl⟩ := at1.running hhalted
    obtain ⟨j, goes'⟩ := moveTo_passes (t := x.slot) hd rest result callers (outside t)
    obtain ⟨x', declared', owned⟩ := within.owned v seen
    rw [declared, some.injEq] at declared'
    subst declared'
    have holds := (at1.holds hhalted).bind fits.slotted declared owned stands sets
    rw [← world] at goes goes'
    exact (Simulated.written goes' (halted.trans hhalted) holds (moveTo_unwritten hd) stands).after goes same

lemma binary_simulates
    {left right : ExprId} {a b : Ty} (leftTyped : HasType env.ast env.scope vars left a)
    (rightTyped : HasType env.ast env.scope vars right b)
    (yields : op.Yields a b ty) (arithmetic : op.isComparison = false) (words : a ≠ .string)
    {l r : Operand} {t : Slot} (first : (siteOf env lir function).ExprCode h lo left code (some l) mid)
    (held : (siteOf env lir function).Held mid l copy t mid')
    (second : (siteOf env lir function).ExprCode h mid' right code' (some r) hi) (here : At env f
      (code ++ copy ++ code' ++ [.binary (Build.opcodeOf op) (.slot t) r] ++ rest) slots callers s S)
    (span : Text.Span) : Ends (do
      let l := (← expression env n left).getD .void
      let r := (← expression env n right).getD .void
      if ← isHalted then return none else some <$> operate op l r span) s
      (Simulated env lir f (code ++ copy ++
        code' ++ [.binary (Build.opcodeOf op) (.slot t) r]) rest slots callers (some (.slot t)) S)
        (Strays env lir S (Far K (n + 1) (h + 1))) := by
  obtain ⟨rfl, rfl⟩ := yields_words yields arithmetic words
  have own := first.own leftTyped
  have low1 := low.trans own.le
  have kept := held.own own
  have unwritten : t ∉ writes code' := temporary_unwritten fits.slotted within.found within.owned
    (kept.operands t (by simp)) (held.high low1) (second.own rightTyped)
  simp only [append_assoc] at here
  simp only [isHalted, ends_bind, ends_get, ends_pure, ends_ite, ends_map]
  refine (ih.brings fits within low first leftTyped here held.writes_le (held.passes env.clock low1)).imp ?_
    fun _ _ strays => strays.imp fun _ => Far.parent
  rintro lv s1 ⟨evaluated1, k1, S1, slots1, goes1, at1, same1, value1⟩
  refine (ih.ends fits (within.goes evaluated1.toGoes) (low.trans kept.le) second rightTyped at1).imp ?_
    fun _ _ strays => strays.after goes1 fun _ far => (far.add _).parent
  rintro rv s3 ⟨evaluated3, k3, S3, slots3, goes3, at3, same3, value3⟩
  have goes := goes1.trans goes3
  have same := unwritten_append same1 same3
  refine ⟨fun halted => (Simulated.trapped halted (at3.trapped halted)).after goes same, fun unhalted => ?_⟩
  have unhalted : s3.halted = false := by simpa using unhalted
  have unhalted1 := evaluated3.steps.unhalted unhalted
  obtain ⟨x, rfl, hd⟩ := evaluated_number evaluated1 unhalted1 (value1 unhalted1)
  obtain ⟨y, rfl, hd'⟩ := evaluated_number evaluated3 unhalted (value3 unhalted r rfl)
  obtain ⟨result, rfl⟩ := at3.running unhalted
  obtain ⟨operation, hop, operated⟩ := operate_simulates arithmetic x y span
  refine operated.mono ?_
  rintro w s4 ⟨frames, world, outcome⟩
  have done : Goes lir env.clock 1 (.running ⟨⟨_ :: rest, slots3, result⟩, callers, outside s3⟩) _ :=
    goes_operation hop ((same3 t unwritten).trans hd) hd'
  rw [← world] at goes done
  cases hw : operation x y with
  | none =>
    rw [hw] at outcome done
    exact (Simulated.trapped outcome rfl).after (goes.trans done) same
  | some z =>
    rw [hw] at outcome done
    obtain ⟨rfl, halted⟩ := outcome
    have holds := ((at3.holds unhalted).same frames).temporary fits within.found (held.high low1)
      (some (.word z))
    refine (Simulated.written done (halted.trans unhalted) holds (update_unwritten ?_)
      (.number z)).after goes same
    simp [writes, Instr.target?]

lemma negate_simulates (typed : HasType env.ast env.scope vars e .int) {t : Slot}
    (built : (siteOf env lir function).ExprCode h lo e code (some operand) mid)
    (held : (siteOf env lir function).Held mid operand copy t hi)
    (here : At env f (code ++ copy ++ [.unary .neg (.slot t)] ++ rest) slots callers s S) : Ends (do
      let value := (← expression env n e).getD .void
      if ← isHalted then return none else return some (.number (-(← expectNumber value)))) s
      (Simulated env lir f (code ++ copy ++ [.unary .neg (.slot t)]) rest slots callers (some (.slot t)) S)
      (Strays env lir S (Far K (n + 1) (h + 1))) := by
  have low1 := low.trans (built.own typed).le
  simp only [append_assoc] at here
  simp only [isHalted, ends_bind, ends_get, ends_pure, ends_ite]
  refine (ih.brings fits within low built typed here held.writes_le (held.passes env.clock low1)).imp ?_
    fun _ _ strays => strays.imp fun _ => Far.parent
  rintro r s1 ⟨evaluated, k, S1, slots1, goes, at1, same, value⟩
  refine ⟨fun halted => (Simulated.trapped halted (at1.trapped halted)).after goes same, fun unhalted => ?_⟩
  have unhalted : s1.halted = false := by simpa using unhalted
  obtain ⟨x, rfl, hd⟩ := evaluated_number evaluated unhalted (value unhalted)
  obtain ⟨result, rfl⟩ := at1.running unhalted
  have holds := (at1.holds unhalted).temporary fits within.found (held.high low1) (some (.word (-x)))
  refine (Simulated.written (goes_neg hd) unhalted holds (update_unwritten ?_) (.number (-x))).after goes same
  simp [writes, Instr.target?]

end

end Expressions

section Calls

variable {K n h : Nat} {lo mid hi : Slot}

/-- The arguments of a call, kept in operands. -/
def Gathered (env : Eval.Env) (lir : Lir) (f : FunId) (code rest : List Instr) (slots : Slot → Option Datum)
    (callers : List (Ty × Activation Datum)) (operands : List Operand) (S : Progress) (r : Option (List Value))
    (t : Eval.State) : Prop :=
  ∃ k S' slots', Goes lir env.clock k S S' ∧ At env f rest slots' callers t S' ∧
    (∀ i ∉ writes code, slots' i = slots i) ∧
    ∀ values, r = some values → t.halted = false → ∃ ds, Forall₂ Stands values ds ∧
      Forall₂ (fun o d => operandValue lir.strings slots' o = some d) operands ds

variable {operands : List Operand} {arguments : List ExprId} {answer : List Instr} {operand : Option Operand}
  {r : Option Value}

/-- What is kept for a call is left alone by the code of the later arguments. -/
lemma kept_unwritten {site : Site} (slotted : site.scope.Slotted) (found : site.scope.function? f =
      some function) (owned : Owned site.scope f vars) (count : site.declared =
      function.locals.length) {operand : Operand} (first : site.OwnSlots vars lo mid code [operand])
    (low : function.locals.length ≤ lo) (keeps : site.Kept later mid operand copy kept mid')
    (tail : site.ArgsCode h mid' later code' operands hi)
    (typed : HasTypes site.ast site.scope vars later tys) :
    ∀ i, kept = .slot i → i ∉ writes code' := by
  intro i hi
  obtain high | small := le_or_gt function.locals.length i
  · exact temporary_unwritten slotted found owned ((keeps.own first).operands i (by simp [hi])) high
      (tail.own typed)
  · -- A variable is kept as it is only where all later arguments are plain reads.
    cases keeps with
    | safe safe =>
      obtain temporary | plain := safe i hi
      · exact absurd temporary (Nat.not_le.2 (count ▸ small))
      · intro written
        have high := (low.trans first.le).trans (tail.plain plain i written)
        exact absurd high (Nat.not_le.2 small)
    | copied _ =>
      cases hi
      exact absurd (low.trans first.le) (Nat.not_le.2 small)

/-! ### Built-in operations -/

lemma builtin_performs {ds : List Datum}
    (site : Site) (typed : HasTypes site.ast site.scope vars arguments types) (takes : b.Takes types)
    (types' : values.map Value.type = types) (stands : Forall₂ Stands values ds) :
    Ends (callBuiltin env b values) s (fun v t => t.frames = s.frames ∧ t.halted = s.halted ∧
      ∃ answer, (site.routine arguments b).perform env.clock ds (outside s) = some (answer, outside t) ∧
      ((site.routine arguments b).returnType.hasValue = true → ∃ d, answer = some d ∧ Stands v d)) F :=
    by
  cases takes with
  | @print ty value =>
    obtain _ | ⟨head, ⟨⟩⟩ := typed
    obtain ⟨kind, here⟩ := hasType_node head
    obtain ⟨v, rfl⟩ : ∃ v, values = [v] := length_eq_one_iff.1 (by simpa using congrArg length types')
    obtain _ | ⟨stands, ⟨⟩⟩ := stands
    have ofType : v.type = ty := by simpa using types'
    have routine e (here : site.ast.node? e = some (kind, ty)) : site.routine [e] .print =
        .printing (some ty) := by
      simp [Site.routine, here]
    rw [routine _ here, ← ofType]
    cases stands with
    | number n => exact ⟨rfl, rfl, none, rfl, by rintro ⟨⟩⟩
    | bool b => cases b <;> exact ⟨rfl, rfl, none, rfl, by rintro ⟨⟩⟩
    | string text => exact ⟨rfl, rfl, none, rfl, by rintro ⟨⟩⟩
  | tick =>
    obtain rfl : values = [] := map_eq_nil_iff.1 types'
    obtain ⟨⟩ := stands
    exact ⟨rfl, rfl, _, rfl, fun _ => ⟨_, rfl, .number _⟩⟩
  | toText =>
    obtain ⟨v, rfl⟩ : ∃ v, values = [v] := length_eq_one_iff.1 (by simpa using congrArg length types')
    obtain _ | ⟨stands, ⟨⟩⟩ := stands
    obtain ⟨n, rfl⟩ := Value.eq_number (by simpa using types')
    obtain ⟨⟩ := stands
    exact ⟨rfl, rfl, _, rfl, fun _ => ⟨_, rfl, .string _⟩⟩

/-- Behind a call the caller goes on with its value. -/
lemma answered_at {returnType : Ty} (fits : Fits env lir) (found : env.scope.function? f = some function)
    (answered : Site.Answer returnType mid answer operand hi)
    (low : function.locals.length ≤ mid) (unhalted : s.halted = false) (holds : Holds env.scope f s slots)
    {v : Value} (value : returnType.hasValue = true → ∃ d, result = some d ∧ Stands v d) :
    Simulated env lir f answer rest slots callers operand
    (.running ⟨⟨answer ++ rest, slots, if returnType.hasValue then result else none⟩, callers, outside s⟩)
    (some v) s := by
  obtain ⟨k, slots', result', goes, operands, same⟩ := answered.goes env.clock value
  refine ⟨k, _, slots', goes, .of_running unhalted rfl ?_, same, fun _ o ho => ?_⟩
  · refine holds.temporaries fits.slotted found fun i hi => same i fun hw => ?_
    exact absurd (low.trans (answered.writes_le i hw)) (Nat.not_le.2 hi)
  · obtain ⟨d, stands, hd⟩ := operands o ho
    exact ⟨v, d, rfl, stands, hd⟩

/-! ### Calls inside the program -/

/-- The run on blocks comes back from a call with its value `v` to the caller `a`. -/
def Returned (env : Eval.Env) (lir : Lir) (returnType : Ty) (a : Activation Datum)
    (callers : List (Ty × Activation Datum)) (S : Progress) (v : Value) (t : Eval.State) : Prop :=
  ∃ k S', Goes lir env.clock k S S' ∧ (t.halted = true → S' = .trapped t.output) ∧
    (t.halted = false → ∃ result, S' = .running ⟨a.resume returnType result, callers, outside t⟩ ∧
      (returnType.hasValue = true → ∃ d, result = some d ∧ Stands v d))

/-- With the bound `n` on the depth, calls are simulated by the code of the callee. -/
def SimulatesCall (env : Eval.Env) (lir : Lir) (K n : Nat) : Prop :=
  ∀ f g function (xs : List Variable) values ds s a callers
    (b : Builds env.ast env.scope lir g function) S, env.scope.function? g = some function →
    g ≠ Scope.main → function.parameters.map env.scope.var? = xs.map some → values.map Value.type =
    xs.map Variable.ty → Forall₂ Stands values ds → Eval.Inside env.scope f s →
    s.returned = false → s.halted = false → S = .running ⟨.enter (b.body ++ b.ending) ds,
    (function.returnType, a) :: callers, outside s⟩ → Ends (call env n g values) s
    (Returned env lir function.returnType a callers S) (Strays env lir S fun k => n ≤ k * K + K)

lemma block_skips (stopped : s.stopped = true) :
    Ends (block env n ids) s (fun _ t => t = s) fun _ t => n ≤ 1 ∧ t = s := by
  obtain _ | _ | n := n
  · rw [block]
    exact ⟨by omega, rfl⟩
  · cases ids with
    | nil =>
      rw [block]
      exact rfl
    | cons id ids =>
      rw [block, ends_forM_cons, statement]
      exact ⟨le_rfl, rfl⟩
  · rw [block]
    exact forM_skips stopped

/-- A call that begins after a fault does nothing, which takes a small bound. -/
lemma call_skips (found : env.scope.function? g = some function)
    (declared : function.parameters.map env.scope.var? = xs.map some)
    (typed : values.map Value.type = xs.map Variable.ty) (inside : Eval.Inside env.scope f s)
    (running : s.returned = false) (halted : s.halted = true) : Ends (call env n g values) s
    (fun _ _ => True) fun _ t => n ≤ 2 ∧ t.halted = true ∧ t.output = s.output := by
  obtain _ | n := n
  · rw [call]
    exact ⟨by omega, halted, rfl⟩
  rw [ends_call env found]
  refine (enter_ends g declared typed inside running).mono ?_
  rintro _ t ⟨_, _, rests⟩
  obtain ⟨halted', output⟩ := rests.halted halted
  refine (block_skips (by simp [Eval.State.stopped, halted'])).imp (fun _ u _ => ?_) ?_
  · simp only [leave, defaultReturn, ends_bind, ends_get, ends_ite, ends_pure]
    refine ⟨fun _ => trivial, fun _ => ?_⟩
    split <;> trivial
  · rintro _ u ⟨small, same⟩
    exact ⟨by omega, same ▸ halted', same ▸ output⟩

/-! ### Calls -/

section

variable (fits : Fits env lir) (ih : SimulatesExpr env lir K n)
  (within : Within env f function vars s) (low : function.locals.length ≤ lo)

include fits ih within low

lemma collect_simulates {es : List ExprId} (built : (siteOf env lir function).ArgsCode h lo es code operands hi)
    (typed : HasTypes env.ast env.scope vars es tys) (here : At env f (code ++ rest) slots callers s S) :
    Ends (collect (expression env n) es) s (Gathered env lir f code rest slots callers operands S)
      (Strays env lir S (Far K n h)) := by
  induction es generalizing lo code operands s slots S tys with
  | nil =>
    obtain ⟨⟩ := built
    refine ⟨0, S, slots, .refl S, here, fun _ _ => rfl, fun values hvalues _ => ⟨[], ?_, .nil⟩⟩
    cases hvalues
    exact .nil
  | cons e later ihArgs =>
    obtain _ | ⟨head, keeps, tail⟩ := built
    obtain _ | ⟨headTyped, tailTyped⟩ := typed
    have own := head.own headTyped
    simp only [append_assoc] at here
    simp only [collect, isHalted, ends_bind, ends_get, ends_pure, ends_ite]
    refine (ih.brings fits within low head headTyped here keeps.writes_le
      (keeps.passes env.clock (low.trans own.le))).mono ?_
    rintro r s1 ⟨evaluated, k1, S1, slots1, goes1, at1, same1, value1⟩
    refine ⟨fun halted => ?_, fun unhalted => ?_⟩
    · refine ⟨k1, S1, slots1, goes1, .of_trapped halted (at1.trapped halted),
        fun i hi => same1 i ?_, by rintro _ ⟨⟩⟩
      exact fun h => hi (by rw [writes_append]; exact mem_append_left _ h)
    have kept := kept_unwritten fits.slotted within.found within.owned rfl own low keeps tail tailTyped
    refine (ihArgs (within.goes evaluated.toGoes) (low.trans (keeps.own own).le) tail tailTyped at1).imp ?_
      fun _ _ strays => strays.after goes1 fun _ far => far.add _
    rintro rs s3 ⟨k3, S3, slots3, goes3, at3, same3, values3⟩
    refine ⟨_, S3, slots3, goes1.trans goes3, at3, unwritten_append same1 same3, fun all hall unhalted3 => ?_⟩
    obtain ⟨values, rfl, rfl⟩ := map_eq_some_iff.1 hall
    obtain ⟨ds, stands, held⟩ := values3 values rfl unhalted3
    obtain ⟨v, d, rfl, stands1, hd⟩ := value1 (by simpa using unhalted)
    refine ⟨d :: ds, .cons stands1 stands, .cons ?_ held⟩
    rw [← hd]
    exact operandValue_congr fun i hi => same3 i (kept i hi)

/-- The arguments of a call and then the call, whose run `act` comes to the code behind it. -/
lemma arguments_simulate (typed : HasTypes env.ast env.scope vars arguments types)
    (built : (siteOf env lir function).ArgsCode h lo arguments code operands mid)
    (here : At env f (code ++ code' ++ rest) slots callers s S) {act : List Value → Eval.Run Value}
    (called : ∀ {values t slots S}, Eval.Collected env.scope f types s (some values) t → At env f
      (code' ++ rest) slots callers t S → (t.halted = false → ∃ ds, Forall₂ Stands values ds ∧
      Forall₂ (fun o d => operandValue lir.strings slots o = some d) operands ds) →
      Ends (act values) t (fun v => Simulated env lir f code' rest slots callers operand S (some v))
      (Strays env lir S (Far K (n + 1) (h + 1)))) : Ends (do
      match ← collect (expression env n) arguments with
      | none => return none
      | some values => some <$> act values) s
      (Simulated env lir f (code ++ code') rest slots callers operand S)
      (Strays env lir S (Far K (n + 1) (h + 1))) := by
  rw [append_assoc] at here
  have sound := collect_ends (soundAt fits.checked n).expression within.toFit typed
  rw [ends_bind]
  refine (sound.and (collect_simulates fits ih within low built typed here)).imp ?_
    fun _ _ ⟨_, strays⟩ => strays.imp fun _ => Far.parent
  intro r t ⟨collected, k1, S1, slots1, goes1, at1, same1, values1⟩
  cases r with
  | none =>
    have halted := collected.stopped rfl
    exact (Simulated.trapped halted (at1.trapped halted)).after goes1 same1
  | some values =>
    rw [ends_map]
    refine (called collected at1 (values1 values rfl)).imp (fun _ _ behind => behind.after goes1 same1) ?_
    exact fun _ _ strays => strays.after goes1 fun _ far => far.add _

lemma builtin_simulates
    (typed : HasTypes env.ast env.scope vars arguments types) (takes : b.Takes types)
    (built : (siteOf env lir function).ArgsCode h lo arguments code operands mid)
    {routine : Routine} (named : (siteOf env lir function).routine arguments b = routine)
    (answered : Site.Answer routine.returnType mid answer operand hi) (here : At env f
      (code ++ .unary .call (.callee routine.symbol operands routine.returnType true) ::
      answer ++ rest) slots callers s S) : Ends (do
      match ← collect (expression env n) arguments with
      | none => return none
      | some values => some <$> callBuiltin env b values) s
      (Simulated env lir f
        (code ++ .unary .call (.callee routine.symbol operands routine.returnType true) ::
        answer) rest slots callers operand S) (Strays env lir S (Far K (n + 1) (h + 1))) := by
  refine arguments_simulate fits ih within low typed built here
    fun {values t slots1 S1} collected at1 values1 => ?_
  obtain ⟨types', running⟩ := collected.values values rfl
  cases halted : t.halted with
  | true =>
    refine (callBuiltin_ends env takes types' t).mono fun v u ⟨_, _, halted', output, _⟩ => ?_
    -- Only printing changes the output, and its argument would have stopped it.
    have quiet : b ≠ .print := by
      rintro rfl
      obtain ⟨⟩ := takes
      nomatch (running (.inl (by simp))).symm.trans halted
    exact .trapped (halted'.trans halted) (output quiet ▸ at1.trapped halted)
  | false =>
    obtain ⟨ds, stands, held⟩ := values1 halted
    obtain ⟨result, rfl⟩ := at1.running halted
    refine (builtin_performs (siteOf env lir function) typed takes types' stands).mono ?_
    rw [named]
    intro v u ⟨frames, halted', answer', performed, value⟩
    have called : Goes lir env.clock 1 (.running ⟨⟨_ :: (answer ++ rest), slots1, result⟩, callers,
      outside t⟩) _ := goes_call routine.symbol routine.returnType true held
    simp only [Machine.call, if_true, Routine.ofSymbol?_symbol, bind_some, performed] at called
    have holds := (at1.holds halted).same frames
    have behind : Simulated env lir f answer rest slots1 callers operand _ (some v) u :=
      answered_at fits within.found answered (low.trans (built.own typed).le) (halted'.trans halted) holds value
    exact behind.after_call called

lemma function_simulates {callee : EmLang.Function}
    (calls : SimulatesCall env lir K n) (found : env.scope.function? g = some callee)
    (notMain : g ≠ Scope.main) (declared : callee.parameters.map env.scope.var? = xs.map some)
    (typed : HasTypes env.ast env.scope vars arguments (xs.map Variable.ty))
    (built : (siteOf env lir function).ArgsCode h lo arguments code operands mid)
    (answered : Site.Answer callee.returnType mid answer operand hi)
    (here : At env f (code ++ .unary .call (.callee callee.name operands callee.returnType false) ::
      answer ++ rest) slots callers s S) : Ends (do
      match ← collect (expression env n) arguments with
      | none => return none
      | some values => some <$> call env n g values) s
      (Simulated env lir f
        (code ++ .unary .call (.callee callee.name operands callee.returnType false) ::
        answer) rest slots callers operand S) (Strays env lir S (Far K (n + 1) (h + 1))) := by
  refine arguments_simulate fits ih within low typed built here
    fun {values t slots1 S1} collected at1 values1 => ?_
  obtain ⟨types, -⟩ := collected.values values rfl
  have soundCall := (soundAt fits.checked n).call f g callee xs values t found declared types
    collected.inside collected.running
  cases halted : t.halted with
  | true =>
    have skips := call_skips (n := n) found declared types collected.inside collected.running halted
    refine (soundCall.and skips).imp (fun v u ⟨⟨_, evaluated⟩, _⟩ => ?_)
      fun fault u ⟨_, small, halted', output⟩ => ?_
    · obtain ⟨halted', output⟩ := evaluated.steps.halted halted
      exact .trapped halted' (output ▸ at1.trapped halted)
    · refine .here (.of_trapped halted' (output ▸ at1.trapped halted)) ?_ fault
      unfold Far
      omega
  | false =>
    obtain ⟨ds, stands, held⟩ := values1 halted
    obtain ⟨result, rfl⟩ := at1.running halted
    obtain ⟨b, entry⟩ := fits.entry found
    have called : Goes lir env.clock 1 (.running ⟨⟨_ :: (answer ++ rest), slots1, result⟩, callers,
      outside t⟩) _ := goes_call callee.name callee.returnType false held
    simp only [Machine.call, Bool.false_eq_true, if_false, entry] at called
    have simulated := calls f g callee xs values ds t ⟨answer ++ rest, slots1,
      result⟩ callers b _ found notMain declared types stands collected.inside collected.running halted rfl
    refine (soundCall.and simulated).imp ?_ fun _ _ ⟨_, strays⟩ => strays.after called fun j far => ?_
    · intro v u ⟨⟨frames, evaluated⟩, k2, S2, goes2, trapped, running⟩
      cases halted2 : u.halted with
      | true => exact (Simulated.trapped halted2 (trapped halted2)).after_call (called.trans goes2)
      | false =>
        obtain ⟨answer', rfl, value⟩ := running halted2
        have behind : Simulated env lir f answer rest slots1 callers operand _ (some v) u :=
          answered_at fits within.found answered (low.trans (built.own typed).le) halted2
          ((at1.holds halted).same frames) value
        exact behind.after_call (called.trans goes2)
    · unfold Far
      rw [Nat.add_mul, Nat.one_mul]
      omega

end

/-! ### All expressions -/

lemma expression_simulates (fits : Fits env lir) (ih : SimulatesExpr env lir K n)
    (calls : SimulatesCall env lir K n) : SimulatesExpr env lir K (n + 1) := by
  intro f function vars ty h lo e code operand hi s slots rest callers S within built low typed here
  obtain ⟨node, hnode, -, -⟩ := typed.node
  have kindOf := @Ast.kind_of_expr _ _ _ hnode
  cases built with
  | number kind =>
    simp only [expression, hnode, kindOf kind, ends_pure]
    exact .here here (.number _) rfl
  | string kind placed =>
    simp only [expression, hnode, kindOf kind, ends_pure]
    exact .here here (.string _) (congrArg (Option.map Datum.text) placed)
  | bool kind =>
    simp only [expression, hnode, kindOf kind, ends_pure]
    exact .here here (.bool _) rfl
  | var kind declared =>
    obtain ⟨-, v, x, hv, seen, -⟩ := typed.parts kind
    cases hv
    simp only [expression, hnode, kindOf kind]
    exact var_simulates within seen declared here _
  | assign kind declared below =>
    obtain ⟨-, typed', v, x, hv, seen, declared', rfl, -⟩ := typed.parts kind
    cases hv
    obtain rfl : _ = x := mem_unique declared declared'
    simp only [expression, hnode, kindOf kind]
    exact assign_simulates fits ih within low seen declared typed' below here
  | binary kind arithmetic leftKind words first held second =>
    obtain ⟨-, a, b, leftTyped, rightTyped, yields⟩ := typed.parts kind
    obtain ⟨rfl, -⟩ := leftTyped.parts leftKind
    simp only [expression, hnode, kindOf kind]
    exact binary_simulates fits ih within low leftTyped rightTyped yields arithmetic words first
      held second here _
  | negate kind below held =>
    obtain ⟨-, typed', -⟩ := typed.parts kind
    simp only [expression, hnode, kindOf kind]
    exact negate_simulates fits ih within low typed' below held here
  | paren kind below =>
    have simulated := ih _ _ _ _ _ _ _ _ _ _ _ _ _ _ _ within below low (typed.parts kind).2 here
    simp only [expression, hnode, kindOf kind]
    exact simulated.imp (fun _ _ done => done) fun _ _ strays => strays.imp fun _ => Far.parent
  | call kind below callee answered =>
    obtain ⟨-, parts⟩ := typed.parts kind
    simp only [expression, hnode, kindOf kind]
    cases callee with
    | function found =>
      obtain ⟨function', xs, found', declared, typed', -, notMain, -⟩ := parts
      obtain rfl : _ = function' := mem_unique found found'
      exact function_simulates fits ih within low calls found notMain declared typed' below answered here
    | builtin b =>
      obtain ⟨types, typed', takes, -⟩ := parts
      exact builtin_simulates fits ih within low typed' takes below rfl answered here

end Calls

end EmLang.Lir
