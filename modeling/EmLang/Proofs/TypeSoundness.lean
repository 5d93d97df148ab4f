import EmLang.Proofs.Accepting
import EmLang.Proofs.Execution

/-!
Runs of typed programs. As long as no fault has halted the run, every variable holds a value of its
type, and so do expressions and calls. After a fault the variables that can be seen are still bound,
which is enough for the run to come to its end; what it prints does not change any more.
-/

namespace EmLang

open Ast List Option Value

variable {ast : Ast} {op : BinaryOp} {types tys : List Ty} {vars' parameters : List VarId}
  {p : Program} {a b ty : Ty} {value v : Value} {function : Function} {m : Eval.Moment}

def Value.type : Value → Ty
  | .number _ => .int
  | .bool _ => .bool
  | .string _ => .string
  | .void => .void

lemma Value.eq_number (h : v.type = .int) : ∃ n, v = .number n := by
  cases v <;> simp_all [type]

lemma Value.eq_bool (h : v.type = .bool) : ∃ b, v = .bool b := by
  cases v <;> simp_all [type]

lemma Value.eq_string (h : v.type = .string) : ∃ s, v = .string s := by
  cases v <;> simp_all [type]

lemma Value.type_defaultOf (proper : ty.IsProper) : (defaultOf ty).type = ty := by
  obtain ⟨h, h'⟩ := proper
  cases ty <;> simp_all [defaultOf, type]

namespace Eval

variable {u : State} {ids : List StmtId} {r : Option Value} {m' : Moment}

/-- Every bound variable holds a value of its declared type. -/
def FramesTyped (scope : Scope) (frames : List Frame) : Prop :=
  ∀ frame ∈ frames, ∀ (v : VarId) (value : Value), frame[v]? = some value →
    ∃ x, scope.var? v = some x ∧ value.type = x.ty

/-- The only fault is that the bound on the depth is used up, and the variables are typed at that
moment. -/
def OnlyFuel (scope : Scope) (fault : Fault) (s : State) : Prop :=
  fault = .outOfFuel ∧ (s.halted = false → FramesTyped scope s.frames)

/-- What holds while the body of the function `f` runs. -/
structure Inside (scope : Scope) (f : FunId) (s : State) : Prop where
  frames : s.frames ≠ []
  typed : s.halted = false → FramesTyped scope s.frames
  result : s.returned = true → f ≠ Scope.main ∧ (s.halted = false → ∃ value function,
    s.last = some value ∧ scope.function? f = some function ∧ value.type = function.returnType)

/-- The variables have values in the innermost call. -/
def Bound (vars : List VarId) (s : State) : Prop := ∀ v ∈ vars, ∃ value, s.var? v = some value

/-- From `s` to `t` a program that was halted stays so and prints nothing. Something is reported
only when the program is halted. -/
structure Rests (s t : State) : Prop where
  halted : s.halted = true → t.halted = true ∧ t.output = s.output
  report : t.halted = s.halted → t.report = s.report

/-- The outer calls are left alone too, and no variable loses its value. -/
structure Steps (s t : State) : Prop extends Rests s t where
  outer : t.frames.tail = s.frames.tail
  bound : ∀ v value, s.var? v = some value → ∃ value', t.var? v = some value'

lemma Steps.refl (s : State) : Steps s s :=
  ⟨⟨fun h => ⟨h, rfl⟩, fun _ => rfl⟩, rfl, fun _ value h => ⟨value, h⟩⟩

variable {s t : State} {scope : Scope} {f g : FunId} {v : VarId} {x : Variable}
  {F : Fault → State → Prop} {arguments : List Value} {n : Nat} {vars : List VarId}
  {xs : List Variable}

/-- In a program that is not halted nothing has been reported in between. -/
def Silent (s t : State) : Prop := t.halted = false → s.halted = false ∧ t.report = s.report

lemma Silent.refl (s : State) : Silent s s := fun unhalted => ⟨unhalted, rfl⟩

lemma Rests.silent (h : Rests s t) : Silent s t := by
  intro unhalted
  have before : s.halted = false := by
    rw [Bool.eq_false_iff]
    exact fun hs => Bool.eq_false_iff.1 unhalted (h.halted hs).1
  exact ⟨before, h.report (unhalted.trans before.symm)⟩

lemma Rests.unhalted (h : Rests s t) (ht : t.halted = false) : s.halted = false := (h.silent ht).1

lemma Rests.trans (h : Rests s t) (h' : Rests t u) : Rests s u where
  halted hs := by
    obtain ⟨ht, out⟩ := h.halted hs
    obtain ⟨hu, out'⟩ := h'.halted ht
    exact ⟨hu, out'.trans out⟩
  report same := by
    have between : t.halted = s.halted := by
      cases hs : s.halted with
      | false => exact h'.unhalted (same.trans hs)
      | true => exact (h.halted hs).1
    exact (h'.report (same.trans between.symm)).trans (h.report between)

lemma Steps.trans (h : Steps s t) (h' : Steps t u) : Steps s u where
  toRests := h.toRests.trans h'.toRests
  outer := h'.outer.trans h.outer
  bound v value hv := by
    obtain ⟨value', hv'⟩ := h.bound v value hv
    exact h'.bound v value' hv'

lemma Bound.steps (h : Bound vars s) (steps : Steps s t) : Bound vars t := by
  intro v hv
  obtain ⟨value, hvalue⟩ := h v hv
  exact steps.bound v value hvalue

/-- The body of `f` runs, has not come upon a `return`, and the variables can be seen. -/
structure Fit (scope : Scope) (f : FunId) (vars : List VarId) (s : State) : Prop where
  inside : Inside scope f s
  running : s.returned = false
  bound : Bound vars s

/-- From `s` to `t` the body of `f` goes on, without a `return`. -/
structure Goes (scope : Scope) (f : FunId) (s t : State) : Prop where
  inside : Inside scope f t
  running : t.returned = false
  steps : Steps s t

lemma Fit.goes (fit : Fit scope f vars s) (goes : Goes scope f s t) : Fit scope f vars t :=
  ⟨goes.inside, goes.running, fit.bound.steps goes.steps⟩

lemma Goes.trans (h : Goes scope f s t) (h' : Goes scope f t u) : Goes scope f s u :=
  ⟨h'.inside, h'.running, h.steps.trans h'.steps⟩

/-- What is known of an expression's value `r`, found between `s` and `t`. -/
structure Evaluated (scope : Scope) (f : FunId) (ty : Ty) (s : State) (r : Option Value)
    (t : State) : Prop extends Goes scope f s t where
  value : t.halted = false → ∃ v, r = some v ∧ v.type = ty

lemma Inside.var_type (inside : Inside scope f s) (unhalted : s.halted = false)
    (declared : scope.var? v = some x) (h : s.var? v = some value) : value.type = x.ty := by
  obtain ⟨frame, hframe, hvalue⟩ := bind_eq_some_iff.1 h
  obtain ⟨x', declared', typed⟩ := inside.typed unhalted frame (mem_of_head? hframe) v value hvalue
  rw [declared] at declared'
  obtain rfl := some.inj declared'
  exact typed

/-! ### Storing values -/

lemma ends_expectNumber {v : Value} (h : v.type = .int) (Q : Int64 → State → Prop) :
    Ends (expectNumber v) s Q F ↔ ∃ n, v = .number n ∧ Q n s := by
  obtain ⟨n, rfl⟩ := eq_number h
  simp [expectNumber, number?, ends_pure]

lemma ends_expectBool {v : Value} (h : v.type = .bool) (Q : Bool → State → Prop) :
    Ends (expectBool v) s Q F ↔ ∃ b, v = .bool b ∧ Q b s := by
  obtain ⟨b, rfl⟩ := eq_bool h
  simp [expectBool, bool?, ends_pure]

lemma State.var?_cons (s : State) (frame : Frame) (outer : List Frame) (v : VarId) :
    ({ s with frames := frame :: outer } : State).var? v = frame[v]? := rfl

/-- Storing a value in a variable. It is of the variable's type, unless the program is halted. -/
lemma bindVariable_ends (inside : Inside scope f s) (v : VarId) (value : Value)
    (typed : s.halted = false → ∃ x, scope.var? v = some x ∧ value.type = x.ty) :
    Ends (bindVariable v value) s (fun _ t => Inside scope f t ∧ Steps s t ∧ t.returned = s.returned ∧
      t.halted = s.halted ∧ t.last = s.last ∧ t.var? v = some value) F := by
  obtain ⟨frames, framesTyped, result⟩ := inside
  cases hframes : s.frames with
  | nil => exact absurd hframes frames
  | cons frame outer =>
    simp only [bindVariable, ends_bind, ends_get, hframes, ends_modify]
    refine ⟨⟨by simp, fun halted => ?_, result⟩, ⟨⟨fun h => ⟨h, rfl⟩, fun _ => rfl⟩,
      by simp [hframes], fun u old hu => ?_⟩, trivial, trivial, trivial, ?_⟩
    · have old := framesTyped halted
      rw [hframes] at old
      refine forall_mem_cons.2 ⟨fun u val hu => ?_, fun g hg => old g (by simp [hg])⟩
      rw [Std.ExtTreeMap.getElem?_insert] at hu
      split_ifs at hu with huv
      · obtain rfl : v = u := by simpa using huv
        cases hu
        exact typed halted
      · exact old frame (by simp) u val hu
    · rw [State.var?_cons, Std.ExtTreeMap.getElem?_insert]
      split_ifs
      · exact ⟨value, rfl⟩
      · refine ⟨old, ?_⟩
        rw [State.var?, hframes] at hu
        exact hu
    · rw [State.var?_cons, Std.ExtTreeMap.getElem?_insert_self]

/-! ### Operators and built-in operations -/

lemma divide_ends (op : BinaryOp) (left right : Int64) (span : Text.Span) (s : State) :
    Ends (divide op left right span) s (fun v t => t.frames = s.frames ∧ t.returned = s.returned ∧
      (t.halted = false → v.type = .int ∧ t.report = s.report)) F := by
  simp only [divide, ends_ite, ends_pure]
  refine ⟨fun _ => ?_, fun _ => ⟨fun _ => ?_, fun _ => ⟨trivial, trivial, fun _ => ⟨rfl, trivial⟩⟩⟩⟩
  all_goals exact ⟨rfl, rfl, nofun⟩

lemma operate_ends {left right : Value} (yields : op.Yields a b ty) (hl : left.type = a)
    (hr : right.type = b) (span : Text.Span) (s : State) :
    Ends (operate op left right span) s (fun v t => t.frames = s.frames ∧ t.returned = s.returned ∧
      (t.halted = false → v.type = ty ∧ t.report = s.report)) F := by
  cases yields with
  | join =>
    obtain ⟨l, rfl⟩ := eq_string hl
    obtain ⟨r, rfl⟩ := eq_string hr
    exact ⟨rfl, rfl, fun _ => ⟨rfl, rfl⟩⟩
  | arithmetic h =>
    obtain ⟨l, rfl⟩ := eq_number hl
    obtain ⟨r, rfl⟩ := eq_number hr
    cases op with
    | add | sub | mul => exact ⟨rfl, rfl, fun _ => ⟨rfl, rfl⟩⟩
    | div => exact divide_ends .div l r span s
    | rem => exact divide_ends .rem l r span s
    | eq | ne | lt | gt | le | ge => simp [BinaryOp.isComparison] at h
  | equality h _ => obtain rfl | rfl := h <;> exact ⟨rfl, rfl, fun _ => ⟨rfl, rfl⟩⟩
  | order h =>
    obtain ⟨l, rfl⟩ := eq_number hl
    obtain ⟨r, rfl⟩ := eq_number hr
    obtain rfl | rfl | rfl | rfl := h <;> exact ⟨rfl, rfl, fun _ => ⟨rfl, rfl⟩⟩

lemma callBuiltin_ends (env : Env) {b : Builtin} (takes : b.Takes types)
    (typed : arguments.map type = types) (s : State) : Ends (callBuiltin env b arguments) s
    (fun v t => t.frames = s.frames ∧ t.returned = s.returned ∧ t.halted = s.halted ∧
      (b ≠ .print → t.output = s.output) ∧ v.type = b.returnType ∧ t.report = s.report) F := by
  cases takes with
  | print => exact ⟨rfl, rfl, rfl, fun h => absurd rfl h, rfl, rfl⟩
  | tick => exact ⟨rfl, rfl, rfl, fun _ => rfl, rfl, rfl⟩
  | toText =>
    cases arguments with
    | nil => simp at typed
    | cons value rest => exact ⟨rfl, rfl, rfl, fun _ => rfl, rfl, rfl⟩

/-! ### Expressions -/

/-- With the bound `n` on the depth, typed expressions have values of their types. -/
def Evaluates (env : Env) (n : Nat) : Prop :=
  ∀ f vars e ty s, HasType env.ast env.scope vars e ty → Fit env.scope f vars s →
    Ends (expression env n e) s (Evaluated env.scope f ty s) (OnlyFuel env.scope)

/-- With the bound `n` on the depth, calls with arguments of the parameters' types have values of
the functions' types and leave the variables of the caller alone. -/
def Calls (env : Env) (n : Nat) : Prop :=
  ∀ f g function (xs : List Variable) (arguments : List Value) s,
    env.scope.function? g = some function → function.parameters.map env.scope.var? = xs.map some →
    arguments.map type = xs.map Variable.ty → Inside env.scope f s → s.returned = false →
    Ends (call env n g arguments) s (fun v t => t.frames = s.frames ∧
    Evaluated env.scope f function.returnType s (some v) t) (OnlyFuel env.scope)

/-- What is known of the values of arguments. There are none after a fault. -/
structure Collected (scope : Scope) (f : FunId) (tys : List Ty) (s : State)
    (r : Option (List Value)) (t : State) : Prop extends Goes scope f s t where
  values : ∀ values, r = some values → values.map type = tys ∧
    (tys ≠ [] ∨ s.halted = false → t.halted = false)
  stopped : r = none → t.halted = true

variable {env : Env}

lemma Inside.same (h : Inside scope f s) (frames : t.frames = s.frames) (returned : t.returned = false)
    (halted : t.halted = false → s.halted = false) : Inside scope f t := by
  refine ⟨by rw [frames]; exact h.frames, fun ht => ?_, fun hr => ?_⟩
  · rw [frames]
    exact h.typed (halted ht)
  · rw [returned] at hr
    cases hr

lemma Steps.same (frames : t.frames = s.frames) (rests : Rests s t) : Steps s t := by
  refine ⟨rests, by rw [frames], fun v value hv => ⟨value, ?_⟩⟩
  rw [← hv, State.var?, State.var?, frames]

/-- An expression that only looks at the state. -/
lemma Fit.evaluated {ty : Ty} (fit : Fit scope f vars s) {v : Value}
    (h : s.halted = false → v.type = ty) : Evaluated scope f ty s (some v) s :=
  ⟨⟨fit.inside, fit.running, .refl s⟩, fun halted => ⟨v, rfl, h halted⟩⟩

/-- Nothing is known of the value in a program that is halted. -/
lemma Goes.halted (goes : Goes scope f s t) (halted : t.halted = true) : Evaluated scope f ty s r t :=
  ⟨goes, fun unhalted => nomatch halted.symm.trans unhalted⟩

/-- A value that is stored is of the variable's type, unless the program is halted. -/
lemma Evaluated.stored (evaluated : Evaluated scope f x.ty s r t) (declared : scope.var? v = some x)
    (halted : t.halted = false) : ∃ x, scope.var? v = some x ∧ (r.getD .void).type = x.ty := by
  obtain ⟨w, rfl, hw⟩ := evaluated.value halted
  exact ⟨x, declared, hw⟩

section

variable (h : Evaluates env n) (fit : Fit env.scope f vars s)

include h fit

lemma collect_ends {es : List ExprId} (typed : HasTypes env.ast env.scope vars es tys) :
    Ends (collect (expression env n) es) s (Collected env.scope f tys s) (OnlyFuel env.scope) := by
  induction es generalizing s tys with
  | nil =>
    obtain ⟨⟩ := typed
    exact ⟨⟨fit.inside, fit.running, .refl s⟩, by simp, by simp⟩
  | cons e es ih =>
    obtain _ | ⟨head, tail⟩ := typed
    simp only [collect, isHalted, ends_bind, ends_get, ends_pure, ends_ite]
    refine (h f vars e _ s head fit).mono fun r t ⟨goes, value⟩ => ?_
    refine ⟨fun halted => ⟨goes, by simp, fun _ => halted⟩, fun unhalted => ?_⟩
    refine (ih (fit.goes goes) tail).mono fun rs u ⟨goes', values, stopped⟩ => ?_
    obtain ⟨v, rfl, hv⟩ := value (by simpa using unhalted)
    refine ⟨goes.trans goes', fun all hall => ?_, fun hnone => ?_⟩
    · obtain ⟨rest, rfl, rfl⟩ := map_eq_some_iff.1 hall
      obtain ⟨htypes, hhalted⟩ := values rest rfl
      exact ⟨by simp [hv, htypes], fun _ => hhalted (.inr (by simpa using unhalted))⟩
    · exact stopped (by simpa using hnone)

lemma assign_ends {value : ExprId} (declared : env.scope.var? v = some x)
    (typed : HasType env.ast env.scope vars value x.ty) : Ends (do
      let value := (← expression env n value).getD .void
      bindVariable v value
      return some value) s (Evaluated env.scope f x.ty s) (OnlyFuel env.scope) := by
  simp only [ends_bind, ends_pure]
  refine (h f vars value _ s typed fit).mono fun r t evaluated => ?_
  have stored := evaluated.stored declared
  refine (bindVariable_ends evaluated.inside v (r.getD .void) stored).mono
    fun _ u ⟨inside2, steps2, returned, halted, _, _⟩ => ?_
  refine ⟨⟨inside2, returned.trans evaluated.running, evaluated.steps.trans steps2⟩, fun hu => ⟨_, rfl, ?_⟩⟩
  obtain ⟨x', declared', hx'⟩ := stored (halted.symm.trans hu)
  rw [declared] at declared'
  obtain rfl := some.inj declared'
  exact hx'

lemma binary_ends {left right : ExprId} (leftTyped : HasType env.ast env.scope vars left a)
    (rightTyped : HasType env.ast env.scope vars right b) (yields : op.Yields a b ty)
    (span : Text.Span) : Ends (do
      let l := (← expression env n left).getD .void
      let r := (← expression env n right).getD .void
      if ← isHalted then return none else some <$> operate op l r span) s
        (Evaluated env.scope f ty s) (OnlyFuel env.scope) := by
  simp only [isHalted, ends_bind, ends_get, ends_pure, ends_ite, ends_map]
  refine (h f vars left a s leftTyped fit).mono fun l t ⟨goes, hl⟩ => ?_
  refine (h f vars right b t rightTyped (fit.goes goes)).mono fun r u ⟨goes', hr⟩ => ?_
  have goes2 := goes.trans goes'
  refine ⟨goes2.halted, fun unhalted => ?_⟩
  have unhalted : u.halted = false := by simpa using unhalted
  obtain ⟨lv, rfl, hlv⟩ := hl (goes'.steps.unhalted unhalted)
  obtain ⟨rv, rfl, hrv⟩ := hr unhalted
  refine (operate_ends yields hlv hrv span u).mono fun v w ⟨frames, returned, hv⟩ => ?_
  have returned := returned.trans goes'.running
  have steps : Steps u w := .same frames ⟨fun halted => (nomatch halted.symm.trans unhalted),
    fun same => (hv (same.trans unhalted)).2⟩
  exact ⟨goes2.trans ⟨goes'.inside.same frames returned fun _ => unhalted, returned, steps⟩,
    fun hw => ⟨v, rfl, (hv hw).1⟩⟩

lemma negate_ends {operand : ExprId} (typed : HasType env.ast env.scope vars operand .int) : Ends (do
      let value := (← expression env n operand).getD .void
      if ← isHalted then return none else return some (.number (-(← expectNumber value)))) s
        (Evaluated env.scope f .int s) (OnlyFuel env.scope) := by
  simp only [isHalted, ends_bind, ends_get, ends_pure, ends_ite]
  refine (h f vars operand .int s typed fit).mono fun r t ⟨goes, hr⟩ => ⟨goes.halted, fun unhalted => ?_⟩
  obtain ⟨v, rfl, hv⟩ := hr (by simpa using unhalted)
  rw [getD_some, ends_expectNumber hv]
  obtain ⟨k, rfl⟩ := eq_number hv
  exact ⟨k, rfl, goes, fun _ => ⟨_, rfl, rfl⟩⟩

/-- A call of what takes values of these types and leaves the state fit. -/
lemma called_ends {arguments : List ExprId}
    {act : List Value → Run Value} (typed : HasTypes env.ast env.scope vars arguments tys)
    (called : ∀ values t, Collected env.scope f tys s (some values) t →
      Ends (act values) t (Evaluated env.scope f ty t <| some ·) (OnlyFuel env.scope)) : Ends (do
      match ← collect (expression env n) arguments with
      | none => return none
      | some values => some <$> act values) s (Evaluated env.scope f ty s) (OnlyFuel env.scope) := by
  rw [ends_bind]
  refine (collect_ends h fit typed).mono fun r t collected => ?_
  cases r with
  | none => exact collected.halted (collected.stopped rfl)
  | some values =>
    rw [ends_map]
    exact (called values t collected).mono fun v u ⟨goes, value⟩ => ⟨collected.toGoes.trans goes, value⟩

end

lemma Collected.builtin_ends {values : List Value} {b : Builtin} (takes : b.Takes types)
    (collected : Collected env.scope f types s (some values) t) : Ends (callBuiltin env b values) t
    (Evaluated env.scope f b.returnType t <| some ·) (OnlyFuel env.scope) := by
  obtain ⟨htypes, unhalted⟩ := collected.values values rfl
  refine (callBuiltin_ends env takes htypes t).mono fun v u ⟨frames, returned, halted, output, hv, report⟩ => ?_
  have returned := returned.trans collected.running
  -- Only printing changes the output, and its argument would have stopped it.
  have quiet : t.halted = true → u.halted = true ∧ u.output = t.output := by
    intro ht
    refine ⟨halted.trans ht, output ?_⟩
    rintro rfl
    obtain ⟨_⟩ := takes
    rw [unhalted (by simp)] at ht
    cases ht
  exact ⟨⟨collected.inside.same frames returned halted.symm.trans, returned,
    .same frames ⟨quiet, fun _ => report⟩⟩, fun _ => ⟨v, rfl, hv⟩⟩

lemma expression_ends (h : Evaluates env n) (hc : Calls env n) : Evaluates env (n + 1) := by
  intro f vars e ty s typed fit
  obtain ⟨node, hnode, rfl, parts⟩ := typed.node
  simp only [expression, hnode]
  generalize node.kind = kind at parts ⊢
  cases kind with
  | number | string | bool => exact fit.evaluated fun _ => parts.symm
  | var name declaration =>
    obtain ⟨v, x, rfl, seen, declared, same, -⟩ := parts
    simp only [ends_bind, ends_get, bind_some]
    obtain ⟨value, hvalue⟩ := fit.bound v seen
    rw [hvalue]
    exact fit.evaluated fun unhalted => (fit.inside.var_type unhalted declared hvalue).trans same
  | assign name equals value declaration =>
    obtain ⟨typed, v, x, rfl, -, declared, same, -⟩ := parts
    rw [← same] at typed ⊢
    exact assign_ends h fit declared typed
  | binary op sign left right =>
    obtain ⟨a, b, leftTyped, rightTyped, yields⟩ := parts
    exact binary_ends h fit leftTyped rightTyped yields node.span
  | negate sign operand =>
    obtain ⟨typed, same⟩ := parts
    rw [same]
    exact negate_ends h fit typed
  | paren leftParen inner rightParen => exact h f vars inner _ s parts fit
  | call callee leftParen arguments rightParen target =>
    cases target with
    | function g =>
      obtain ⟨function, xs, found, declared, typed, same, -⟩ := parts
      rw [← same]
      refine called_ends h fit typed fun values t collected => ?_
      obtain ⟨types, -⟩ := collected.values values rfl
      exact (hc f g function xs values t found declared types collected.inside collected.running).mono
        fun _ _ evaluated => evaluated.2
    | builtin b =>
      obtain ⟨types, typed, takes, same, -⟩ := parts
      rw [← same]
      exact called_ends h fit typed fun values t collected => collected.builtin_ends takes
    | unresolved => exact parts.elim
  | error => exact parts.elim

/-! ### Statements -/

/-- The body of `f` runs, and the variables can be seen unless it has come upon a `return` or is
halted. -/
structure Before (scope : Scope) (f : FunId) (vars : List VarId) (s : State) : Prop where
  inside : Inside scope f s
  bound : s.stopped = false → Bound vars s

/-- What is known after statements that ran between `s` and `t`. -/
structure Passed (scope : Scope) (f : FunId) (vars : List VarId) (s t : State) :
    Prop extends Before scope f vars t where
  steps : Steps s t

/-- With the bound `n` on the depth, typed statements keep what holds while the body of a function
runs. -/
def Blocks (env : Env) (n : Nat) : Prop :=
  ∀ f vars ids vars' s, StmtsTyped env.ast env.scope f vars ids vars' → Before env.scope f vars s →
    Ends (block env n ids) s (fun _ => Passed env.scope f vars' s) (OnlyFuel env.scope)

def Statements (env : Env) (n : Nat) : Prop :=
  ∀ f vars id vars' s, StmtTyped env.ast env.scope f vars id vars' → Before env.scope f vars s →
    Ends (statement env n id) s (fun _ => Passed env.scope f vars' s) (OnlyFuel env.scope)

def Loops (env : Env) (n : Nat) : Prop :=
  ∀ f vars condition ids inner s, HasType env.ast env.scope vars condition .bool →
    StmtsTyped env.ast env.scope f vars ids inner → Fit env.scope f vars s →
    Ends (loop env n condition ids) s (fun _ => Passed env.scope f vars s) (OnlyFuel env.scope)

lemma State.stopped_eq_false : s.stopped = false ↔ s.returned = false ∧ s.halted = false := by
  simp [State.stopped]

lemma Before.fit (before : Before scope f vars s) (running : s.stopped = false) : Fit scope f vars s :=
  ⟨before.inside, (State.stopped_eq_false.1 running).1, before.bound running⟩

lemma Fit.before (fit : Fit scope f vars s) : Before scope f vars s := ⟨fit.inside, fun _ => fit.bound⟩

lemma Fit.passed (fit : Fit scope f vars t) (steps : Steps s t) : Passed scope f vars s t := ⟨fit.before, steps⟩

lemma forM_ends (h : Statements env n) (typed : StmtsTyped env.ast env.scope f vars ids vars')
    (before : Before env.scope f vars s) : Ends (ids.forM (statement env n)) s
    (fun _ => Passed env.scope f vars' s) (OnlyFuel env.scope) := by
  induction ids generalizing s vars with
  | nil =>
    obtain ⟨⟩ := typed
    exact ⟨before, .refl s⟩
  | cons id ids ih =>
    obtain _ | ⟨head, tail⟩ := typed
    rw [ends_forM_cons]
    refine (h f vars id _ s head before).mono fun _ t ⟨before1, steps1⟩ => ?_
    exact (ih tail before1).mono fun _ u ⟨before2, steps2⟩ => ⟨before2, steps1.trans steps2⟩

lemma forM_skips (stopped : s.stopped = true) :
    Ends (ids.forM (statement env (n + 1))) s (fun _ t => t = s) F := by
  induction ids with
  | nil => rfl
  | cons id ids ih =>
    simp only [ends_forM_cons, statement, ends_bind, ends_get, ends_ite, ends_pure]
    exact ⟨fun _ => ih, fun running => absurd stopped running⟩

lemma block_ends (h : Statements env n) : Blocks env (n + 1) := by
  intro f vars ids vars' s typed before
  rw [block]
  exact forM_ends h typed before

lemma Steps.setLast (s : State) (last : Option Value) : Steps s { s with last } :=
  .same rfl ⟨fun h => ⟨h, rfl⟩, fun _ => rfl⟩

/-- The latest value does not matter as long as there was no `return`. -/
lemma Goes.setLast (goes : Goes scope f s t) (last : Option Value) : Goes scope f s { t with last } :=
  ⟨⟨goes.inside.frames, goes.inside.typed, fun returned =>
    nomatch goes.running.symm.trans returned⟩, goes.running, goes.steps.trans (.setLast t last)⟩

/-- A body that runs after a condition: behind it the variables of the body cannot be seen any
more. -/
lemma Passed.after {inner : List VarId} (bound : Bound vars s) (steps : Steps s t)
    (passed : Passed scope f inner t u) : Passed scope f vars s u :=
  ⟨⟨passed.inside, fun _ => (bound.steps steps).steps passed.steps⟩, steps.trans passed.steps⟩

lemma let_ends {init : ExprId} (h : Evaluates env n) (fit : Fit env.scope f vars s)
    (declared : env.scope.var? v = some x) (typed : HasType env.ast env.scope vars init x.ty) : Ends (do
      let value := (← expression env n init).getD .void
      setLast none
      bindVariable v value) s (fun _ => Passed env.scope f (v :: vars) s) (OnlyFuel env.scope) := by
  simp only [setLast, ends_bind, ends_modify]
  refine (h f vars init _ s typed fit).mono fun r t evaluated => ?_
  have goes := evaluated.toGoes.setLast none
  refine (bindVariable_ends goes.inside v (r.getD .void) (evaluated.stored declared)).mono ?_
  intro _ u ⟨inside2, steps2, _, _, _, here⟩
  have steps := goes.steps.trans steps2
  exact ⟨⟨inside2, fun _ => forall_mem_cons.2 ⟨⟨_, here⟩, fit.bound.steps steps⟩⟩, steps⟩

lemma return_ends (notMain : f ≠ Scope.main) (found : env.scope.function? f = some function)
    (inside : Inside env.scope f t) (steps : Steps s t)
    (typed : t.halted = false → value.type = function.returnType) : Ends (do
      setLast (some value)
      modify ({ · with returned := true })) t (fun _ => Passed env.scope f vars s) (OnlyFuel env.scope) := by
  refine ⟨⟨⟨inside.frames, inside.typed, fun _ =>
    ⟨notMain, fun unhalted => ⟨value, function, rfl, found, typed unhalted⟩⟩⟩, fun running => ?_⟩,
    ⟨⟨steps.halted, steps.report⟩, steps.outer, steps.bound⟩⟩
  simp [State.stopped] at running

/-- A condition and what follows it, unless the condition halts the program. -/
lemma condition_ends {condition : ExprId} (h : Evaluates env n)
    (typed : HasType env.ast env.scope vars condition .bool) (fit : Fit env.scope f vars s)
    {K : Bool → Run Unit} (next : ∀ b t, Fit env.scope f vars t → Steps s t →
      Ends (K b) t (fun _ => Passed env.scope f vars s) (OnlyFuel env.scope)) : Ends (do
      let value := (← expression env n condition).getD .void
      setLast none
      if ← isHalted then return
      let b ← expectBool value
      K b) s (fun _ => Passed env.scope f vars s) (OnlyFuel env.scope) := by
  simp only [setLast, isHalted, ends_bind, ends_modify, ends_get, ends_pure, ends_ite]
  refine (h f vars condition .bool s typed fit).mono fun r t ⟨goes, hr⟩ => ?_
  have goes' := goes.setLast none
  refine ⟨fun _ => (fit.goes goes').passed goes'.steps, fun unhalted => ?_⟩
  obtain ⟨v, rfl, hv⟩ := hr (by simpa using unhalted)
  rw [getD_some, ends_expectBool hv]
  obtain ⟨b, rfl⟩ := eq_bool hv
  exact ⟨b, rfl, next b _ (fit.goes goes') goes'.steps⟩

lemma loop_ends (h : Evaluates env n) (hb : Blocks env n) (hl : Loops env n) : Loops env (n + 1) := by
  intro f vars condition ids inner s conditionTyped bodyTyped fit
  rw [loop]
  refine condition_ends h conditionTyped fit fun b t fit1 steps1 => ?_
  cases b with
  | false => exact fit1.passed steps1
  | true =>
    simp only [if_true, ends_bind, ends_get, ends_ite, ends_pure]
    refine (hb f vars ids inner t bodyTyped fit1.before).mono fun _ u passed => ?_
    have passed' := passed.after fit.bound steps1
    refine ⟨fun _ => passed', fun running => ?_⟩
    have fit2 := passed'.fit (by simpa using running)
    exact (hl f vars condition ids inner u conditionTyped bodyTyped fit2).mono fun _ w again =>
      again.after fit.bound passed'.steps

lemma statement_ends (h : Evaluates env n) (hb : Blocks env n) (hl : Loops env n) : Statements env (n + 1) := by
  intro f vars id vars' s typed before
  simp only [statement, ends_bind, ends_get, ends_ite, ends_pure]
  refine ⟨fun stopped => ⟨⟨before.inside, fun running => ?_⟩, .refl s⟩, fun running => ?_⟩
  · rw [stopped] at running
    cases running
  have fit := before.fit (by simpa using running)
  -- A body that runs behind a condition.
  have body : ∀ {ids inner t}, StmtsTyped env.ast env.scope f vars ids inner →
    Fit env.scope f vars t → Steps s t → Ends (block env n ids) t
    (fun _ => Passed env.scope f vars s) (OnlyFuel env.scope) := fun bodyTyped fit1 steps =>
    (hb f vars _ _ _ bodyTyped fit1.before).mono fun _ u passed => passed.after fit.bound steps
  obtain ⟨node, hnode, is⟩ := typed.node
  simp only [hnode]
  cases typed with
  | expr here typed =>
    simp only [is here, setLast, ends_bind, ends_modify]
    refine (h f vars _ _ s typed fit).mono ?_
    rintro r t ⟨goes, _⟩
    have goes' := goes.setLast r
    exact (fit.goes goes').passed goes'.steps
  | letVar here typed fresh declared owned value =>
    simp only [is here]
    exact let_ends h fit declared typed
  | ret here notMain found typed =>
    simp only [is here]
    rw [ends_bind]
    refine (h f vars _ _ s typed fit).mono ?_
    rintro r t ⟨goes, hr⟩
    refine return_ends notMain found goes.inside goes.steps fun unhalted => ?_
    obtain ⟨v, rfl, hv⟩ := hr unhalted
    exact hv
  | retVoid here notMain found void =>
    simp only [is here]
    exact return_ends notMain found fit.inside (.refl s) fun _ => void.symm
  | ifThen here typed thenTyped =>
    simp only [is here]
    refine condition_ends h typed fit fun b t fit1 steps1 => ?_
    cases b with
    | false => exact fit1.passed steps1
    | true => exact body thenTyped fit1 steps1
  | ifElse here typed thenTyped elseTyped =>
    simp only [is here]
    refine condition_ends h typed fit fun b t fit1 steps1 => ?_
    cases b with
    | false => exact body elseTyped fit1 steps1
    | true => exact body thenTyped fit1 steps1
  | whileLoop here typed bodyTyped =>
    simp only [is here]
    exact hl f vars _ _ _ s typed bodyTyped fit
  | function here =>
    simp only [is here]
    exact ⟨before, .refl s⟩

/-! ### Calls -/

lemma bindAll_ends (declared : parameters.map scope.var? = xs.map some)
    (typed : arguments.map type = xs.map Variable.ty) (inside : Inside scope g s) :
    Ends ((parameters.zip arguments).forM fun (parameter, argument) => bindVariable parameter argument) s
      (fun _ t => Inside scope g t ∧ Steps s t ∧ t.returned = s.returned ∧ Bound parameters t) F := by
  induction parameters generalizing xs arguments s with
  | nil => exact ⟨inside, .refl s, rfl, by simp [Bound]⟩
  | cons p ps ih =>
    obtain _ | ⟨x, xs⟩ := xs
    · simp at declared
    obtain _ | ⟨a, as⟩ := arguments
    · simp at typed
    rw [map_cons, map_cons, cons.injEq] at declared typed
    rw [zip_cons_cons, ends_forM_cons]
    refine (bindVariable_ends inside p a fun _ => ⟨x, declared.1, typed.1⟩).mono ?_
    intro _ t ⟨inside1, steps1, returned1, _, _, here⟩
    refine (ih declared.2 typed.2 inside1).mono fun _ u ⟨inside2, steps2, returned2, bound⟩ => ?_
    exact ⟨inside2, steps1.trans steps2, returned2.trans returned1,
      forall_mem_cons.2 ⟨steps2.bound p a here, bound⟩⟩

/-- The frame of a call holds the arguments in the parameters. -/
lemma enter_ends (g : FunId) (declared : parameters.map scope.var? = xs.map some)
    (typed : arguments.map type = xs.map Variable.ty)
    (inside : Inside scope f s) (running : s.returned = false) : Ends (enter parameters arguments) s
    (fun _ t => Fit scope g parameters.reverse t ∧ t.frames.tail = s.frames ∧ Rests s t) F := by
  have opened : Inside scope g { s with frames := ∅ :: s.frames } := by
    refine ⟨by simp, fun unhalted => forall_mem_cons.2 ⟨fun v value hv => ?_,
      inside.typed unhalted⟩, fun hr => ?_⟩
    · simp at hv
    · rw [running] at hr
      cases hr
  refine (bindAll_ends declared typed opened).mono fun _ t ⟨inside1, steps1, returned1, bound⟩ => ?_
  exact ⟨⟨inside1, returned1.trans running, fun v hv => bound v (mem_reverse.1 hv)⟩, steps1.outer,
    ⟨steps1.halted, steps1.report⟩⟩

lemma defaultReturn_ends (function : Function) (proper : function.returnType.IsProper) (s : State) :
    Ends (defaultReturn function) s (fun v t => v.type = function.returnType ∧ t.frames = s.frames ∧
      Rests s t) F := by
  simp only [defaultReturn]
  split <;> exact ⟨type_defaultOf proper, rfl, fun h => ⟨h, rfl⟩, fun _ => rfl⟩

/-- What the callee left behind becomes the value of the call. -/
lemma leave_ends (found : env.scope.function? g = some function)
    (proper : function.returnType.IsProper) (inside : Inside env.scope f s)
    (inside' : Inside env.scope g t) (outer : t.frames.tail = s.frames) (rests : Rests s t) :
    Ends (leave function) t (fun v u => u.frames = s.frames ∧
      Evaluated env.scope f function.returnType s (some v) u) (OnlyFuel env.scope) := by
  -- The state at the end, from the state `u` in which the value is known.
  have done : ∀ (v : Value) (u : State), u.frames = s.frames →
      Rests t u → (u.halted = false → v.type = function.returnType) →
      Evaluated env.scope f function.returnType s (some v) { u with returned := false } := by
    intro v u frames rests' hv
    have all := rests.trans rests'
    exact ⟨⟨inside.same frames rfl all.unhalted, rfl, .same frames ⟨all.halted, all.report⟩⟩,
      fun hu => ⟨v, rfl, hv hu⟩⟩
  simp only [leave, closeFrame, ends_bind, ends_modify, ends_get, ends_pure, ends_ite]
  refine ⟨fun returned => ⟨outer, done _ { t with frames := t.frames.tail } outer ⟨fun h =>
    ⟨h, rfl⟩, fun _ => rfl⟩ fun ht => ?_⟩, fun _ => ?_⟩
  · obtain ⟨value, function', last, found', hvalue⟩ := (inside'.result returned).2 ht
    rw [found] at found'
    obtain rfl := some.inj found'
    simp only [last, getD_some]
    exact hvalue
  · refine (defaultReturn_ends function proper _).mono ?_
    rintro v u ⟨hv, frames, rests'⟩
    exact ⟨frames.trans outer, done v u (frames.trans outer) ⟨rests'.halted, rests'.report⟩ fun _ => hv⟩

lemma call_ends (hb : Blocks env n) (proper : ∀ g function, env.scope.function? g = some function →
      function.returnType.IsProper) (bodies : ∀ g function, env.scope.function? g = some function →
      ∃ vars, StmtsTyped env.ast env.scope g function.parameters.reverse function.body vars) :
    Calls env (n + 1) := by
  intro f g function xs arguments s found declared typed inside running
  rw [ends_call env found]
  refine (enter_ends g declared typed inside running).mono fun _ t ⟨fit, outer, rests⟩ => ?_
  obtain ⟨vars, bodyTyped⟩ := bodies g function found
  refine (hb g _ _ vars t bodyTyped fit.before).mono fun _ u ⟨after, steps⟩ => ?_
  exact leave_ends found (proper g function found) inside after.inside (steps.outer.trans outer)
    (rests.trans steps.toRests)

/-! ### Runs -/

/-- All kinds of tasks with the bound `n` on the depth. -/
structure SoundAt (env : Env) (n : Nat) : Prop where
  expression : Evaluates env n
  call : Calls env n
  block : Blocks env n
  statement : Statements env n
  loop : Loops env n

/-- The program that runs is checked. -/
def Env.Checked (env : Env) : Prop := ∃ report, (⟨env.ast, env.scope, report⟩ : Program).Checked

theorem soundAt (checked : env.Checked) (n : Nat) : SoundAt env n := by
  obtain ⟨report, checked⟩ := checked
  induction n with
  | zero =>
    exact {
      expression := fun _ _ _ _ _ _ fit => by rw [Eval.expression]; exact ⟨rfl, fit.inside.typed⟩
      call := fun _ _ _ _ _ _ _ _ _ inside _ => by rw [Eval.call]; exact ⟨rfl, inside.typed⟩
      block := fun _ _ _ _ _ _ before => by rw [Eval.block]; exact ⟨rfl, before.inside.typed⟩
      statement := fun _ _ _ _ _ _ before => by rw [Eval.statement]; exact ⟨rfl, before.inside.typed⟩
      loop := fun _ _ _ _ _ _ _ _ fit => by rw [Eval.loop]; exact ⟨rfl, fit.inside.typed⟩ }
  | succ n ih =>
    exact {
      expression := expression_ends ih.expression ih.call
      call := call_ends ih.block checked.ready.returns checked.bodies
      block := block_ends ih.statement
      statement := statement_ends ih.expression ih.block ih.loop
      loop := loop_ends ih.expression ih.block ih.loop }

/-- The task is typed, and the state fit for it. -/
inductive Moment.Sound (env : Env) : Moment → Prop where
  | expression {n : Nat} {e : ExprId} {s : State} {f : FunId} {vars : List VarId}
      {ty : Ty} (typed : HasType env.ast env.scope vars e ty) (fit : Fit env.scope f vars s) :
      Sound env ⟨n, .expression e, s⟩
  | call {n : Nat} {s : State} {f g : FunId} {function : Function} {xs : List Variable} {arguments : List Value}
      (found : env.scope.function? g = some function)
      (declared : function.parameters.map env.scope.var? = xs.map some)
      (typed : arguments.map type = xs.map Variable.ty) (inside : Inside env.scope f s)
      (running : s.returned = false) : Sound env ⟨n, .call g arguments, s⟩
  | block {n : Nat} {s : State} {f : FunId} {ids : List StmtId} {vars vars' : List VarId}
      (typed : StmtsTyped env.ast env.scope f vars ids vars') (before : Before env.scope f vars s) :
      Sound env ⟨n, .block ids, s⟩
  | statement {n : Nat} {s : State} {f : FunId} {id : StmtId} {vars vars' : List VarId}
      (typed : StmtTyped env.ast env.scope f vars id vars') (before : Before env.scope f vars s) :
      Sound env ⟨n, .statement id, s⟩
  | loop {n : Nat} {s : State} {f : FunId} {condition : ExprId} {ids : List StmtId}
      {vars inner : List VarId} (typed : HasType env.ast env.scope vars condition .bool)
      (bodyTyped : StmtsTyped env.ast env.scope f vars ids inner) (fit : Fit env.scope f vars s) :
      Sound env ⟨n, .loop condition ids, s⟩

lemma hasTypes_append {e : ExprId}
    {before after : List ExprId} (h : HasTypes ast scope vars (before ++ e :: after) tys) :
    (∃ tys', HasTypes ast scope vars before tys') ∧ ∃ ty, HasType ast scope vars e ty := by
  induction before generalizing tys with
  | nil =>
    obtain _ | ⟨head, -⟩ := h
    exact ⟨⟨_, .nil⟩, _, head⟩
  | cons e' before ih =>
    obtain _ | ⟨head, tail⟩ := h
    obtain ⟨⟨tys', before'⟩, here⟩ := ih tail
    exact ⟨⟨_, .cons head before'⟩, here⟩

lemma chosen_body {b : Bool} {thenBody body : Body}
    {elseBody : Option Body} (chosen : (if b then some thenBody else elseBody) = some body) :
    body = thenBody ∨ some body = elseBody := by
  cases b with
  | false => exact .inr chosen.symm
  | true => exact .inl (some.inj chosen).symm

lemma stmtsTyped_append {before after : List StmtId} (h : StmtsTyped ast scope f vars (before ++ after) vars') :
    ∃ mid, StmtsTyped ast scope f vars before mid ∧ StmtsTyped ast scope f mid after vars' := by
  induction before generalizing vars with
  | nil => exact ⟨vars, .nil, h⟩
  | cons id before ih =>
    obtain _ | ⟨head, tail⟩ := h
    obtain ⟨mid, first, second⟩ := ih tail
    exact ⟨mid, .cons head first, second⟩

lemma Gives.of_ends {α : Type} {act : Run α} {a : α} (gives : Gives act s a t)
    {Q : α → State → Prop} (h : Ends act s Q F) : Q a t :=
  h.of_ok gives

/-- **A run sets out only on tasks that are typed, in states fit for them.** Nothing is reported on
the way there. -/
lemma Begins.sound (checked : env.Checked) (begins : Begins env m m') (sound : m.Sound env) :
    m'.Sound env ∧ Silent m.state m'.state := by
  have all := soundAt checked
  cases begins with
  | assigned here kind | negated here kind =>
    obtain ⟨typed, fit⟩ | _ := sound
    obtain ⟨-, parts⟩ := typed.parts (kind ▸ node?_of_expr here)
    exact ⟨.expression parts.1 fit, .refl _⟩
  | inner here kind =>
    obtain ⟨typed, fit⟩ | _ := sound
    obtain ⟨-, parts⟩ := typed.parts (kind ▸ node?_of_expr here)
    exact ⟨.expression parts fit, .refl _⟩
  | left here kind =>
    obtain ⟨typed, fit⟩ | _ := sound
    obtain ⟨-, a, b, leftTyped, rightTyped, yields⟩ := typed.parts (kind ▸ node?_of_expr here)
    exact ⟨.expression leftTyped fit, .refl _⟩
  | right here kind first =>
    obtain ⟨typed, fit⟩ | _ := sound
    obtain ⟨-, a, b, leftTyped, rightTyped, yields⟩ := typed.parts (kind ▸ node?_of_expr here)
    have done := first.of_ends ((all _).expression _ _ _ _ _ leftTyped fit)
    exact ⟨.expression rightTyped (fit.goes done.toGoes), done.steps.silent⟩
  | argument here kind first =>
    obtain ⟨typed, fit⟩ | _ := sound
    obtain ⟨-, parts⟩ := typed.parts (kind ▸ node?_of_expr here)
    obtain ⟨tys, typed⟩ := parts.arguments
    obtain ⟨⟨tys', before⟩, ty, typed⟩ := hasTypes_append typed
    have done := first.of_ends (collect_ends (all _).expression fit before)
    exact ⟨.expression typed (fit.goes done.toGoes), done.steps.silent⟩
  | called here kind first =>
    obtain ⟨typed, fit⟩ | _ := sound
    obtain ⟨-, function, xs, found, declared, typed, -⟩ := typed.parts (kind ▸ node?_of_expr here)
    have done := first.of_ends (collect_ends (all _).expression fit typed)
    exact ⟨.call found declared (done.values _ rfl).1 done.inside done.running, done.steps.silent⟩
  | @body n s t g function arguments found entered =>
    obtain _ | ⟨found', declared, typed, inside, running⟩ := sound
    rw [found] at found'
    obtain rfl := some.inj found'
    obtain ⟨report, checked⟩ := checked
    obtain ⟨vars, bodyTyped⟩ := checked.bodies _ _ found
    obtain ⟨fit, -, rests⟩ :=
      entered.of_ends (enter_ends g (F := OnlyFuel env.scope) declared typed inside running)
    exact ⟨.block bodyTyped fit.before, rests.silent⟩
  | listed first =>
    obtain _ | _ | ⟨typed, before⟩ := sound
    obtain ⟨mid, earlier, _ | ⟨head, tail⟩⟩ := stmtsTyped_append typed
    have done := first.of_ends (forM_ends (all _).statement earlier before)
    exact ⟨.statement head done.toBefore, done.steps.silent⟩
  | evaluated running here own =>
    obtain _ | _ | _ | ⟨typed, before⟩ := sound
    obtain ⟨ty, typed⟩ := (typed.parts (stmtKind?_of_stmt here)).spanned own
    exact ⟨.expression typed (before.fit running), .refl _⟩
  | condition running here kind =>
    obtain _ | _ | _ | ⟨typed, before⟩ := sound
    have parts := typed.parts (kind ▸ stmtKind?_of_stmt here)
    exact ⟨.expression parts.1 (before.fit running), .refl _⟩
  | branch running here kind first unhalted chosen =>
    obtain _ | _ | _ | ⟨typed, before⟩ := sound
    have parts := typed.parts (kind ▸ stmtKind?_of_stmt here)
    have fit := before.fit running
    have goes := (first.of_ends ((all _).expression _ _ _ _ _ parts.1 fit)).toGoes.setLast none
    obtain ⟨inner, bodyTyped⟩ := parts.2 _ (chosen_body chosen)
    exact ⟨.block bodyTyped (fit.goes goes).before, goes.steps.silent⟩
  | looped running here kind =>
    obtain _ | _ | _ | ⟨typed, before⟩ := sound
    have parts := typed.parts (kind ▸ stmtKind?_of_stmt here)
    obtain ⟨conditionTyped, inner, bodyTyped⟩ := parts
    exact ⟨.loop conditionTyped bodyTyped (before.fit running), .refl _⟩
  | tested =>
    obtain _ | _ | _ | _ | ⟨typed, bodyTyped, fit⟩ := sound
    exact ⟨.expression typed fit, .refl _⟩
  | repeated first unhalted =>
    obtain _ | _ | _ | _ | ⟨typed, bodyTyped, fit⟩ := sound
    have goes := (first.of_ends ((all _).expression _ _ _ _ _ typed fit)).toGoes.setLast none
    exact ⟨.block bodyTyped (fit.goes goes).before, goes.steps.silent⟩
  | again first unhalted second running =>
    obtain _ | _ | _ | _ | ⟨typed, bodyTyped, fit⟩ := sound
    have goes := (first.of_ends ((all _).expression _ _ _ _ _ typed fit)).toGoes.setLast none
    have passed :=
      (second.of_ends ((all _).block _ _ _ _ _ bodyTyped (fit.goes goes).before)).after fit.bound goes.steps
    exact ⟨.loop typed bodyTyped (passed.fit running), passed.steps.silent⟩

/-- What comes of a task that is typed, set out on in a state fit for it. -/
lemma Moment.Sound.outcome_ends (checked : env.Checked) (sound : m.Sound env) :
    Ends (m.task.run env m.fuel) m.state (fun r t => (t.halted = false → FramesTyped env.scope t.frames) ∧
      ∀ g arguments function, m.task = .call g arguments → env.scope.function? g = some function →
        t.halted = false → ∃ v, r = some v ∧ v.type = function.returnType) (OnlyFuel env.scope) := by
  have all := soundAt checked
  cases sound with
  | expression typed fit =>
    refine ((all _).expression _ _ _ _ _ typed fit).mono fun r t done => ?_
    exact ⟨done.inside.typed, nofun⟩
  | call found declared typed inside running =>
    simp only [Task.run, ends_map]
    refine ((all _).call _ _ _ _ _ _ found declared typed inside running).mono fun v t ⟨_, done⟩ => ?_
    refine ⟨done.inside.typed, fun g arguments function h found' unhalted => ?_⟩
    obtain ⟨rfl, rfl⟩ := Task.call.inj h
    rw [found] at found'
    obtain rfl := some.inj found'
    exact done.value unhalted
  | block typed before =>
    simp only [Task.run, ends_map]
    refine ((all _).block _ _ _ _ _ typed before).mono fun _ t done => ?_
    exact ⟨done.inside.typed, nofun⟩
  | statement typed before =>
    simp only [Task.run, ends_map]
    refine ((all _).statement _ _ _ _ _ typed before).mono fun _ t done => ?_
    exact ⟨done.inside.typed, nofun⟩
  | loop typed bodyTyped fit =>
    simp only [Task.run, ends_map]
    refine ((all _).loop _ _ _ _ _ _ typed bodyTyped fit).mono fun _ t done => ?_
    exact ⟨done.inside.typed, nofun⟩

lemma inside_start (scope : Scope) (f : FunId) (report : Report) :
    Inside scope f { State.start report with frames := [∅] } := by
  refine ⟨by simp, fun _ frame hframe v value hv => ?_, nofun⟩
  obtain rfl := mem_singleton.1 hframe
  simp at hv

/-- The state in which a task is set out on has its variables typed. -/
lemma Moment.Sound.state_typed (sound : m.Sound env) (unhalted : m.state.halted = false) :
    FramesTyped env.scope m.state.frames := by
  cases sound with
  | call _ _ _ inside => exact inside.typed unhalted
  | expression _ fit | loop _ _ fit => exact fit.inside.typed unhalted
  | block _ before | statement _ before => exact before.inside.typed unhalted

end Eval

namespace Program

open Eval

/-- What type soundness says of a run. -/
structure RunsTyped (p : Program) (clock : Nat → Int64) (fuel : Nat) : Prop where
  /-- The run ends, or the bound on the depth is used up. -/
  faultless : ∀ fault, (p.run clock fuel).1 = .error fault → fault = .outOfFuel
  /-- At every moment of the run the variables of all open calls are typed, unless a fault has
  halted it. -/
  stateTyped : ∀ m, p.Reaches clock fuel m → m.state.halted = false → FramesTyped p.scope m.state.frames
  /-- So they are when the task of that moment is done, or given up. -/
  outcomeTyped : ∀ m, p.Reaches clock fuel m → ∀ r t, m.outcome ⟨p.ast, p.scope, clock⟩ = (r, t) →
    t.halted = false → FramesTyped p.scope t.frames
  /-- Every call of the run has a value of the callee's return type, unless a fault has halted
  it. -/
  calls : ∀ n f arguments s, p.Reaches clock fuel ⟨n, .call f arguments, s⟩ → ∀ v t,
    Gives (call ⟨p.ast, p.scope, clock⟩ n f arguments) s v t → t.halted = false →
    ∃ function, p.scope.function? f = some function ∧ v.type = function.returnType
  /-- A run that comes to its end without a fault has the value 0. -/
  result : ∀ value t, p.run clock fuel = (.ok value, t) → t.halted = false → value = .number 0

/-- A run is what comes of its first moment. -/
lemma run_eq (found : p.scope.function? Scope.main = some function) (clock : Nat → Int64) (fuel : Nat) :
    p.run clock fuel = match (p.entry fuel).outcome ⟨p.ast, p.scope, clock⟩ with
      | (.ok _, t) => (.ok (if t.halted then .void else .number 0), { t with frames := t.frames.tail })
      | (.error fault, t) => (.error fault, t) := by
  refine Ends.run_eq ?_
  simp only [Eval.main, found, openFrame, closeFrame, ends_bind, ends_modify, ends_get, ends_pure]
  have first := ends_self ((Task.block function.body).run ⟨p.ast, p.scope, clock⟩ fuel) (p.entry fuel).state
  have entry : (p.entry fuel).outcome ⟨p.ast, p.scope, clock⟩ =
      ((Task.block function.body).run ⟨p.ast, p.scope, clock⟩ fuel).run.run (p.entry fuel).state := by
    simp only [Moment.outcome, Program.entry, found, map_some, getD_some]
  rw [entry]
  simp only [Task.run, ends_map] at first ⊢
  exact first.imp (fun _ t h => by simp only [h]) fun _ t h => by simp only [h]

/-- The first moment of a checked program is sound. -/
lemma Checked.entry_sound (checked : p.Checked) (clock : Nat → Int64) (fuel : Nat) :
    (p.entry fuel).Sound ⟨p.ast, p.scope, clock⟩ := by
  obtain ⟨function, found, -, parameters⟩ := checked.main
  obtain ⟨vars, typed⟩ := checked.bodies _ _ found
  rw [parameters] at typed
  simp only [entry, found, map_some, getD_some]
  exact .block typed ⟨inside_start p.scope Scope.main p.report, fun _ => by simp [Bound]⟩

/-- So are all the others. -/
lemma Reaches.sound {clock : Nat → Int64} {fuel : Nat} (reaches : p.Reaches clock fuel m)
    (checked : p.Checked) : m.Sound ⟨p.ast, p.scope, clock⟩ := by
  induction reaches with
  | refl => exact checked.entry_sound clock fuel
  | tail _ begins ih => exact (begins.sound ⟨p.report, checked⟩ ih).1

/-- **Accepted programs are type sound.** No run of one comes upon a missing node, frame or
variable, a name that is not resolved, or a value of a kind that it cannot use. -/
theorem runsTyped_of_compile {text : List Char} {p : Program} (accepted : Program.compile text = .ok p)
    (clock : Nat → Int64) (fuel : Nat) : p.RunsTyped clock fuel := by
  have checked := checked_of_compile accepted
  have checkedEnv : (⟨p.ast, p.scope, clock⟩ : Env).Checked := ⟨p.report, checked⟩
  obtain ⟨function, found, -⟩ := checked.main
  have sound := fun m (reaches : p.Reaches clock fuel m) => reaches.sound checked
  have outcome : ∀ m, p.Reaches clock fuel m → ∀ r t, m.outcome ⟨p.ast, p.scope, clock⟩ = (r, t) →
      (t.halted = false → FramesTyped p.scope t.frames) ∧ ∀ fault, r = .error fault → fault = .outOfFuel := by
    intro m reaches r t h
    have ends := (sound m reaches).outcome_ends checkedEnv
    cases r with
    | ok value => exact ⟨(ends.of_ok h).1, nofun⟩
    | error fault =>
      obtain ⟨fuelOut, typed⟩ := ends.of_error h
      exact ⟨typed, fun _ same => Except.error.inj same ▸ fuelOut⟩
  refine ⟨fun fault h => ?_, fun m reaches => (sound m reaches).state_typed, fun m reaches r t h =>
    (outcome m reaches r t h).1, fun n f arguments s reaches v t gives unhalted => ?_,
    fun value t h unhalted => ?_⟩
  · rw [run_eq found] at h
    cases hentry : (p.entry fuel).outcome ⟨p.ast, p.scope, clock⟩ with
    | mk r t =>
      rw [hentry] at h
      cases r with
      | ok _ => cases h
      | error other =>
        obtain rfl : other = fault := Except.error.inj h
        exact (outcome _ .refl _ _ hentry).2 _ rfl
  · obtain _ | ⟨found', declared, typed, inside, running⟩ := sound _ reaches
    have done := gives.of_ends ((soundAt checkedEnv n).call _ _ _ _ _ _ found' declared typed inside running)
    obtain ⟨v', same, hv⟩ := done.2.value unhalted
    cases same
    exact ⟨_, found', hv⟩
  · rw [run_eq found] at h
    split at h
    · obtain ⟨hvalue, ht⟩ := Prod.mk.inj h
      cases hvalue
      rw [← ht] at unhalted
      dsimp only at unhalted
      simp only [unhalted, Bool.false_eq_true, if_false]
    · cases h

/-- Powers by recursion, divided by numbers of which the first is 0. -/
def powers : List Char :=
  ("fx power(b: int, n: int) -> int { if n == 0 { return 1; } return b * power(b, n - 1); }\n" ++
    "let i: int = 0;\nwhile i < 3 { print(power(2, i) / i); i = i + 1; }").toList

theorem runsTyped_powers : ∃ p, Program.compile powers = .ok p ∧ ∀ clock fuel, p.RunsTyped clock fuel := by
  have accepted : (Program.compile powers).toBool = true := by
    rw [show powers = _ from Token.toList_ofList_append ..]
    decide +kernel
  obtain ⟨p, accepted⟩ := exists_of_toBool accepted
  exact ⟨p, accepted, runsTyped_of_compile accepted⟩

end Program

end EmLang
