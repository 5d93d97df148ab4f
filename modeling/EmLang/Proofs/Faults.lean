import EmLang.Proofs.Settling
import EmLang.Proofs.TypeSoundness

/-!
Divisions that fail. One that is met by a run is reported, and then the program is frozen: what is
left of the expressions around it is still looked at, but nothing is printed or reported any more,
and the run comes to its end. A run that meets none reports nothing.
-/

namespace EmLang.Eval

variable {b : Bool} {d : Diagnostic} {condition e : ExprId} {F : Fault → State → Prop}
  {function : Function} {m' : Moment} {r : Option Value} {env : Env} {f g : FunId} {n : Nat}
  {ty : Ty} {vars : List VarId} {α : Type} {s t : State}

/-- At this moment the run is busy with a division that fails, in the state `u` in which both
operands are known. It is to be reported with the operator and where the division stands. -/
inductive Fails (env : Env) : Moment → Diagnostic → State → Prop where
  | zero {n : Nat} {s t u : State} {e : ExprId} {node : Expr} {op : BinaryOp}
      {sign : Text.Span} {left right : ExprId} {l : Int64} (here : env.ast.expr? e = some node)
      (kind : node.kind = .binary op sign left right) (division : op = .div ∨ op = .rem)
      (first : Gives (expression env n left) s (some (.number l)) t) (second : Gives
        (expression env n right) t (some (.number 0)) u) (unhalted : u.halted = false) :
      Fails env ⟨n + 1, .expression e, s⟩ ⟨.divisionByZero op.symbol, node.span⟩ u
  | overflow {n : Nat} {s t u : State} {e : ExprId} {node : Expr}
      {op : BinaryOp} {sign : Text.Span} {left right : ExprId} (here : env.ast.expr? e = some node)
      (kind : node.kind = .binary op sign left right) (division : op = .div ∨ op = .rem)
      (first : Gives (expression env n left) s (some (.number Int64.minValue)) t) (second : Gives
        (expression env n right) t (some (.number (-1))) u) (unhalted : u.halted = false) :
      Fails env ⟨n + 1, .expression e, s⟩ ⟨.divisionOverflow op.symbol, node.span⟩ u

/-! ### Halted programs come to their end -/

lemma forM_settles_stopped (stopped : s.stopped = true) (ids : List StmtId) :
    Settles (fun n => ids.forM (statement env n)) s fun _ t => t = s :=
  .succ ⟨0, (), s, fun _ _ => Ends.run_eq ((forM_skips stopped).mono fun _ _ same => by rw [same]), rfl⟩

/-- What is done only in a program that is not halted does not matter. -/
lemma settles_of_halted {act : Run α} {other : Nat → Run α} {Q : α → State → Prop} (halted : s.halted = true)
    (h : Ends act s Q fun _ _ => False) : Settles (fun n => do if ← isHalted then act else other n) s Q := by
  obtain ⟨N, a, t, gives, q⟩ := Settles.of_ends h
  refine ⟨N, a, t, fun n le => gives_bind.2 ⟨true, s, ?_, gives n le⟩, q⟩
  rw [Gives, ← halted]
  rfl

lemma settles_of_unhalted {act : Run α} {next : Nat → Run α}
    {Q : α → State → Prop} (unhalted : s.halted = false) (h : Settles next s Q) :
    Settles (fun n => do if ← isHalted then act else next n) s Q := by
  obtain ⟨N, a, t, gives, q⟩ := h
  refine ⟨N, a, t, fun n le => gives_bind.2 ⟨false, s, ?_, gives n le⟩, q⟩
  rw [Gives, ← unhalted]
  rfl

lemma settles_of_running {act : Run α} {next : Nat → Run α} {Q : α → State → Prop} (running : s.stopped = false)
    (h : Settles next s Q) : Settles (fun n => do if (← get).stopped then act else next n) s Q := by
  obtain ⟨N, a, t, gives, q⟩ := h
  refine ⟨N, a, t, fun n le => gives_bind.2 ⟨s, s, rfl, ?_⟩, q⟩
  rw [running]
  exact gives n le

lemma settles_condition {next : Nat → Bool → Run Unit} {Q : Unit → State → Prop}
    (first : Gives (expression env n condition) s (some (.bool b)) t) (unhalted : t.halted = false)
    (h : Settles (next · b) { t with last := none } Q) :
    Settles (fun n => do
      let value := (← expression env n condition).getD .void
      setLast none
      if ← isHalted then return
      let b ← expectBool value
      next n b) s Q := by
  refine .bind (.of_gives (fun n m le => (extendsAt env le).expression _) first (.bind (.of_ends ?_)))
  exact settles_of_unhalted unhalted (.bind (.of_ends h))

lemma leave_ends_same (function : Function) (t : State) :
    Ends (leave function) t (fun _ u => u.halted = t.halted ∧ u.report = t.report ∧ u.output = t.output) F := by
  simp only [leave, closeFrame, defaultReturn, ends_bind, ends_modify, ends_get, ends_pure, ends_ite]
  refine ⟨fun _ => ⟨trivial, trivial, trivial⟩, fun _ => ?_⟩
  split <;> exact ⟨rfl, rfl, rfl⟩

lemma call_settles_halted (found : env.scope.function? g = some function) (halted : s.halted = true) :
    Settles (call env · g []) s fun _ _ => True := by
  refine .succ ?_
  simp only [call_eq env found]
  refine .bind (.of_ends ?_)
  simp only [enter, openFrame, List.zip_nil_right, ends_bind, ends_modify, ends_forM_nil]
  refine .bind (.succ ?_)
  simp only [block]
  refine (forM_settles_stopped (by simp [State.stopped, halted]) function.body).imp fun _ t _ => ?_
  exact .of_ends ((leave_ends_same function t).mono fun _ _ _ => trivial)

/-- A halted program that is about to look at an expression. -/
structure Waiting (scope : Scope) (f : FunId) (vars : List VarId) (s : State) :
    Prop extends Fit scope f vars s where
  halted : s.halted = true

/-- What is known of a typed expression that comes to an end. -/
lemma Waiting.settles (checked : env.Checked) (waiting : Waiting env.scope f vars s)
    (typed : HasType env.ast env.scope vars e ty) (h : Settles (expression env · e) s fun _ _ => True) :
    Settles (expression env · e) s fun _ t => Waiting env.scope f vars t ∧ Steps s t :=
  (h.and_ends fun n => (soundAt checked n).expression f vars e ty s typed waiting.toFit).imp
  fun _ _ ⟨_, goes, _⟩ =>
    ⟨⟨waiting.toFit.goes goes, (goes.steps.halted waiting.halted).1⟩, goes.steps⟩

mutual

/-- **An expression of a halted program comes to its end.** Calls with arguments are given up behind
the first, and other calls skip the body of the function. -/
lemma expression_settles_halted (checked : env.Checked) {e : ExprId} {ty : Ty} {s : State}
    (waiting : Waiting env.scope f vars s) (typed : HasType env.ast env.scope vars e ty) :
    Settles (expression env · e) s fun _ t => Waiting env.scope f vars t ∧ Steps s t := by
  refine waiting.settles checked typed (.succ ?_)
  obtain ⟨node, hnode, -, -⟩ := typed.node
  have is := @Ast.kind_of_expr _ _ _ hnode
  simp only [expression, hnode]
  match typed with
  | .number here | .string here | .bool here =>
    simp only [is here]
    exact .of_ends trivial
  | .var here means declared =>
    simp only [is here]
    obtain ⟨value, hvalue⟩ := waiting.bound _ means.mem
    refine .of_ends ?_
    rw [ends_bind, ends_get, Option.bind_some, hvalue]
    trivial
  | .assign here means declared typed =>
    simp only [is here]
    refine .bind ((expression_settles_halted checked waiting typed).imp fun r t ⟨waiting1, _⟩ => .of_ends ?_)
    rw [ends_bind]
    refine (bindVariable_ends waiting1.inside _ _ fun unhalted => ?_).mono fun _ _ _ => trivial
    nomatch waiting1.halted.symm.trans unhalted
  | .binary here leftTyped rightTyped yields =>
    simp only [is here]
    refine .bind ((expression_settles_halted checked waiting leftTyped).imp fun l t ⟨waiting1, _⟩ => .bind ?_)
    refine (expression_settles_halted checked waiting1 rightTyped).imp fun r u ⟨waiting2, _⟩ => ?_
    exact settles_of_halted waiting2.halted trivial
  | .negate here typed =>
    simp only [is here]
    refine .bind ((expression_settles_halted checked waiting typed).imp fun r t ⟨waiting1, _⟩ => ?_)
    exact settles_of_halted waiting1.halted trivial
  | .paren here typed =>
    simp only [is here]
    exact (expression_settles_halted checked waiting typed).imp fun _ _ _ => trivial
  | .call here found notMain declared typed named unknown =>
    simp only [is here]
    refine .bind ((collect_settles_halted checked waiting typed).imp ?_)
    rintro _ t ⟨waiting1, rfl | ⟨rfl, -⟩⟩
    · exact .of_ends trivial
    · exact .map ((call_settles_halted found waiting1.halted).imp fun _ _ _ => trivial)
  | .builtin here typed takes named =>
    simp only [is here]
    refine .bind ((collect_settles_halted checked waiting typed).imp ?_)
    rintro _ t ⟨waiting1, rfl | ⟨rfl, rfl⟩⟩
    · exact .of_ends trivial
    · obtain ⟨⟩ := takes
      exact .of_ends trivial

lemma collect_settles_halted (checked : env.Checked) {es : List ExprId} {tys : List Ty}
    {s : State} (waiting : Waiting env.scope f vars s) : HasTypes env.ast env.scope vars es tys →
    Settles (fun n => collect (expression env n) es) s fun r t => Waiting env.scope f vars t ∧
    (r = none ∨ r = some [] ∧ tys = [])
  | .nil => .of_ends ⟨waiting, .inr ⟨rfl, rfl⟩⟩
  | .cons head tail => by
    refine .bind ((expression_settles_halted checked waiting head).imp fun r t ⟨waiting1, _⟩ => ?_)
    exact settles_of_halted waiting1.halted ⟨waiting1, .inl rfl⟩

end

/-! ### Frozen programs -/

/-- The program is halted, and this has been reported and printed. -/
structure Frozen (report : Report) (output : Array Value) (t : State) : Prop where
  halted : t.halted = true
  report : t.report = report
  output : t.output = output

/-- The task of the moment comes to its end, and then the program is frozen. -/
def Moment.Freezes (env : Env) (report : Report) (output : Array Value) (m : Moment) : Prop :=
  match m.task with
  | .expression e => Settles (expression env · e) m.state fun _ t => Frozen report output t
  | .call f arguments => Settles (call env · f arguments) m.state fun _ t => Frozen report output t
  | .block ids => Settles (block env · ids) m.state fun _ t => Frozen report output t
  | .statement id => Settles (statement env · id) m.state fun _ t => Frozen report output t
  | .loop condition ids => Settles (loop env · condition ids) m.state fun _ t => Frozen report output t

section

variable {report : Report} {output : Array Value} {s t : State} {op : BinaryOp}

section

variable (frozen : Frozen report output s)

include frozen

lemma Frozen.steps (steps : Steps s t) : Frozen report output t := by
  obtain ⟨halted, same⟩ := steps.halted frozen.halted
  exact ⟨halted, (steps.report (halted.trans frozen.halted.symm)).trans frozen.report, same.trans frozen.output⟩

lemma Frozen.stopped : s.stopped = true := by
  rw [State.stopped, frozen.halted, Bool.or_true]

lemma Frozen.setLast (last : Option Value) : Frozen report output { s with last } :=
  frozen.steps (.setLast s last)

lemma Frozen.bindVariable (inside : Inside env.scope f s) (v : VarId) (value : Value)
    : Ends (bindVariable v value) s (fun _ t => Frozen report output t) F := by
  refine (bindVariable_ends inside v value fun unhalted => ?_).mono fun _ _ ⟨_, steps, _⟩ => frozen.steps steps
  nomatch frozen.halted.symm.trans unhalted

end

variable {m : Moment} {v : Value}

lemma Fails.freezes (fails : Fails env m d t) : m.Freezes env (t.report.add d) t.output := by
  have frozen : ∀ d : Diagnostic, Frozen (t.report.add d) t.output
    { t with report := t.report.add d, halted := true } := fun d => ⟨rfl, rfl, rfl⟩
  cases fails with
  | zero here kind division first second unhalted | overflow here kind division first second unhalted =>
    refine .succ ?_
    simp only [expression, here, kind]
    refine .bind (.of_gives (fun n m le => (extendsAt env le).expression _) first (.bind ?_))
    refine .of_gives (fun n m le => (extendsAt env le).expression _) second (.of_ends ?_)
    simp only [isHalted, ends_bind, ends_get, ends_pure, ends_ite, ends_map, unhalted]
    obtain rfl | rfl := division <;> exact ⟨by rintro ⟨⟩, fun _ => frozen _⟩

lemma collect_freezes {values : List Value} {before after : List ExprId}
    (first : Gives (collect (expression env n) before) s (some values) t)
    (h : Settles (expression env · e) t fun _ u => Frozen report output u) :
    Settles (fun n => collect (expression env n) (before ++ e :: after)) s fun r u => r = none ∧
    Frozen report output u := by
  induction before generalizing s values with
  | nil =>
    obtain ⟨⟩ := first
    exact .bind (h.imp fun _ _ frozen => settles_of_halted frozen.halted ⟨rfl, frozen⟩)
  | cons e' before ih =>
    obtain ⟨r, s1, head, rest⟩ := gives_bind.1 first
    obtain ⟨halted, _, looked, rest⟩ := gives_bind.1 rest
    obtain ⟨⟩ := looked
    cases unhalted : s1.halted with
    | true =>
      rw [unhalted] at rest
      cases rest
    | false =>
      rw [unhalted] at rest
      obtain ⟨_ | values', s2, tail, last⟩ := gives_bind.1 rest
      · cases last
      obtain ⟨⟩ := last
      refine .bind (.of_gives (fun n m le => (extendsAt env le).expression e') head (.bind (.of_ends ?_)))
      simp only [isHalted, ends_bind, ends_get, ends_pure, unhalted, Bool.false_eq_true, if_false]
      exact .bind ((ih tail).imp fun _ _ both => .of_ends ⟨by rw [both.1]; rfl, both.2⟩)

lemma forM_freezes {after before : List StmtId}
    {id : StmtId} (first : Gives (before.forM (statement env n)) s ⟨⟩ t)
    (h : Settles (statement env · id) t fun _ u => Frozen report output u) : Settles (fun n =>
      (before ++ id :: after).forM (statement env n)) s fun _ u => Frozen report output u := by
  induction before generalizing s with
  | nil =>
    obtain ⟨⟩ := first
    refine .bind (h.imp fun _ u frozen => (forM_settles_stopped frozen.stopped after).imp ?_)
    rintro _ _ rfl
    exact frozen
  | cons id' before ih =>
    obtain ⟨_, s1, head, tail⟩ := gives_bind.1 first
    exact .bind (.of_gives (fun n m le => (extendsAt env le).statement id') head (ih tail))

section

variable {node : Expr} (checked : env.Checked) (typed : HasType env.ast env.scope vars e ty)
  (fit : Fit env.scope f vars s) (here : env.ast.expr? e = some node) {value : ExprId}

include checked typed fit here

/-- A value that freezes the program is not bound. -/
lemma assign_freezes {name equals : Text.Span} {bound : Option VarId}
    (kind : node.kind = .assign name equals value bound)
    (h : Settles (expression env · value) s fun _ t => Frozen report output t) :
    Settles (expression env · e) s fun _ t => Frozen report output t := by
  obtain ⟨-, typed, v, x, rfl, -⟩ := typed.parts (kind ▸ Ast.node?_of_expr here)
  refine .succ ?_
  simp only [expression, here, kind]
  refine .bind ((h.and_ends fun n => (soundAt checked n).expression _ _ _ _ _ typed fit).imp ?_)
  rintro r t ⟨frozen, evaluated⟩
  refine .of_ends ?_
  rw [ends_bind]
  exact (frozen.bindVariable evaluated.inside v _).mono fun _ _ frozen => frozen

/-- Behind an operand that freezes the program the other one is evaluated, to no effect. -/
lemma left_freezes {sign : Text.Span} {left right : ExprId}
    (kind : node.kind = .binary op sign left right)
    (h : Settles (expression env · left) s fun _ t => Frozen report output t) :
    Settles (expression env · e) s fun _ t => Frozen report output t := by
  obtain ⟨-, a, b, leftTyped, rightTyped, -⟩ := typed.parts (kind ▸ Ast.node?_of_expr here)
  refine .succ ?_
  simp only [expression, here, kind]
  refine .bind ((h.and_ends fun n => (soundAt checked n).expression _ _ _ _ _ leftTyped fit).imp ?_)
  rintro l t ⟨frozen, goes, -⟩
  refine .bind ((expression_settles_halted checked ⟨fit.goes goes, frozen.halted⟩ rightTyped).imp ?_)
  rintro r u ⟨waiting', steps⟩
  exact settles_of_halted waiting'.halted (frozen.steps steps)

end

/-- A statement does no more than its expression when that freezes the program. -/
lemma statement_freezes {vars' : List VarId} {id : StmtId} {node : Stmt} (checked : env.Checked)
    (typed : StmtTyped env.ast env.scope f vars id vars') (before : Before env.scope f vars s)
    (running : s.stopped = false) (here : env.ast.stmt? id = some node) (own : e ∈
      node.kind.spanned) (h : Settles (expression env · e) s fun _ t => Frozen report output t) :
    Settles (statement env · id) s fun _ t => Frozen report output t := by
  have parts := typed.parts (Ast.stmtKind?_of_stmt here)
  obtain ⟨ty, typed⟩ := parts.spanned own
  have ended := h.and_ends fun n => (soundAt checked n).expression _ _ _ _ _ typed (before.fit running)
  refine .succ ?_
  simp only [statement, here]
  refine settles_of_running running ?_
  cases kind : node.kind with
  | expr =>
    rw [kind] at own
    obtain rfl := List.mem_singleton.1 own
    exact .bind (ended.imp fun r t both => .of_ends (both.1.setLast r))
  | letVar keyword name ascription init declared =>
    rw [kind] at own parts
    obtain rfl := List.mem_singleton.1 own
    obtain ⟨v, x, rfl, -⟩ := parts
    refine .bind (ended.imp ?_)
    rintro r t ⟨frozen, done⟩
    refine .of_ends ?_
    exact (frozen.setLast none).bindVariable (done.toGoes.setLast none).inside v _
  | ret keyword value =>
    rw [kind] at own
    obtain rfl := Option.mem_toList.1 own
    exact .bind (ended.imp fun r t both => .of_ends ⟨both.1.halted, both.1.report, both.1.output⟩)
  | ifElse | whileLoop | function =>
    rw [kind] at own
    exact (List.not_mem_nil own).elim

/-- **A frozen program stays frozen**, whatever the run was busy with when it set out on the task
that froze it. -/
lemma Begins.freezes (checked : env.Checked) (begins : Begins env m m') (sound : m.Sound env)
    (h : m'.Freezes env report output) : m.Freezes env report output := by
  have larger := fun (n m : Nat) (le : n ≤ m) => extendsAt env le
  cases begins with
  | assigned here kind =>
    obtain ⟨typed, fit⟩ | _ := sound
    exact assign_freezes checked typed fit here kind h
  | left here kind =>
    obtain ⟨typed, fit⟩ | _ := sound
    exact left_freezes checked typed fit here kind h
  | right here kind first =>
    refine .succ ?_
    simp only [expression, here, kind]
    refine .bind (.of_gives (fun n m le => (larger n m le).expression _) first
      (.bind (h.imp fun r u frozen => ?_)))
    exact settles_of_halted frozen.halted frozen
  | negated here kind =>
    refine .succ ?_
    simp only [expression, here, kind]
    exact .bind (h.imp fun r t frozen => settles_of_halted frozen.halted frozen)
  | inner here kind =>
    refine .succ ?_
    simp only [expression, here, kind]
    exact h
  | argument here kind first =>
    refine .succ ?_
    simp only [expression, here, kind]
    refine .bind ((collect_freezes first h).imp ?_)
    rintro _ t ⟨rfl, frozen⟩
    exact .of_ends frozen
  | called here kind first =>
    refine .succ ?_
    simp only [expression, here, kind]
    exact .bind (.of_gives (fun n m le => .collect (larger n m le).expression _) first (.map h))
  | body found entered =>
    refine .succ ?_
    simp only [call_eq env found]
    refine .bind (.of_gives (fun _ _ _ => .refl _) (n := 0) entered
      (.bind (h.imp fun _ t frozen => .of_ends ?_)))
    refine (leave_ends_same _ t).mono ?_
    rintro _ u ⟨halted, reported, printed⟩
    exact ⟨halted.trans frozen.halted, reported.trans frozen.report, printed.trans frozen.output⟩
  | listed first =>
    refine .succ ?_
    simp only [block]
    exact forM_freezes first h
  | evaluated running here own =>
    obtain _ | _ | _ | ⟨typed, before⟩ := sound
    exact statement_freezes checked typed before running here own h
  | condition running here kind =>
    refine .succ ?_
    simp only [statement, here, kind]
    refine settles_of_running running (.bind (h.imp fun r t frozen => .bind (.of_ends ?_)))
    exact settles_of_halted frozen.halted (frozen.setLast none)
  | @branch n s t id node keyword condition thenBody elseBody b body running here kind first unhalted chosen =>
    refine .succ ?_
    simp only [statement, here, kind]
    refine settles_of_running running (settles_condition first unhalted ?_)
    cases b with
    | true =>
      cases chosen
      exact h
    | false =>
      obtain rfl : elseBody = some body := chosen
      exact h
  | looped running here kind =>
    refine .succ ?_
    simp only [statement, here, kind]
    exact settles_of_running running h
  | tested =>
    refine .succ ?_
    simp only [loop]
    exact .bind (h.imp fun r t frozen =>
      .bind (.of_ends (settles_of_halted frozen.halted (frozen.setLast none))))
  | repeated first unhalted =>
    refine .succ ?_
    simp only [loop]
    refine settles_condition first unhalted (.bind (h.imp fun _ t frozen => .bind (.of_ends ?_)))
    rw [ends_get]
    simp only [frozen.stopped, if_true]
    exact .of_ends frozen
  | again first unhalted second running =>
    refine .succ ?_
    simp only [loop]
    refine settles_condition first unhalted
      (.bind (.of_gives (fun n m le => (larger n m le).block _) second ?_))
    exact settles_of_running running h

/-! ### Runs in which no division fails -/

lemma gives_expectNumber {n : Int64} (h : Gives (expectNumber v) s n t) : v = .number n := by
  cases v with
  | number => obtain ⟨⟩ := h; rfl
  | _ => cases h

lemma gives_expectBool (h : Gives (expectBool v) s b t) : v = .bool b ∧ t = s := by
  cases v with
  | bool => obtain ⟨⟩ := h; exact ⟨rfl, rfl⟩
  | _ => cases h

lemma gives_isHalted (h : Gives isHalted s b t) : b = s.halted ∧ t = s := by
  obtain ⟨⟩ := h
  exact ⟨rfl, rfl⟩

lemma eq_some_of_getD (h : r.getD .void = v) (value : v ≠ .void) : r = some v := by
  cases r with
  | none => exact absurd h.symm value
  | some => exact congrArg some h

/-- What holds from the state in which steps begin to the one in which they end, `F` where a fault
ends them, if it holds of each step. -/
class Leaving (R : State → State → Prop) (F : outParam (State → State → Prop)) : Prop where
  refl (s : State) : R s s
  fault (s : State) : F s s
  trans {s t u : State} : R s t → R t u → R s u
  fault_trans {s t u : State} : R s t → F t u → F s u
  last (s : State) (last : Option Value) : R s { s with last }
  frames (s : State) (frames : List Frame) : R s { s with frames }

variable {R G : State → State → Prop}

/-- It holds of these steps, however they end. -/
def Leaves {α : Type} (R G : State → State → Prop) (act : Run α) (s : State) : Prop :=
  Ends act s (fun _ t => R s t) fun _ t => G s t

namespace Leaves

variable {β : Type} {act act' : Run α} {next : α → Run β}

lemma ite {c : Prop} [Decidable c] (h : c → Leaves R G act s) (h' : ¬ c → Leaves R G act' s) :
    Leaves R G (if c then act else act') s := by
  split
  case isTrue holds => exact h holds
  case isFalse fails => exact h' fails

variable [Leaving R G]

lemma pure (a : α) : Leaves R G (pure a) s := Leaving.refl s

lemma throw (fault : Fault) : Leaves R G (throw fault : Run α) s := Leaving.fault R s

lemma bind (h : Leaves R G act s) (h' : ∀ a t, Gives act s a t → Leaves R G (next a) t) :
    Leaves R G (act >>= next) s := by
  unfold Leaves
  rw [ends_bind]
  refine (h.and (ends_self act s)).imp (fun a t ⟨first, gives⟩ => ?_) fun _ t ⟨same, _⟩ => same
  exact (h' a t gives).imp (fun _ _ => Leaving.trans first) fun _ _ => Leaving.fault_trans first

lemma map (f : α → β) (h : Leaves R G act s) : Leaves R G (f <$> act) s := by
  exact h.bind fun a t _ => pure _

lemma get : Leaves R G get s := Leaving.refl s

lemma setLast (value : Option Value) : Leaves R G (setLast value) s := Leaving.last s value

lemma isHalted : Leaves R G isHalted s := Leaving.refl s

lemma bindVariable (v : VarId) (value : Value) : Leaves R G (bindVariable v value) s := by
  refine get.bind fun a t _ => ?_
  cases a.frames with
  | nil => exact throw _
  | cons => exact Leaving.frames t _

lemma expectNumber (v : Value) : Leaves R G (expectNumber v) s := by
  cases v with
  | number => exact pure _
  | _ => exact throw _

lemma expectBool (v : Value) : Leaves R G (expectBool v) s := by
  cases v with
  | bool => exact pure _
  | _ => exact throw _

lemma enter (parameters : List VarId) (arguments : List Value) : Leaves R G (enter parameters arguments) s := by
  have bindings : ∀ (pairs : List (VarId × Value)) (t : State),
      Leaves R G (pairs.forM fun pair => Eval.bindVariable pair.1 pair.2) t := by
    intro pairs
    induction pairs with
    | nil => exact fun _ => pure _
    | cons pair pairs ih => exact fun t => (bindVariable _ _).bind fun _ t' _ => ih t'
  exact (show Leaves R G (modify _) s from Leaving.frames s _).bind fun _ t _ => bindings _ t

end Leaves

/-- With the bound `n` on the depth, it holds of all tasks about statements of which `P` holds. -/
structure BodiesLeave (env : Env) (P : Moment → Prop) (R G : State → State → Prop) (n : Nat) : Prop where
  expression : ∀ e s, P ⟨n, .expression e, s⟩ → Leaves R G (expression env n e) s
  block : ∀ ids s, P ⟨n, .block ids, s⟩ → Leaves R G (block env n ids) s
  statement : ∀ id s, P ⟨n, .statement id, s⟩ → Leaves R G (statement env n id) s
  loop : ∀ condition ids s, P ⟨n, .loop condition ids, s⟩ → Leaves R G (loop env n condition ids) s

/-- What a body sets out on has the property too, and a `return` that has it does not matter. -/
structure Watches (env : Env) (P : Moment → Prop) (R : State → State → Prop) : Prop where
  begins : ∀ m m', m.task.isBody = true → P m → Begins env m m' → P m'
  returns : ∀ n id s node keyword value t, P ⟨n + 1, .statement id, s⟩ → s.stopped = false →
    env.ast.stmt? id = some node → node.kind = .ret keyword value → R t { t with returned := true }

section

variable [Leaving R G] {P : Moment → Prop} (watches : Watches env P R)
  (ih : BodiesLeave env P R G n)

include ih

lemma condition_leaves {next : Bool → Run Unit} (here : P ⟨n, .expression condition, s⟩)
    (h : ∀ b t, Gives (expression env n condition) s (some (.bool b)) t → t.halted = false →
      Leaves R G (next b) { t with last := none }) : Leaves R G (do
      let value := (← expression env n condition).getD .void
      setLast none
      if ← isHalted then return
      let b ← expectBool value
      next b) s := by
  refine (ih.expression condition s here).bind fun r t first => (Leaves.setLast none).bind fun _ u set => ?_
  obtain ⟨⟩ := set
  refine Leaves.isHalted.bind fun b _ looked => ?_
  obtain ⟨rfl, rfl⟩ := gives_isHalted looked
  refine .ite (fun _ => .pure _) fun unhalted => (Leaves.expectBool _).bind fun b u second => ?_
  obtain ⟨value, rfl⟩ := gives_expectBool second
  obtain rfl := eq_some_of_getD value nofun
  exact h b t first (by simpa using unhalted)

include watches

lemma block_leaves (ids : List StmtId) (s : State) (here : P ⟨n + 1, .block ids, s⟩) :
    Leaves R G (block env (n + 1) ids) s := by
  rw [block]
  have listed : ∀ (before after : List StmtId) (t : State), ids = before ++ after → Gives
      (before.forM (statement env n)) s ⟨⟩ t → Leaves R G (after.forM (statement env n)) t := by
    intro before after
    induction after generalizing before with
    | nil => exact fun t _ _ => .pure _
    | cons id after step =>
      intro t same first
      subst same
      refine (ih.statement id t (watches.begins _ _ rfl here (.listed first))).bind fun _ u second => ?_
      refine step (before ++ [id]) u (by simp) ?_
      rw [show (before ++ [id]).forM (statement env n) = before.forM (statement env n) >>= fun _ =>
        [id].forM (statement env n) from List.forM_append]
      exact gives_bind.2 ⟨_, _, first, gives_bind.2 ⟨_, _, second, rfl⟩⟩
  exact listed [] ids s rfl rfl

lemma statement_leaves (id : StmtId) (s : State) (this : P ⟨n + 1, .statement id, s⟩) :
    Leaves R G (statement env (n + 1) id) s := by
  rw [statement]
  refine Leaves.get.bind fun a t same => ?_
  obtain ⟨⟩ := same
  refine .ite (fun _ => .pure _) fun running => ?_
  have running : s.stopped = false := by simpa using running
  have begins := fun m => watches.begins ⟨n + 1, .statement id, s⟩ m rfl this
  cases here : env.ast.stmt? id with
  | none => exact .throw _
  | some node =>
    dsimp only
    have own : ∀ e ∈ node.kind.spanned, Leaves R G (expression env n e) s := fun e own =>
      ih.expression e s (begins _ (.evaluated running here own))
    cases kind : node.kind with
    | expr e => exact (own e (by simp [kind, StmtKind.spanned])).bind fun _ _ _ => .setLast _
    | letVar keyword name ascription init bound =>
      refine (own init (by simp [kind, StmtKind.spanned])).bind fun _ _ _ =>
        (Leaves.setLast none).bind fun _ _ _ => ?_
      cases bound with
      | some v => exact .bindVariable v _
      | none => exact .throw _
    | ret keyword value =>
      have last : ∀ (result : Value) (t : State),
        Leaves R G (do setLast (some result); modify ({ · with returned := true })) t :=
        fun result t => (Leaves.setLast _).bind fun _ u _ =>
        watches.returns n id s node keyword value u this running here kind
      cases value with
      | some e => exact (own e (by simp [kind, StmtKind.spanned])).bind fun _ _ _ =>
          (Leaves.pure _).bind fun _ _ _ => last _ _
      | none => exact (Leaves.pure _).bind fun _ _ _ => last _ _
    | ifElse keyword condition thenBody elseBody =>
      refine condition_leaves ih (begins _ (.condition running here kind)) fun b t first unhalted => ?_
      have branch : ∀ body, (if b then some thenBody else elseBody) = some body →
          Leaves R G (block env n body.statements) { t with last := none } :=
        fun body chosen => ih.block _ _ (begins _ (.branch running here kind first unhalted chosen))
      cases b with
      | true => exact branch thenBody rfl
      | false =>
        cases elseBody with
        | some body => exact branch body rfl
        | none => exact .pure _
    | whileLoop keyword condition body => exact ih.loop condition _ s (begins _ (.looped running here kind))
    | function => exact .pure _

lemma loop_leaves (condition : ExprId) (ids : List StmtId) (s : State)
    (here : P ⟨n + 1, .loop condition ids, s⟩) : Leaves R G (loop env (n + 1) condition ids) s := by
  rw [loop]
  have begins := fun m => watches.begins ⟨n + 1, .loop condition ids, s⟩ m rfl here
  refine condition_leaves ih (begins _ .tested) fun b t first unhalted => ?_
  cases b with
  | false => exact .pure _
  | true =>
    refine (ih.block ids _ (begins _ (.repeated first unhalted))).bind fun _ u second => ?_
    refine Leaves.get.bind fun a u' same => ?_
    obtain ⟨⟩ := same
    refine .ite (fun _ => .pure _) fun running => ?_
    exact ih.loop condition ids u (begins _ (.again first unhalted second (by simpa using running)))

lemma bodiesLeave_succ (expression : ∀ e s, P ⟨n + 1, .expression e, s⟩ →
      Leaves R G (expression env (n + 1) e) s) : BodiesLeave env P R G (n + 1) :=
  ⟨expression, block_leaves watches ih, statement_leaves watches ih, loop_leaves watches ih⟩

omit watches ih in
lemma bodiesLeave_zero : BodiesLeave env P R G 0 where
  expression _ _ _ := by rw [expression]; exact .throw _
  block _ _ _ := by rw [block]; exact .throw _
  statement _ _ _ := by rw [statement]; exact .throw _
  loop _ _ _ _ := by rw [loop]; exact .throw _

end

/-- The program is neither halted nor is anything reported. -/
def Unreported (s t : State) : Prop := t.halted = s.halted ∧ t.report = s.report

instance : Leaving Unreported Unreported where
  refl _ := ⟨rfl, rfl⟩
  fault _ := ⟨rfl, rfl⟩
  trans h h' := ⟨h'.1.trans h.1, h'.2.trans h.2⟩
  fault_trans h h' := ⟨h'.1.trans h.1, h'.2.trans h.2⟩
  last _ _ := ⟨rfl, rfl⟩
  frames _ _ := ⟨rfl, rfl⟩

namespace Leaves

lemma leave (function : Function) : Leaves Unreported Unreported (leave function) s :=
  (leave_ends_same function s).mono fun _ _ ⟨halted, reported, _⟩ => ⟨halted, reported⟩

lemma callBuiltin (b : Builtin) (arguments : List Value) :
    Leaves Unreported Unreported (callBuiltin env b arguments) s := by
  cases b with
  | print | tick => exact ⟨rfl, rfl⟩
  | toText =>
    cases arguments with
    | nil => exact throw _
    | cons => exact pure _

/-- Only a division that fails halts the program. -/
lemma operate {left right : Value} (span : Text.Span) (possible : op = .div ∨ op = .rem →
      ∀ l r, left = .number l → right = .number r → r ≠ 0 ∧ ¬ (l = Int64.minValue ∧ r = -1)) :
    Leaves Unreported Unreported (operate op left right span) s := by
  have numbers : ∀ next : Int64 → Int64 → Run Value, (∀ l r t, left = .number l →
      right = .number r → Leaves Unreported Unreported (next l r) t) → Leaves Unreported Unreported
      (do next (← Eval.expectNumber left) (← Eval.expectNumber right)) s := by
    exact fun next h => (expectNumber left).bind fun l t first => (expectNumber right).bind fun r u second =>
      h l r u (gives_expectNumber first) (gives_expectNumber second)
  have divides : op = .div ∨ op = .rem → ∀ l r t, left = .number l → right = .number r →
      Leaves Unreported Unreported (divide op l r span) t := by
    intro division l r t hl hr
    obtain ⟨nonzero, inside⟩ := possible division l r hl hr
    exact ite (fun zero => absurd zero nonzero) fun _ =>
      ite (fun overflow => absurd overflow inside) fun _ => pure _
  cases op with
  | eq | ne => exact pure _
  | add =>
    cases left with
    | string l =>
      cases right with
      | string r => exact pure _
      | _ => exact numbers _ fun _ _ _ _ _ => pure _
    | _ => exact numbers _ fun _ _ _ _ _ => pure _
  | div => exact numbers _ (divides (.inl rfl))
  | rem => exact numbers _ (divides (.inr rfl))
  | _ => exact numbers _ fun _ _ _ _ _ => pure _

end Leaves

/-- No division fails from this moment on. -/
def Quiet (env : Env) (m : Moment) : Prop :=
  ∀ m' d u, Relation.ReflTransGen (Begins env) m m' → ¬ Fails env m' d u

lemma Quiet.begins (quiet : Quiet env m) (begins : Begins env m m') : Quiet env m' :=
  fun _ _ _ reaches => quiet _ _ _ (reaches.head begins)

/-- With the bound `n` on the depth, nothing is reported as long as no division fails. -/
structure LeavesAt (env : Env) (n : Nat) :
    Prop extends BodiesLeave env (Quiet env) Unreported Unreported n where
  call : ∀ f arguments s, Quiet env ⟨n, .call f arguments, s⟩ →
    Leaves Unreported Unreported (call env n f arguments) s

section

variable (ih : LeavesAt env n)

include ih

lemma collect_leaves {es : List ExprId} (quiet : ∀ before e after values t, es = before ++ e ::
      after → Gives (collect (expression env n) before) s (some values) t → Quiet env ⟨n,
      .expression e, t⟩) : Leaves Unreported Unreported (collect (expression env n) es) s := by
  induction es generalizing s with
  | nil => exact .pure _
  | cons e es step =>
    refine (ih.expression e s (quiet [] e es [] s rfl rfl)).bind fun r t first =>
      Leaves.isHalted.bind fun b _ looked => ?_
    obtain ⟨rfl, rfl⟩ := gives_isHalted looked
    refine .ite (fun _ => .pure _) fun unhalted =>
      (step fun before e' after values u same rest => ?_).bind fun _ _ _ => .pure _
    refine quiet (e :: before) e' after (r.getD .void :: values) u (by rw [same]; rfl) ?_
    refine gives_bind.2 ⟨r, _, first, gives_bind.2 ⟨_, _, looked, ?_⟩⟩
    rw [if_neg unhalted]
    exact gives_bind.2 ⟨_, _, rest, rfl⟩

lemma expression_leaves (e : ExprId) (s : State) (quiet : Quiet env ⟨n + 1, .expression e, s⟩) :
    Leaves Unreported Unreported (expression env (n + 1) e) s := by
  rw [expression]
  cases here : env.ast.expr? e with
  | none => exact .throw _
  | some node =>
    dsimp only
    cases kind : node.kind with
    | number | string | bool => exact .pure _
    | var name bound =>
      refine Leaves.get.bind fun a t _ => ?_
      cases bound.bind a.var? with
      | some value => exact .pure _
      | none => exact .throw _
    | assign name equals value bound =>
      refine (ih.expression value s (quiet.begins (.assigned here kind))).bind fun _ t _ => ?_
      cases bound with
      | some v => exact (Leaves.bindVariable v _).bind fun _ _ _ => .pure _
      | none => exact (Leaves.throw _).bind fun _ _ _ => .pure _
    | binary op sign left right =>
      refine (ih.expression left s (quiet.begins (.left here kind))).bind fun l t first => ?_
      refine (ih.expression right t (quiet.begins (.right here kind first))).bind fun r u second => ?_
      refine Leaves.isHalted.bind fun b _ looked => ?_
      obtain ⟨rfl, rfl⟩ := gives_isHalted looked
      refine .ite (fun _ => .pure _) fun unhalted => .map _ (.operate node.span fun division l' r' hl hr => ?_)
      obtain rfl := eq_some_of_getD hl nofun
      obtain rfl := eq_some_of_getD hr nofun
      -- Otherwise the division at this very moment fails.
      refine ⟨?_, ?_⟩
      · rintro rfl
        exact quiet _ _ _ .refl (.zero here kind division first second (by simpa using unhalted))
      · rintro ⟨rfl, rfl⟩
        exact quiet _ _ _ .refl (.overflow here kind division first second (by simpa using unhalted))
    | negate sign operand =>
      refine (ih.expression operand s (quiet.begins (.negated here kind))).bind fun _ t _ =>
        Leaves.isHalted.bind fun b u _ => ?_
      exact .ite (fun _ => .pure _) fun _ => (Leaves.expectNumber _).bind fun _ _ _ => .pure _
    | paren leftParen inner rightParen => exact ih.expression inner s (quiet.begins (.inner here kind))
    | call callee leftParen arguments rightParen target =>
      refine (collect_leaves ih fun before e' after values t same first => ?_).bind fun values t first => ?_
      · rw [same] at kind
        exact quiet.begins (.argument here kind first)
      cases values with
      | none => exact .pure _
      | some values =>
        cases target with
        | function f => exact .map _ (ih.call f values t (quiet.begins (.called here kind first)))
        | builtin b => exact .map _ (.callBuiltin b values)
        | unresolved => exact .throw _
    | error place => exact .throw _

lemma call_leaves (f : FunId) (arguments : List Value) (s : State) (quiet : Quiet env ⟨n + 1,
      .call f arguments, s⟩) : Leaves Unreported Unreported (call env (n + 1) f arguments) s := by
  cases found : env.scope.function? f with
  | none =>
    simp only [call, found]
    exact .throw _
  | some function =>
    rw [call_eq env found]
    refine (Leaves.enter _ _).bind fun _ t entered => ?_
    exact (ih.block _ t (quiet.begins (.body found entered))).bind fun _ _ _ => .leave function

end

theorem leavesAt (env : Env) : ∀ n, LeavesAt env n
  | 0 => ⟨bodiesLeave_zero, fun _ _ _ _ => by rw [call]; exact .throw _⟩
  | n + 1 =>
    have ih := leavesAt env n
    have watches : Watches env (Quiet env) Unreported := ⟨fun _ _ _ => Quiet.begins,
      fun _ _ _ _ _ _ _ _ _ _ _ => ⟨rfl, rfl⟩⟩
    ⟨bodiesLeave_succ watches ih.toBodiesLeave (expression_leaves ih), call_leaves ih⟩

/-! ### Runs in which a division fails -/

lemma ends_main (found : env.scope.function? Scope.main = some function) (fuel : Nat)
    (s : State) (Q : Value → State → Prop) (F : Fault → State → Prop) : Ends (main env fuel) s Q F ↔
    Ends (block env fuel function.body) { s with frames := ∅ :: s.frames } (fun _ t =>
      Q (if t.halted then .void else .number 0) { t with frames := t.frames.tail }) F := by
  simp only [main, found, openFrame, closeFrame, ends_bind, ends_modify, ends_get, ends_pure]

/-- Nothing has been reported when the operands of the division are known. -/
lemma Fails.reported (checked : env.Checked) (fails : Fails env m d t) (sound : m.Sound env) :
    m.state.halted = false ∧ t.report = m.state.report := by
  have all := soundAt checked
  cases fails with
  | zero here kind _ first second unhalted | overflow here kind _ first second unhalted =>
    obtain ⟨typed, fit⟩ | _ := sound
    obtain ⟨-, a, b, leftTyped, rightTyped, -⟩ := typed.parts (kind ▸ Ast.node?_of_expr here)
    have done := first.of_ends ((all _).expression _ _ _ _ _ leftTyped fit)
    have done' := second.of_ends ((all _).expression _ _ _ _ _ rightTyped (fit.goes done.toGoes))
    exact (done.steps.trans done'.steps).silent unhalted

/-- **From the first moment of a run to a division that fails.** Nothing is reported before it, and
it freezes the program. -/
lemma Fails.run (checked : env.Checked) (fails : Fails env m' d t)
    (reaches : Relation.ReflTransGen (Begins env) m m') (sound : m.Sound env) : m.Freezes env
    (t.report.add d) t.output ∧ m.state.halted = false ∧ t.report = m.state.report := by
  induction reaches using Relation.ReflTransGen.head_induction_on with
  | refl => exact ⟨fails.freezes, fails.reported checked sound⟩
  | head begins _ ih =>
    obtain ⟨sound', silent⟩ := begins.sound checked sound
    obtain ⟨freezes, unhalted, reported⟩ := ih sound'
    obtain ⟨unhalted', reported'⟩ := silent unhalted
    exact ⟨begins.freezes checked sound freezes, unhalted', reported.trans reported'⟩

end

end Eval

namespace Program

open Eval

/-- **The run is frozen** by a division that failed in the state `u` and was reported as `d`. With
every bound that is large enough it comes to the same end: all calls are left, the one error was
reported and nothing else, and nothing was printed since. -/
structure RunsFrozen (p : Program) (clock : Nat → Int64) (d : Diagnostic) (u t : State) : Prop where
  ends : ∃ least, ∀ fuel, least ≤ fuel → p.run clock fuel = (.ok .void, t)
  report : t.report = p.report.add d
  errors : t.report.errors = [d]
  failed : t.report.hasErrors = true
  output : t.output = u.output
  frames : t.frames = []

/-- **A division that fails freezes the program, and nothing else is reported.** -/
theorem runsFrozen_of_compile {text : List Char} {p : Program} (accepted : Program.compile text =
      .ok p) (clock : Nat → Int64) : (∀ fuel m d u, p.Reaches clock fuel m →
      Fails ⟨p.ast, p.scope, clock⟩ m d u → ∃ t, p.RunsFrozen clock d u t) ∧
    ∀ fuel, (∀ m d u, p.Reaches clock fuel m → ¬ Fails ⟨p.ast, p.scope, clock⟩ m d u) →
    (p.run clock fuel).2.report = p.report ∧ (p.run clock fuel).2.report.hasErrors = false := by
  have checked := checked_of_compile accepted
  have checkedEnv : (⟨p.ast, p.scope, clock⟩ : Env).Checked := ⟨p.report, checked⟩
  have clean := errors_of_compile accepted
  obtain ⟨function, found, -, parameters⟩ := checked.main
  refine ⟨fun fuel m d u reaches fails => ?_, fun fuel none => ?_⟩
  · obtain ⟨freezes, -, reported⟩ := fails.run checkedEnv reaches (checked.entry_sound clock fuel)
    simp only [entry, found, Option.map_some, Option.getD_some, Moment.Freezes] at freezes reported
    obtain ⟨vars, typed⟩ := checked.bodies _ _ found
    rw [parameters] at typed
    obtain ⟨least, _, t, gives, frozen, passed⟩ := freezes.and_ends fun n =>
      (soundAt checkedEnv n).block _ _ _ _ _ typed ⟨inside_start p.scope Scope.main p.report,
      fun _ => by simp [Bound]⟩
    have errors : (p.report.add d).errors = [d] := by
      have error : d.severity = .error := by cases fails <;> rfl
      simp [Report.add, error, clean]
    have same : t.report = p.report.add d := by rw [frozen.report, reported]; rfl
    refine ⟨{ t with frames := t.frames.tail }, ⟨least, fun n le => ?_⟩, same, same ▸ errors, ?_,
      frozen.output, passed.steps.outer⟩
    · exact Ends.run_eq ((ends_main found n _ _ _).2 ((gives n le).ends (by rw [if_pos frozen.halted])))
    · show Report.hasErrors t.report = true
      rw [same, Report.hasErrors, errors]
      rfl
  · have first : p.entry fuel = ⟨fuel, .block function.body, { State.start p.report with frames := [∅] }⟩ := by
      simp only [entry, found, Option.map_some, Option.getD_some]
    have leaves := (leavesAt ⟨p.ast, p.scope, clock⟩ fuel).block function.body
      { State.start p.report with frames := [∅] } fun m d u reaches =>
      none m d u (by rw [Reaches, first]; exact reaches)
    have reported : Ends (main ⟨p.ast, p.scope, clock⟩ fuel) (.start p.report) (fun _ t => t.report = p.report)
        fun _ t => t.report = p.report :=
      (ends_main found fuel _ _ _).2 (leaves.imp (fun _ _ h => h.2) fun _ _ h => h.2)
    have same : (p.run clock fuel).2.report = p.report := by
      rw [Program.run]
      revert reported
      unfold Ends
      generalize (main ⟨p.ast, p.scope, clock⟩ fuel).run.run (.start p.report) = result
      obtain ⟨_ | _, t⟩ := result <;> exact id
    exact ⟨same, by rw [same, Report.hasErrors, clean]; rfl⟩

/-- In the second call of `f` the division fails, in the left operand of a sum whose right operand
is a call without arguments. -/
def quotients : List Char :=
  ("fx g() -> int { print(1); return 2; }\nfx f(n: int) -> int { print(n); return 10 / n + g(); }\n" ++
    "print(f(1));\nlet x: int = f(0) + f(3);\nprint(x);").toList

theorem runsFrozen_quotients : ∃ p, Program.compile quotients = .ok p ∧ ∃ m d u t, p.Reaches (fun _ => 0) 20 m ∧
    Fails ⟨p.ast, p.scope, fun _ => 0⟩ m d u ∧ p.RunsFrozen (fun _ => 0) d u t := by
  have found : ((Program.compile quotients).map fun p =>
      (p.run (fun _ => 0) 20).2.report.hasErrors).toOption = some true := by
    rw [show quotients = _ from Token.toList_ofList_append ..]
    decide +kernel
  obtain ⟨p, accepted, failed⟩ := Program.exists_of_check found
  obtain ⟨frozen, quiet⟩ := runsFrozen_of_compile accepted fun _ => 0
  obtain ⟨m, d, u, reaches, fails⟩ : ∃ m d u, p.Reaches (fun _ => 0) 20 m ∧ Fails ⟨p.ast, p.scope,
      fun _ => 0⟩ m d u := by
    by_contra none
    push Not at none
    rw [(quiet 20 none).2] at failed
    cases failed
  obtain ⟨t, runs⟩ := frozen 20 m d u reaches fails
  exact ⟨p, accepted, m, d, u, t, reaches, fails, runs⟩

end Program

end EmLang
