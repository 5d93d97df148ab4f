import EmLang.Proofs.Execution

/-!
Runs without a bound on the depth. What steps give with one bound they give with every larger one,
so it can be said what they come to in the end, and with which bound they are begun does not matter.
-/

namespace EmLang.Eval

variable {F : Fault → State → Prop} {n m : Nat} {α β : Type} {act : Run α} {next : α → Run β}
  {a : α} {b : β} {s u : State} {env : Env}

/-! ### Larger bounds -/

lemma Gives.ends {Q : α → State → Prop} (gives : Gives act s a u) (q : Q a u) : Ends act s Q F := by
  unfold Ends
  rw [show act.run.run s = _ from gives]
  exact q

lemma gives_bind : Gives (act >>= next) s b u ↔ ∃ a t, Gives act s a t ∧ Gives (next a) t b u := by
  unfold Gives
  simp only [ExceptT.run_bind, StateT.run_bind]
  generalize act.run.run s = result
  obtain ⟨fault | a, t⟩ := result
  · exact iff_of_false nofun fun ⟨_, _, h, _⟩ => nomatch h
  · constructor
    · exact fun h => ⟨a, t, rfl, h⟩
    · rintro ⟨a', t', same, h⟩
      obtain ⟨⟩ := same
      exact h

/-- What the first steps give, the second ones give as well. -/
def Extends {α : Type} (act act' : Run α) : Prop := ∀ s a t, Gives act s a t → Gives act' s a t

namespace Extends

variable {α β : Type} {act act' : Run α} {next next' : α → Run β}

lemma refl (act : Run α) : Extends act act := fun _ _ _ h => h

lemma throw (fault : Fault) (act : Run α) : Extends (throw fault) act := nofun

lemma bind (h : Extends act act') (h' : ∀ a, Extends (next a) (next' a)) :
    Extends (act >>= next) (act' >>= next') := by
  intro s b u gives
  obtain ⟨a, t, first, second⟩ := gives_bind.1 gives
  exact gives_bind.2 ⟨a, t, h s a t first, h' a t b u second⟩

lemma map (f : α → β) (h : Extends act act') : Extends (f <$> act) (f <$> act') := by
  exact h.bind fun a => refl _

lemma ite {c : Prop} [Decidable c] {a a' b b' : Run α} (h : Extends a a') (h' : Extends b b') :
    Extends (if c then a else b) (if c then a' else b') := by
  split
  · exact h
  · exact h'

lemma forM {f f' : α → Run PUnit.{1}} (h : ∀ a, Extends (f a) (f' a)) (as : List α) :
    Extends (as.forM f) (as.forM f') := by
  induction as with
  | nil => exact refl _
  | cons a as ih => exact (h a).bind fun _ => ih

lemma collect {evaluate evaluate' : ExprId → Run (Option Value)} (h : ∀ e, Extends (evaluate e)
      (evaluate' e)) (es : List ExprId) : Extends (collect evaluate es) (collect evaluate' es) := by
  induction es with
  | nil => exact refl _
  | cons e es ih => exact (h e).bind fun _ => (refl _).bind fun _ => ite (refl _) (ih.bind fun _ => refl _)

end Extends

/-- What is given with the bound `n` is given with the bound `m` as well. -/
structure ExtendsAt (env : Env) (n m : Nat) : Prop where
  expression : ∀ e, Extends (expression env n e) (expression env m e)
  call : ∀ f arguments, Extends (call env n f arguments) (call env m f arguments)
  block : ∀ ids, Extends (block env n ids) (block env m ids)
  statement : ∀ id, Extends (statement env n id) (statement env m id)
  loop : ∀ condition ids, Extends (loop env n condition ids) (loop env m condition ids)

section

variable (ih : ExtendsAt env n m)

include ih

lemma expression_extends (e : ExprId) : Extends (expression env (n + 1) e) (expression env (m + 1) e) := by
  rw [expression, expression]
  cases env.ast.expr? e with
  | none => exact .throw _ _
  | some node =>
    dsimp only
    cases node.kind with
    | number | string | bool | var => exact .refl _
    | assign name equals value bound => exact (ih.expression value).bind fun _ => .refl _
    | binary op sign left right =>
        exact (ih.expression left).bind fun _ => (ih.expression right).bind fun _ => .refl _
    | negate sign operand => exact (ih.expression operand).bind fun _ => .refl _
    | paren leftParen inner rightParen => exact ih.expression inner
    | call callee leftParen arguments rightParen target =>
      refine (Extends.collect ih.expression arguments).bind fun values => ?_
      cases values with
      | none => exact .refl _
      | some values =>
        cases target with
        | function f => exact .map _ (ih.call f values)
        | builtin | unresolved => exact .refl _
    | error place => exact .throw _ _

lemma call_extends (f : FunId) (arguments : List Value) :
    Extends (call env (n + 1) f arguments) (call env (m + 1) f arguments) := by
  rw [call, call]
  cases env.scope.function? f with
  | none => exact .throw _ _
  | some function => exact (Extends.refl _).bind fun _ => (Extends.refl _).bind fun _ =>
      (ih.block _).bind fun _ => .refl _

lemma statement_extends (id : StmtId) : Extends (statement env (n + 1) id) (statement env (m + 1) id) := by
  rw [statement, statement]
  refine (Extends.refl _).bind fun s => .ite (.refl _) ?_
  cases env.ast.stmt? id with
  | none => exact .throw _ _
  | some node =>
    dsimp only
    cases node.kind with
    | expr e => exact (ih.expression e).bind fun _ => .refl _
    | letVar keyword name ascription init bound => exact (ih.expression init).bind fun _ => .refl _
    | ret keyword value =>
      cases value with
      | some e => exact (ih.expression e).bind fun _ => .refl _
      | none => exact .refl _
    | ifElse keyword condition thenBody elseBody =>
      refine (ih.expression condition).bind fun _ => (Extends.refl _).bind fun _ =>
        (Extends.refl _).bind fun _ => ?_
      refine .ite (.refl _) ((Extends.refl _).bind fun _ => .ite (ih.block _) ?_)
      cases elseBody with
      | some body => exact ih.block _
      | none => exact .refl _
    | whileLoop keyword condition body => exact ih.loop condition _
    | function => exact .refl _

lemma loop_extends (condition : ExprId) (ids : List StmtId) :
    Extends (loop env (n + 1) condition ids) (loop env (m + 1) condition ids) := by
  rw [loop, loop]
  refine (ih.expression condition).bind fun _ => (Extends.refl _).bind fun _ =>
    (Extends.refl _).bind fun _ => ?_
  refine .ite (.refl _) ((Extends.refl _).bind fun _ => .ite ((ih.block ids).bind fun _ => ?_) (.refl _))
  exact (Extends.refl _).bind fun s => .ite (.refl _) (ih.loop condition ids)

end

theorem extendsAt (env : Env) (le : n ≤ m) : ExtendsAt env n m := by
  induction n generalizing m with
  | zero =>
    exact {
      expression := fun _ => by rw [expression.eq_1]; exact .throw _ _
      call := fun _ _ => by rw [call.eq_1]; exact .throw _ _
      block := fun _ => by rw [block.eq_1]; exact .throw _ _
      statement := fun _ => by rw [statement.eq_1]; exact .throw _ _
      loop := fun _ _ => by rw [loop.eq_1]; exact .throw _ _ }
  | succ n ih =>
    obtain ⟨m, rfl⟩ : ∃ k, m = k + 1 := ⟨m - 1, by omega⟩
    have ih := ih (Nat.le_of_succ_le_succ le)
    exact {
      expression := expression_extends ih
      call := call_extends ih
      block := fun ids => by rw [block, block]; exact .forM ih.statement ids
      statement := statement_extends ih
      loop := loop_extends ih }

/-! ### What steps come to -/

/-- The steps give the same with every bound that is large enough, and `Q` holds of it. -/
def Settles {α : Type} (act : Nat → Run α) (s : State) (Q : α → State → Prop) : Prop :=
  ∃ N a t, (∀ n, N ≤ n → Gives (act n) s a t) ∧ Q a t

namespace Settles

variable {α β : Type} {s t : State} {act : Nat → Run α} {Q R : α → State → Prop}

lemma imp (h : Settles act s Q) (hi : ∀ a t, Q a t → R a t) : Settles act s R := by
  obtain ⟨N, a, t, gives, q⟩ := h
  exact ⟨N, a, t, gives, hi a t q⟩

lemma of_ends {act : Run α} (h : Ends act s Q fun _ _ => False) : Settles (fun _ => act) s Q := by
  cases run : act.run.run s with
  | mk r t =>
    cases r with
    | error fault => exact (h.of_error run).elim
    | ok a => exact ⟨0, a, t, fun _ _ => run, h.of_ok run⟩

lemma bind {next : Nat → α → Run β} {Q : β → State → Prop} (h : Settles act s fun a t =>
      Settles (next · a) t Q) : Settles (fun n => act n >>= next n) s Q := by
  obtain ⟨N, a, t, first, N', b, u, second, q⟩ := h
  refine ⟨max N N', b, u, fun n le => ?_, q⟩
  exact gives_bind.2 ⟨a, t, first n (by omega), second n (by omega)⟩

lemma map {f : α → β} {Q : β → State → Prop} (h : Settles act s fun a t => Q (f a) t) :
    Settles (fun n => f <$> act n) s Q := by
  exact bind (h.imp fun a t q => of_ends q)

lemma succ (h : Settles (fun n => act (n + 1)) s Q) : Settles act s Q := by
  obtain ⟨N, a, t, gives, q⟩ := h
  refine ⟨N + 1, a, t, fun n le => ?_, q⟩
  obtain ⟨n, rfl⟩ : ∃ k, n = k + 1 := ⟨n - 1, by omega⟩
  exact gives n (by omega)

/-- What steps give with one bound is what they come to. -/
lemma of_gives {a : α} (larger : ∀ n m, n ≤ m → Extends (act n) (act m))
    (gives : Gives (act n) s a t) (q : Q a t) : Settles act s Q :=
  ⟨n, a, t, fun m le => larger n m le s a t gives, q⟩

/-- What holds with every bound holds in the end. -/
lemma and_ends (h : Settles act s Q) (h' : ∀ n, Ends (act n) s R F) :
    Settles act s fun a t => Q a t ∧ R a t := by
  obtain ⟨N, a, t, gives, q⟩ := h
  exact ⟨N, a, t, gives, q, (h' N).of_ok (gives N le_rfl)⟩

end Settles

end EmLang.Eval
