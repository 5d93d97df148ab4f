import EmLang.Proofs.Typing
import EmLang.Resolution

/-!
Resolving expressions and statements. Looking at a tree changes only the nodes in its range, and
there only what the names refer to and the types. If nothing is reported, the tree is typed
afterwards.
-/

namespace EmLang.Resolution

open Ast List Nat Option Text

variable {ast' ast ast'' : Ast} {op : BinaryOp} {target : CallTarget} {f : Expr → Expr}
  {function : Function} {arguments es : List ExprId} {tys : List Ty} {vars : List VarId}
  {lo' hi' l m k hi lo n : Nat} {scope : Scope} {sign callee : Span} {a b ty : Ty} {v : VarId}
  {e : ExprId} {kind : ExprKind} {s t u : State}

/-! ### Changing one node -/

section Nodes

variable (ast : Ast) (e : ExprId)

lemma node?_modifyExpr_ne {i : ExprId} (h : i ≠ e) : (ast.modifyExpr e f).node? i = ast.node? i := by
  simp [node?, expr?, modifyExpr, Array.getElem?_modify, h.symm]

lemma node?_modifyExpr {pair : ExprKind × Ty} (h : ast.node? e = some (kind, ty))
    (changed : ∀ n, n.kind = kind → n.ty = ty → ((f n).kind, (f n).ty) = pair) :
    (ast.modifyExpr e f).node? e = some pair := by
  obtain ⟨n, hn, same, type⟩ := node_expr h
  simp only [expr?] at hn
  simp [node?, expr?, modifyExpr, Array.getElem?_modify, hn, changed n same type]

lemma exprShape?_modifyExpr (h : ∀ n, (f n).kind.erase = n.kind.erase) (i : ExprId) :
    (ast.modifyExpr e f).exprShape? i = ast.exprShape? i := by
  simp only [exprShape?, expr?, modifyExpr, Array.getElem?_modify]
  split
  · cases ast.expressions[i]? <;> simp [h]
  · rfl

end Nodes

/-! ### What looking at expressions changes -/

/-- From `s` to `t` only the expressions from `lo` up to but not including `hi` change, and of them
only what their names refer to and their types. What was reported is not taken back. -/
structure Touches (lo hi : Nat) (s t : State) : Prop where
  scope : t.scope = s.scope
  locals : t.locals = s.locals
  function : t.function = s.function
  stmts : t.ast.statements = s.ast.statements
  topLevel : t.ast.topLevel = s.ast.topLevel
  shape : ∀ i, t.ast.exprShape? i = s.ast.exprShape? i
  outside : ∀ i, i < lo ∨ hi ≤ i → t.ast.node? i = s.ast.node? i
  errors : t.report.errors = [] → s.report.errors = []

namespace Touches

lemma refl (lo hi : Nat) (s : State) : Touches lo hi s s :=
  ⟨rfl, rfl, rfl, rfl, rfl, fun _ => rfl, fun _ _ => rfl, id⟩

variable (h : Touches lo hi s t)

include h

lemma trans (h' : Touches lo hi t u) : Touches lo hi s u where
  scope := h'.scope.trans h.scope
  locals := h'.locals.trans h.locals
  function := h'.function.trans h.function
  stmts := h'.stmts.trans h.stmts
  topLevel := h'.topLevel.trans h.topLevel
  shape i := (h'.shape i).trans (h.shape i)
  outside i hi := (h'.outside i hi).trans (h.outside i hi)
  errors clean := h.errors (h'.errors clean)

lemma widen (le : lo' ≤ lo) (le' : hi ≤ hi') : Touches lo' hi' s t :=
  { h with outside := fun i hi => h.outside i (hi.imp (fun a => a.trans_le le) le'.trans) }

lemma tree (tree : ExprTree s.ast l e) : ExprTree t.ast l e :=
  tree.congr fun i _ => (h.shape i).trans

lemma trees (trees : ExprTrees s.ast l es m) : ExprTrees t.ast l es m :=
  trees.congr fun i _ => (h.shape i).trans

lemma typed (tree : ExprTree s.ast l e) (apart : e < lo ∨ hi ≤ l)
    (typed : HasType s.ast scope vars e ty) : HasType t.ast scope vars e ty := by
  refine typed.transfer (.refl scope) (tree.shared fun i hl he => h.outside i ?_)
  exact apart.imp (fun a => he.trans_lt a) (fun a => a.trans hl)

lemma typedAll (trees : ExprTrees s.ast l es m) (apart : m ≤ lo ∨ hi ≤ l)
    (typed : HasTypes s.ast scope vars es tys) : HasTypes t.ast scope vars es tys := by
  refine typed.transfer (.refl scope) ⟨_, _, trees, fun i hl hm => h.outside i ?_⟩
  exact apart.imp (fun a => hm.trans_le a) (fun a => a.trans hl)

end Touches

/-! ### Types -/

/-- All types of the scope are types of values, and all parameters are declared. -/
structure Ready (scope : Scope) : Prop where
  vars : ∀ v x, scope.var? v = some x → x.ty.IsProper
  returns : ∀ f function, scope.function? f = some function → function.returnType.IsProper
  parameters : ∀ f function, scope.function? f = some function → ∀ p ∈ function.parameters, ∃ x,
    scope.var? p = some x

lemma Ready.declared (ready : Ready scope) {f : FunId} (found : scope.function? f = some function) :
    ∃ xs : List Variable, function.parameters.map scope.var? = xs.map some := by
  have declared := ready.parameters f function found
  generalize function.parameters = ps at declared
  induction ps with
  | nil => exact ⟨[], rfl⟩
  | cons p ps ih =>
    obtain ⟨⟨x, hx⟩, declared⟩ := forall_mem_cons.1 declared
    obtain ⟨xs, hxs⟩ := ih declared
    exact ⟨x :: xs, by simp [hx, hxs]⟩

/-- The scope is ready, and all variables that can be seen are declared. -/
structure Sees (s : State) : Prop where
  ready : Ready s.scope
  seen : ∀ v ∈ s.locals.flatten, ∃ x, s.scope.var? v = some x

lemma Touches.sees (h : Touches lo hi s t) (sees : Sees s) : Sees t := by
  obtain ⟨ready, seen⟩ := sees
  rw [← h.scope] at ready seen
  rw [← h.locals] at seen
  exact ⟨ready, seen⟩

/-- The expressions get no types other than those of values. -/
def Retypes (ast ast' : Ast) : Prop :=
  ∀ i kind ty, ast'.node? i = some (kind, ty) → ty.IsProper ∨ ∃ kind', ast.node? i = some (kind', ty)

variable {name : String} {leftParen rightParen : Span}

lemma retypes_of_same (same : ∀ i, ast'.node? i = ast.node? i) : Retypes ast ast' :=
  fun i kind _ here => .inr ⟨kind, same i ▸ here⟩

lemma Retypes.trans (h : Retypes ast ast') (h' : Retypes ast' ast'') : Retypes ast ast'' := by
  intro i kind ty here
  obtain proper | ⟨kind', here⟩ := h' i kind ty here
  · exact .inl proper
  · exact h i kind' ty here

/-- Of the expressions in the range only what their names refer to and their types change, and
unless something is reported, the types become types of values. -/
structure Looks (lo hi : Nat) (s t : State) : Prop extends Touches lo hi s t where
  retypes : t.report.errors = [] → Sees s → Retypes s.ast t.ast

namespace Looks

lemma refl (lo hi : Nat) (s : State) : Looks lo hi s s :=
  ⟨.refl lo hi s, fun _ _ => retypes_of_same fun _ => rfl⟩

lemma trans (h : Looks lo hi s t) (h' : Looks lo hi t u) : Looks lo hi s u :=
  ⟨h.toTouches.trans h'.toTouches, fun clean sees =>
    (h.retypes (h'.errors clean) sees).trans (h'.retypes clean (h.sees sees))⟩

lemma widen (h : Looks lo hi s t) (le : lo' ≤ lo) (le' : hi ≤ hi') : Looks lo' hi' s t :=
  ⟨h.toTouches.widen le le', h.retypes⟩

end Looks

lemma complain_looks (lo hi : Nat) (problem : Problem) (span : Span) (s : State) :
    Post (complain problem span) s fun _ t => Looks lo hi s t :=
  ⟨⟨rfl, rfl, rfl, rfl, rfl, fun _ => rfl, fun _ _ => rfl, Parser.errors_of_add⟩,
  fun _ _ => retypes_of_same fun _ => rfl⟩

lemma modify_touches (s : State) (e : ExprId) (h : ∀ n, (f n).kind.erase = n.kind.erase) :
    Touches e (e + 1) s { s with ast := s.ast.modifyExpr e f } where
  scope := rfl
  locals := rfl
  function := rfl
  stmts := rfl
  topLevel := rfl
  shape := exprShape?_modifyExpr s.ast e h
  outside i out := node?_modifyExpr_ne s.ast e (by rintro rfl; omega)
  errors := id

lemma setType_touches (s : State) (e : ExprId) (ty : Ty) : Post (setType e ty) s fun r t => r = ty ∧
    Touches e (e + 1) s t ∧ ∀ kind ty', s.ast.node? e = some (kind, ty') →
    t.ast.node? e = some (kind, ty) :=
  ⟨rfl, modify_touches s e fun _ => rfl, fun _ _ h => node?_modifyExpr s.ast e h fun _ same _ => by rw [same]⟩

lemma modify_looks (s : State) (e : ExprId) (h : ∀ n, (f n).kind.erase = n.kind.erase)
    (same : ∀ n, (f n).ty = n.ty) : Looks e (e + 1) s { s with ast := s.ast.modifyExpr e f } := by
  refine ⟨modify_touches s e h, fun _ _ i kind ty here => .inr ?_⟩
  obtain ⟨n, found, pair⟩ := map_eq_some_iff.1 here
  simp only [Prod.mk.injEq] at pair
  simp only [expr?, modifyExpr, Array.getElem?_modify] at found
  split_ifs at found
  · obtain ⟨old, before, rfl⟩ := map_eq_some_iff.1 found
    exact ⟨old.kind, by simp [node?, expr?, before, ← pair.2, same]⟩
  · exact ⟨kind, by simp [node?, expr?, found, pair]⟩

lemma setVariable_looks (s : State) (e : ExprId) (v : VarId) :
    Post (setVariable e v) s fun _ t => Looks e (e + 1) s t ∧
    ∀ kind ty, s.ast.node? e = some (kind, ty) → t.ast.node? e = some (kind.withVariable v, ty) :=
  ⟨modify_looks s e (fun _ => by simp) fun _ => rfl,
  fun _ _ h => node?_modifyExpr s.ast e h fun _ same type => by rw [same, type]⟩

lemma setTarget_looks (s : State) (e : ExprId) (target : CallTarget) :
    Post (setTarget e target) s fun _ t => Looks e (e + 1) s t ∧ ∀ kind ty, s.ast.node? e =
    some (kind, ty) → t.ast.node? e = some (kind.withTarget target, ty) :=
  ⟨modify_looks s e (fun _ => by simp) fun _ => rfl,
  fun _ _ h => node?_modifyExpr s.ast e h fun _ same type => by rw [same, type]⟩

lemma yields_proper (h : op.Yields a b ty) : ty.IsProper := by
  cases h <;> exact ⟨by simp, by simp⟩

lemma hasType_proper {ast : Ast} (ready : Ready scope) {e : ExprId} {ty : Ty} :
    HasType ast scope vars e ty → ty.IsProper
  | .number _ => ⟨by simp, by simp⟩
  | .string _ => ⟨by simp, by simp⟩
  | .bool _ => ⟨by simp, by simp⟩
  | .var _ _ declared => ready.vars _ _ declared
  | .assign _ _ declared _ => ready.vars _ _ declared
  | .binary _ _ _ yields => yields_proper yields
  | .negate _ _ => ⟨by simp, by simp⟩
  | .paren _ typed => hasType_proper ready typed
  | .call _ found _ _ _ _ _ => ready.returns _ _ found
  | .builtin (b := b) _ _ _ _ =>
      by cases b <;> exact ⟨by simp [Builtin.returnType], by simp [Builtin.returnType]⟩

lemma hasTypes_proper (ready : Ready scope) (h : HasTypes ast scope vars es tys) : ∀ ty ∈ tys, ty.IsProper := by
  induction tys generalizing es with
  | nil => simp
  | cons ty tys ih =>
    obtain _ | ⟨head, tail⟩ := h
    exact forall_mem_cons.2 ⟨hasType_proper ready head, ih tail⟩

lemma eq_of_assignable (ha : a.IsProper) (hb : b.IsProper) (h : a.assignableTo b = true) : a = b := by
  simpa [Ty.assignableTo, ha.1, ha.2, hb.1, hb.2] using h

lemma expectType_looks (lo hi : Nat) (expected actual : Ty) (span : Span) (s : State) :
    Post (expectType expected actual span) s fun r t =>
      r = expected ∧ Looks lo hi s t ∧ (t.report.errors = [] → actual.assignableTo expected = true) := by
  simp only [expectType, post_bind, post_ite, post_pure]
  refine ⟨fun fits => ⟨trivial, .refl lo hi s, fun _ => fits⟩,
    fun _ => ⟨trivial, complain_looks lo hi _ _ s, ?_⟩⟩
  exact fun clean => absurd clean (Parser.add_errors_ne rfl)

lemma expectValue_looks (lo hi : Nat) (ty : Ty) (span : Span) (s : State) :
    Post (expectValue ty span) s fun _ t => Looks lo hi s t ∧ (t.report.errors = [] → ty ≠ .void) := by
  simp only [expectValue, post_ite, post_pure]
  refine ⟨fun _ => ⟨complain_looks lo hi _ _ s, ?_⟩, fun h => ⟨.refl lo hi s, fun _ => h⟩⟩
  exact fun clean => absurd clean (Parser.add_errors_ne rfl)

lemma expectNumbers_looks (lo hi : Nat) (left right : Operand) (s : State) :
    Post (do let _ ← expectType .int left.ty left.span; expectType .int right.ty right.span) s fun r t =>
      r = .int ∧ Looks lo hi s t ∧ (t.report.errors = [] → left.ty.IsProper → right.ty.IsProper →
        left.ty = .int ∧ right.ty = .int) := by
  simp only [post_bind]
  refine (expectType_looks lo hi _ _ _ s).imp fun _ t ⟨_, looks, fits⟩ => ?_
  refine (expectType_looks lo hi _ _ _ t).imp fun r u ⟨hr, looks', fits'⟩ => ⟨hr, looks.trans looks', ?_⟩
  intro clean leftProper rightProper
  have int : Ty.int.IsProper := ⟨by simp, by simp⟩
  exact ⟨eq_of_assignable leftProper int (fits (looks'.errors clean)),
    eq_of_assignable rightProper int (fits' clean)⟩

/-- Operators on operands with types of values: what is not reported fits. -/
def Operates (lo hi : Nat) (op : BinaryOp) (left right : Operand) (s : State) (ty : Ty) (t : State) : Prop :=
  Looks lo hi s t ∧
  (t.report.errors = [] → left.ty.IsProper → right.ty.IsProper → op.Yields left.ty right.ty ty)

lemma binaryType_looks (lo hi : Nat) (op : BinaryOp) (left right : Operand) (span : Span) (s : State) :
    Post (binaryType op left right span) s (Operates lo hi op left right s) := by
  have numbers := expectNumbers_looks lo hi left right s
  have arithmetic : op.isComparison = false → Post (do
      let _ ← expectType .int left.ty left.span
      expectType .int right.ty right.span) s (Operates lo hi op left right s) := by
    intro h
    refine numbers.imp fun r t ⟨hr, looks, fits⟩ => ⟨looks, fun clean leftProper rightProper => ?_⟩
    obtain ⟨hleft, hright⟩ := fits clean leftProper rightProper
    rw [hr, hleft, hright]
    exact .arithmetic h
  have order : (op = .lt ∨ op = .gt ∨ op = .le ∨ op = .ge) → Post (do
      let _ ← expectType .int left.ty left.span
      let _ ← expectType .int right.ty right.span
      return Ty.bool) s (Operates lo hi op left right s) := by
    intro h
    simp only [post_bind, post_pure] at numbers ⊢
    refine numbers.imp fun _ t next => next.imp fun r u ⟨_, looks, fits⟩ => ⟨looks, ?_⟩
    intro clean leftProper rightProper
    obtain ⟨hleft, hright⟩ := fits clean leftProper rightProper
    rw [hleft, hright]
    exact .order h
  have equality : (op = .eq ∨ op = .ne) → Post (do
      expectValue left.ty left.span
      unless left.ty = right.ty do complain (.typeMismatch left.ty right.ty) span
      return Ty.bool) s (Operates lo hi op left right s) := by
    intro h
    simp only [post_bind, post_ite, post_pure]
    refine (expectValue_looks lo hi _ _ s).imp fun _ t ⟨looks, value⟩ => ⟨fun same => ⟨looks, ?_⟩, fun _ => ?_⟩
    · intro clean _ _
      rw [← same]
      exact .equality h (value clean)
    · refine ⟨looks.trans (complain_looks lo hi _ _ t), fun clean => absurd clean ?_⟩
      exact Parser.add_errors_ne rfl
  unfold binaryType
  simp only [post_ite, post_pure]
  refine ⟨fun error => ⟨.refl lo hi s, fun _ leftProper rightProper => ?_⟩, fun _ => ?_⟩
  · exact (error.elim leftProper.2 rightProper.2).elim
  · cases op with
    | add =>
      simp only [post_ite, true_and]
      refine ⟨fun join => ?_, fun _ => arithmetic rfl⟩
      refine (expectType_looks lo hi _ _ _ s).imp fun r t ⟨hr, looks, fits⟩ => ⟨looks, ?_⟩
      intro clean _ rightProper
      have string : Ty.string.IsProper := ⟨by simp, by simp⟩
      rw [hr, join, eq_of_assignable rightProper string (fits clean)]
      exact .join
    | sub | mul | div | rem =>
      exact arithmetic rfl
    | eq | ne => exact equality (by simp)
    | lt | gt | le | ge => exact order (by simp)

/-! ### Expressions -/

lemma lookup?_some (h : s.lookup? name = some v) : ∃ x, s.scope.var? v = some x ∧ s.scope.typeOf v = x.ty := by
  have named := find?_some h
  cases hx : s.scope.var? v with
  | none => simp [hx] at named
  | some x => exact ⟨x, rfl, by simp [Scope.typeOf, hx]⟩

/-- What is found is what the name means. -/
lemma lookup?_means (h : s.lookup? name = some v)
    (seen : ∀ v ∈ s.locals.flatten, ∃ x, s.scope.var? v = some x) : s.scope.Means s.locals.flatten name v := by
  obtain ⟨named, later, earlier, split, others⟩ := find?_eq_some_iff_append.1 h
  obtain ⟨x, hx, -⟩ := lookup?_some h
  refine ⟨later, earlier, x, split, hx, by simpa [hx] using named, fun w hw => ?_⟩
  obtain ⟨y, hy⟩ := seen w (split ▸ mem_append_left _ hw)
  exact ⟨y, hy, by simpa [hy] using others w hw⟩

lemma lookup?_function {f : FunId} (h : scope.lookup? name = some f) :
    ∃ function, scope.function? f = some function ∧ function.name = name := by
  obtain ⟨lt, named, -⟩ := Array.findIdx?_eq_some_iff_getElem.1 h
  exact ⟨_, Array.getElem?_eq_getElem lt, of_decide_eq_true named⟩

/-- The expression has been looked at, between `s` and `t`, and found to have the type `ty`. -/
structure ResolvedExpr (lo : Nat) (e : ExprId) (s : State) (ty : Ty) (t : State) : Prop where
  looks : Looks lo (e + 1) s t
  typed : t.report.errors = [] → Sees s → HasType t.ast s.scope s.locals.flatten e ty

/-- Resolving an expression with the bound `n` on the depth types it, if nothing is reported. -/
def ResolvesExpr (n : Nat) : Prop :=
  ∀ e lo s, ExprTree s.ast lo e → e < n → Post (expression n e) s (ResolvedExpr lo e s)

lemma mapM_resolves (h : ResolvesExpr n) (trees : ExprTrees s.ast lo es hi)
    (deep : ∀ e ∈ es, e < n) : Post (es.mapM (expression n)) s fun tys t =>
      Looks lo hi s t ∧
        (t.report.errors = [] → Sees s → HasTypes t.ast s.scope s.locals.flatten es tys) := by
  induction es generalizing lo s with
  | nil =>
    exact ⟨.refl lo hi s, fun _ _ => .nil⟩
  | cons e es ih =>
    simp only [mapM_cons, post_bind, post_pure]
    obtain _ | ⟨head, tail⟩ := trees
    refine (h e lo s head (deep e (by simp))).imp fun ty t ⟨looks, typed⟩ => ?_
    refine (ih (looks.trees tail) fun e' he' => deep e' (by simp [he'])).imp fun tys u ⟨looks', typed'⟩ => ?_
    have le := head.le.trans (le_succ _)
    refine ⟨(looks.widen le_rfl tail.le).trans (looks'.widen le le_rfl), fun clean sees => ?_⟩
    have headTyped := typed (looks'.errors clean) sees
    have tailTyped := typed' clean (looks.sees sees)
    rw [looks.scope, looks.locals] at tailTyped
    exact .cons (looks'.typed (looks.tree head) (.inl (lt_succ_self e)) headTyped) tailTyped

/-- Looks at an argument, which has to fit its parameter if there is one. -/
def argument (n : Nat) (scope : Scope) (parameters : List VarId) : ExprId × Nat → Resolve Unit :=
  fun (e, position) => do
    let actual ← expression n e
    match parameters[position]? with
    | some parameter => let _ ← expectType (scope.typeOf parameter) actual (← spanOf e)
    | none => pure ()

lemma argument_resolves (h : ResolvesExpr n) (parameters : List VarId) (tree : ExprTree s.ast lo e)
    (deep : e < n) : Post (argument n s.scope parameters (e, k)) s fun _ t =>
      Looks lo (e + 1) s t ∧ (t.report.errors = [] → Sees s →
        ∀ p x, parameters[k]? = some p → s.scope.var? p = some x →
          HasType t.ast s.scope s.locals.flatten e x.ty) := by
  simp only [argument, post_bind]
  refine (h e lo s tree deep).imp fun ty t ⟨looks, typed⟩ => ?_
  split
  · rename_i p hp
    simp only [spanOf, post_bind, post_get, post_pure]
    refine (expectType_looks e e _ _ _ t).imp fun _ u ⟨_, looks', fits⟩ => ?_
    refine ⟨looks.trans (looks'.widen tree.le (le_succ e)), fun clean sees p' x hp' hx => ?_⟩
    have typed' := typed (looks'.errors clean) sees
    obtain rfl : p = p' := mem_unique hp hp'
    have same : ty = x.ty := by
      refine eq_of_assignable (hasType_proper sees.ready typed') (sees.ready.vars p x hx) ?_
      simpa [Scope.typeOf, hx] using fits clean
    rw [← same]
    refine typed'.transfer (.refl _) ((looks.tree tree).shared fun i _ _ => looks'.outside i ?_)
    exact lt_or_ge i e
  · rename_i hp
    refine ⟨looks, fun clean sees p' x hp' _ => ?_⟩
    simp [hp] at hp'

lemma arguments_resolve (h : ResolvesExpr n)
    (parameters : List VarId) (trees : ExprTrees s.ast lo es hi) (deep : ∀ e ∈ es, e < n) :
    Post ((es.zipIdx k).forM (argument n s.scope parameters)) s fun _ t =>
      Looks lo hi s t ∧ (t.report.errors = [] → Sees s →
        ∀ xs : List Variable, (parameters.drop k).map s.scope.var? = xs.map some → xs.length = es.length →
          HasTypes t.ast s.scope s.locals.flatten es (xs.map Variable.ty)) := by
  induction es generalizing lo s k with
  | nil =>
    refine ⟨.refl lo hi s, fun _ _ xs _ len => ?_⟩
    obtain rfl : xs = [] := by simpa using len
    exact .nil
  | cons e es ih =>
    rw [zipIdx_cons, post_forM_cons]
    obtain _ | ⟨head, tail⟩ := trees
    refine (argument_resolves h parameters head (deep e (by simp))).imp fun _ t ⟨looks, typed⟩ => ?_
    have rest := ih (k := k + 1) (looks.trees tail) fun e' he' => deep e' (by simp [he'])
    rw [looks.scope, looks.locals] at rest
    refine rest.imp fun _ u ⟨looks', typed'⟩ => ?_
    have le := head.le.trans (le_succ _)
    refine ⟨(looks.widen le_rfl tail.le).trans (looks'.widen le le_rfl), fun clean sees xs hxs len => ?_⟩
    obtain _ | ⟨x, xs⟩ := xs
    · simp at len
    have hk : k < parameters.length := by
      by_contra hn
      rw [drop_eq_nil_of_le (Nat.le_of_not_lt hn)] at hxs
      simp at hxs
    rw [drop_eq_getElem_cons hk, map_cons, map_cons, cons.injEq] at hxs
    have headTyped := typed (looks'.errors clean) sees _ x (getElem?_eq_getElem hk) hxs.1
    exact .cons (looks'.typed (looks.tree head) (.inl (lt_succ_self e)) headTyped)
      (typed' clean (looks.sees sees) xs hxs.2 (by simpa using len))

lemma exprTree_node (tree : ExprTree ast lo e) : ∃ node, ast.expr? e = some node ∧
    ast.node? e = some (node.kind, node.ty) ∧ ∀ place, node.kind ≠ .error place := by
  obtain ⟨here, sound, -, -⟩ := tree
  obtain ⟨node, hnode, hkind⟩ := map_eq_some_iff.1 here
  refine ⟨node, hnode, by simp [node?, hnode], fun place herr => sound place ?_⟩
  rw [← hkind, herr]
  rfl

section

variable (le : lo ≤ e) (looks : Looks lo (e + 1) s t)

include le looks

/-- The last step at an expression: its type is filled in behind what was done before. -/
lemma setType_resolves {ty' : Ty} (here : t.ast.node? e = some (kind, ty'))
    (typed : ∀ u, Touches e (e + 1) t u → u.ast.node? e = some (kind, ty) → u.report.errors = [] → Sees s →
      HasType u.ast s.scope s.locals.flatten e ty) : Post (setType e ty) t (ResolvedExpr lo e s) := by
  refine (setType_touches t e ty).imp fun r u ⟨hr, touches, node⟩ => ?_
  rw [hr]
  have typed := typed u touches (node _ _ here)
  refine ⟨⟨looks.toTouches.trans (touches.widen le le_rfl), fun clean sees i kind' ty1 found => ?_⟩, typed⟩
  by_cases last : i = e
  · obtain ⟨-, rfl⟩ : kind = kind' ∧ ty = ty1 := by simpa [node _ _ here, last] using found
    exact .inl (hasType_proper sees.ready (typed clean sees))
  · refine looks.retypes (touches.errors clean) sees i kind' ty1 ?_
    exact (touches.outside i ((lt_or_gt_of_ne last).imp_right succ_le_of_lt)).symm.trans found

/-- After a report nothing is left to show. -/
lemma setType_reported (reported : t.report.errors ≠ []) :
    Post (setType e ty) t (ResolvedExpr lo e s) := by
  refine (setType_touches t e ty).imp fun r u ⟨_, touches, _⟩ => ?_
  have told : u.report.errors ≠ [] := fun clean => reported (touches.errors clean)
  exact ⟨looks.trans ⟨touches.widen le le_rfl, fun clean => absurd clean told⟩, fun clean => absurd clean told⟩

/-- A report at an expression, which gets the type that fits everywhere. -/
lemma complain_resolves (problem : Problem) (severe : problem.severity = .error) (span : Span) :
    Post (do complain problem span; setType e .error) t (ResolvedExpr lo e s) := by
  have told : Looks lo (e + 1) t { t with report := t.report.add ⟨problem, span⟩ } :=
    complain_looks lo (e + 1) problem span t
  exact setType_reported le (looks.trans told) (Parser.add_errors_ne severe)

end

section

variable (h : ResolvesExpr n) (tree : ExprTree s.ast lo e) (deep : e ≤ n)

include h tree deep

lemma assign_resolves {bound : Option VarId} {value : ExprId}
    {name equals : Span} (here : s.ast.node? e = some (.assign name equals value bound, ty)) :
    Post (expression (n + 1) e) s (ResolvedExpr lo e s) := by
  obtain ⟨node, hnode, kind, -⟩ := node_expr here
  obtain _ | ⟨head, tail⟩ := tree.children here
  have lt : value < e := tail.le
  have le := tree.le
  simp only [expression, hnode, kind, post_bind, post_get]
  refine (h value lo s head (lt.trans_le deep)).imp fun actual t ⟨looks, typed⟩ => ?_
  have here := (looks.outside e (.inr lt)).trans here
  have wide : Looks lo (e + 1) s t := looks.widen le_rfl (succ_le_succ lt.le)
  split
  · rename_i v hv
    obtain ⟨x, hx, hty⟩ := lookup?_some hv
    rw [looks.scope] at hx hty
    simp only [spanOf, post_bind, post_get, post_pure]
    refine (setVariable_looks t e v).imp fun _ u ⟨looks1, node1⟩ => ?_
    rw [looks1.scope, looks.scope, hty]
    refine (expectType_looks e e _ _ _ u).imp fun r w ⟨hr, looks2, fits⟩ => ?_
    have node2 := (looks2.outside e (.inr le_rfl)).trans (node1 _ _ here)
    have looks2 := looks2.widen le_rfl (le_succ e)
    have wide2 := wide.trans ((looks1.trans looks2).widen le le_rfl)
    rw [hr]
    refine setType_resolves le wide2 node2 fun u' looks3 node3 clean sees => ?_
    have looks4 := (looks1.trans looks2).toTouches.trans looks3
    have typed' := typed (looks4.errors clean) sees
    have same : actual = x.ty :=
      eq_of_assignable (hasType_proper sees.ready typed') (sees.ready.vars v x hx) (fits (looks3.errors clean))
    rw [same] at typed'
    have means := lookup?_means hv (looks.sees sees).seen
    rw [looks.scope, looks.locals] at means
    exact .assign node3 means hx (looks4.typed (looks.tree head) (.inl lt) typed')
  · have read := complain_resolves le wide (.undeclaredVariable name.literal) rfl name
    simpa only [post_bind] using read

lemma binary_resolves {left right : ExprId} (here : s.ast.node? e = some
      (.binary op sign left right, ty)) : Post (expression (n + 1) e) s (ResolvedExpr lo e s) := by
  obtain ⟨node, hnode, kind, -⟩ := node_expr here
  obtain _ | ⟨head, _ | ⟨next, tail⟩⟩ := tree.children here
  have lt' : right < e := tail.le
  have lt : left < right := next.le
  have le := tree.le
  simp only [expression, hnode, kind, spanOf, post_bind, post_get, post_pure]
  refine (h left lo s head ((lt.trans lt').trans_le deep)).imp fun leftTy t ⟨looks, typed⟩ => ?_
  refine (h right _ t (looks.tree next) (lt'.trans_le deep)).imp fun rightTy u ⟨looks', typed'⟩ => ?_
  rw [looks.scope, looks.locals] at typed'
  have here := (looks'.outside e (.inr lt')).trans ((looks.outside e (.inr (lt.trans lt'))).trans here)
  have wide : Looks lo (e + 1) s u := (looks.widen le_rfl (succ_le_succ (lt.trans lt').le)).trans
    (looks'.widen (head.le.trans (le_succ _)) (succ_le_succ lt'.le))
  refine (binaryType_looks e e op ⟨leftTy, _⟩ ⟨rightTy, _⟩ node.span u).imp fun r w ⟨looks2, yields⟩ => ?_
  have here := (looks2.outside e (.inr le_rfl)).trans here
  have looks2 := looks2.widen le_rfl (le_succ e)
  refine setType_resolves le (wide.trans (looks2.widen le le_rfl)) here fun v looks3 node clean sees => ?_
  have looks4 := looks2.toTouches.trans looks3
  have rightTyped := typed' (looks4.errors clean) (looks.sees sees)
  have leftTyped := typed (looks'.errors (looks4.errors clean)) sees
  have leftTyped' := looks'.typed (looks.tree head) (.inl (lt_succ_self left)) leftTyped
  exact .binary node (looks4.typed (looks'.tree (looks.tree head)) (.inl (lt.trans lt')) leftTyped')
    (looks4.typed (looks'.tree (looks.tree next)) (.inl lt') rightTyped)
    (yields (looks3.errors clean) (hasType_proper sees.ready leftTyped) (hasType_proper sees.ready rightTyped))

lemma negate_resolves {operand : ExprId} (here : s.ast.node? e = some (.negate sign operand, ty)) :
    Post (expression (n + 1) e) s (ResolvedExpr lo e s) := by
  obtain ⟨node, hnode, kind, -⟩ := node_expr here
  obtain _ | ⟨head, tail⟩ := tree.children here
  have lt : operand < e := tail.le
  have le := tree.le
  simp only [expression, hnode, kind, spanOf, post_bind, post_get, post_pure]
  refine (h operand lo s head (lt.trans_le deep)).imp fun actual t ⟨looks, typed⟩ => ?_
  refine (expectType_looks e e _ _ _ t).imp fun r u ⟨hr, looks1, fits⟩ => ?_
  have here := (looks1.outside e (.inr le_rfl)).trans ((looks.outside e (.inr lt)).trans here)
  have wide := (looks.widen le_rfl (succ_le_succ lt.le)).trans (looks1.widen le (le_succ e))
  rw [hr]
  refine setType_resolves le wide here fun u' looks2 node clean sees => ?_
  have looks3 := (looks1.widen le_rfl (le_succ e)).toTouches.trans looks2
  have typed' := typed (looks3.errors clean) sees
  have same : actual = .int :=
    eq_of_assignable (hasType_proper sees.ready typed') ⟨by simp, by simp⟩ (fits (looks2.errors clean))
  rw [same] at typed'
  exact .negate node (looks3.typed (looks.tree head) (.inl lt) typed')

lemma paren_resolves {inner : ExprId} (here : s.ast.node? e = some (.paren leftParen inner rightParen, ty)) :
    Post (expression (n + 1) e) s (ResolvedExpr lo e s) := by
  obtain ⟨node, hnode, kind, -⟩ := node_expr here
  obtain _ | ⟨head, tail⟩ := tree.children here
  have lt : inner < e := tail.le
  simp only [expression, hnode, kind, post_bind, post_get]
  refine (h inner lo s head (lt.trans_le deep)).imp fun actual t ⟨looks, typed⟩ => ?_
  have here := (looks.outside e (.inr lt)).trans here
  refine setType_resolves tree.le (looks.widen le_rfl (succ_le_succ lt.le)) here
    fun u looks1 node clean sees => ?_
  exact .paren node (looks1.typed (looks.tree head) (.inl lt) (typed (looks1.errors clean) sees))

end

/-- What is checked of the arguments of a built-in operation. -/
def builtinArguments (b : Builtin) (callee : Span) (arguments : List ExprId) (types : List Ty) :
    Resolve Unit := do
  if arguments.length ≠ b.parameterCount then
    complain (.argumentCount b.parameterCount arguments.length) callee
  else match b, arguments, types with
    | .print, argument :: _, ty :: _ => expectValue ty (← spanOf argument)
    | .toText, argument :: _, ty :: _ => let _ ← expectType .int ty (← spanOf argument)
    | _, _, _ => pure ()

lemma builtinArguments_looks (lo hi : Nat) (b : Builtin) (callee : Span) (arguments : List ExprId)
    (types : List Ty) (s : State) : Post (builtinArguments b callee arguments types) s fun _ t =>
      Looks lo hi s t ∧ (t.report.errors = [] → types.length = arguments.length → (∀ ty ∈ types, ty.IsProper) →
        b.Takes types) := by
  simp only [builtinArguments, post_ite]
  refine ⟨fun _ => ⟨complain_looks lo hi _ _ s,
    fun clean => absurd clean (Parser.add_errors_ne rfl)⟩, fun count => ?_⟩
  rw [ne_eq, not_not] at count
  split
  · rename_i argument rest ty more
    simp only [spanOf, post_bind, post_get, post_pure]
    refine (expectValue_looks lo hi _ _ s).imp fun _ t ⟨looks, value⟩ => ⟨looks, fun clean len _ => ?_⟩
    obtain rfl : more = [] := by
      simpa [← len, Builtin.parameterCount] using count
    exact .print (value clean)
  · rename_i argument rest ty more
    simp only [spanOf, post_bind, post_get, post_pure]
    refine (expectType_looks lo hi _ _ _ s).imp fun _ t ⟨_, looks, fits⟩ => ⟨looks, fun clean len proper => ?_⟩
    obtain rfl : more = [] := by
      simpa [← len, Builtin.parameterCount] using count
    obtain rfl : ty = .int := eq_of_assignable (proper ty (by simp)) ⟨by simp, by simp⟩ (fits clean)
    exact .toText
  · rename_i notPrint notText
    refine ⟨.refl lo hi s, fun _ len _ => ?_⟩
    cases b with
    | tick =>
      obtain rfl : types = [] := eq_nil_of_length_eq_zero (len.trans count)
      exact .tick
    | print =>
      obtain ⟨argument, rfl⟩ := length_eq_one_iff.1 count
      obtain ⟨ty, rfl⟩ := length_eq_one_iff.1 len
      exact (notPrint argument [] ty [] rfl rfl rfl).elim
    | toText =>
      obtain ⟨argument, rfl⟩ := length_eq_one_iff.1 count
      obtain ⟨ty, rfl⟩ := length_eq_one_iff.1 len
      exact (notText argument [] ty [] rfl rfl rfl).elim

section

variable (h : ResolvesExpr n) (tree : ExprTree s.ast lo e) (deep : e ≤ n)

include h tree deep

lemma builtin_resolves {b : Builtin} (named : Builtin.ofName? callee.literal = some b)
    (here : s.ast.node? e = some (.call callee leftParen arguments rightParen target, ty)) : Post (do
      setTarget e (.builtin b)
      let types ← arguments.mapM (expression n)
      builtinArguments b callee arguments types
      setType e b.returnType) s (ResolvedExpr lo e s) := by
  have trees := tree.children here
  have le := tree.le
  simp only [post_bind]
  refine (setTarget_looks s e (.builtin b)).imp fun _ t ⟨looks, node⟩ => ?_
  have deep' e' (he' : e' ∈ arguments) : e' < n := (trees.mem_lt he').trans_le deep
  refine (mapM_resolves h (looks.trees trees) deep').imp fun types u ⟨looks1, typed⟩ => ?_
  refine (builtinArguments_looks e e b callee arguments types u).imp fun _ w ⟨looks2, takes⟩ => ?_
  have here := (looks2.outside e (.inr le_rfl)).trans ((looks1.outside e (.inr le_rfl)).trans (node _ _ here))
  have wide : Looks lo (e + 1) s w := (looks.widen le le_rfl).trans
    ((looks1.widen le_rfl (le_succ e)).trans (looks2.widen le (le_succ e)))
  refine setType_resolves le wide here fun u' looks3 node clean sees => ?_
  have looks4 := (looks2.widen le_rfl (le_succ e)).toTouches.trans looks3
  have typed := typed (looks4.errors clean) (looks.sees sees)
  rw [looks.scope, looks.locals] at typed
  exact .builtin node (looks4.typedAll (looks1.trees (looks.trees trees)) (.inl le_rfl) typed)
    (takes (looks3.errors clean) typed.length_eq.symm (hasTypes_proper sees.ready typed)) named

lemma call_resolves {f : FunId} (found : s.scope.function? f = some function)
    (notMain : f ≠ Scope.main) (named : function.name = callee.literal)
    (unknown : Builtin.ofName? callee.literal = none) (here : s.ast.node? e =
      some (.call callee leftParen arguments rightParen target, ty)) : Post (do
      setTarget e (.function f)
      if function.parameters.length ≠ arguments.length then
        complain (.argumentCount function.parameters.length arguments.length) callee
      arguments.zipIdx.forM (argument n s.scope function.parameters)
      setType e function.returnType) s (ResolvedExpr lo e s) := by
  have trees := tree.children here
  have le := tree.le
  have deep' e' (he' : e' ∈ arguments) : e' < n := (trees.mem_lt he').trans_le deep
  -- What follows the check of the number of arguments.
  have rest : ∀ t : State, Looks e (e + 1) s t →
    t.ast.node? e = some (.call callee leftParen arguments rightParen (.function f), ty) →
    (t.report.errors = [] → function.parameters.length = arguments.length) → Post (do
        arguments.zipIdx.forM (argument n s.scope function.parameters)
        setType e function.returnType) t (ResolvedExpr lo e s) := by
    intro t looks here count
    have resolved := arguments_resolve h function.parameters (k := 0) (looks.trees trees) deep'
    rw [looks.scope, looks.locals] at resolved
    simp only [post_bind]
    refine resolved.imp fun _ u ⟨looks1, typed⟩ => ?_
    have here := (looks1.outside e (.inr le_rfl)).trans here
    have wide := (looks.widen le le_rfl).trans (looks1.widen le_rfl (le_succ e))
    refine setType_resolves le wide here fun w looks2 node clean sees => ?_
    obtain ⟨xs, hxs⟩ := sees.ready.declared found
    have len : xs.length = arguments.length := by
      rw [← count (looks1.errors (looks2.errors clean)), ← length_map (f := some), ← hxs, length_map]
    have typed := typed (looks2.errors clean) (looks.sees sees) xs (by rw [drop_zero]; exact hxs) len
    exact .call node found notMain hxs
      (looks2.typedAll (looks1.trees (looks.trees trees)) (.inl le_rfl) typed) named unknown
  simp only [post_bind, post_ite]
  refine (setTarget_looks s e (.function f)).imp fun _ t ⟨looks, node⟩ => ⟨fun _ => ?_, fun count => ?_⟩
  · have told := complain_looks e (e + 1) (.argumentCount function.parameters.length arguments.length) callee t
    exact rest _ (looks.trans told) (node _ _ here) fun clean => absurd clean (Parser.add_errors_ne rfl)
  · exact rest t looks (node _ _ here) fun _ => not_not.1 count

lemma expression_resolves : Post (expression (n + 1) e) s (ResolvedExpr lo e s) := by
  obtain ⟨node, hnode, here, sound⟩ := exprTree_node tree
  have le := tree.le
  have start : Looks lo (e + 1) s s := .refl _ _ s
  generalize kind : node.kind = k at here
  cases k with
  | number =>
    simp only [expression, hnode, kind, post_bind, post_get]
    exact setType_resolves le start here fun u _ node _ _ => .number node
  | string =>
    simp only [expression, hnode, kind, post_bind, post_get]
    exact setType_resolves le start here fun u _ node _ _ => .string node
  | bool =>
    simp only [expression, hnode, kind, post_bind, post_get]
    exact setType_resolves le start here fun u _ node _ _ => .bool node
  | var name =>
    simp only [expression, hnode, kind, post_bind, post_get]
    split
    · rename_i v hv
      obtain ⟨x, hx, hty⟩ := lookup?_some hv
      simp only [post_bind, post_get]
      refine (setVariable_looks s e v).imp ?_
      rintro _ t ⟨looks, node⟩
      rw [looks.scope, hty]
      refine setType_resolves le (looks.widen le le_rfl) (node _ _ here) fun u _ node _ sees => ?_
      exact .var node (lookup?_means hv sees.seen) hx
    · have read := complain_resolves le start (.undeclaredVariable name.literal) rfl node.span
      simpa only [post_bind] using read
  | assign => exact assign_resolves h tree deep here
  | binary => exact binary_resolves h tree deep here
  | negate => exact negate_resolves h tree deep here
  | paren => exact paren_resolves h tree deep here
  | call callee _ arguments =>
    rw [expression, post_bind, post_get]
    simp only [hnode, kind]
    split
    · rename_i b hb
      have read := builtin_resolves h tree deep hb here
      simp only [post_bind, builtinArguments] at read ⊢
      refine read.imp fun _ t read => read.imp fun types u read => ?_
      rw [post_ite] at read ⊢
      refine ⟨read.1, fun count => ?_⟩
      have read := read.2 count
      split at read
      all_goals simpa only [post_bind, post_pure] using read
    · rename_i unknown
      simp only [post_bind, post_get]
      split
      · rename_i f hf
        obtain ⟨hf, notMain⟩ := filter_eq_some_iff.1 hf
        obtain ⟨function, found, named⟩ := lookup?_function hf
        have read := call_resolves h tree deep found (of_decide_eq_true notMain) named unknown here
        rw [found, getD_some]
        exact read
      · simp only [complain, post_bind, post_modify]
        have told := complain_looks lo (e + 1) (.undeclaredFunction callee.literal) callee s
        have deep' e' (he' : e' ∈ arguments) : e' < n := ((tree.children here).mem_lt he').trans_le deep
        refine (mapM_resolves h (told.trees (tree.children here)) deep').imp ?_
        rintro _ t ⟨looks, _⟩
        refine setType_reported le (told.trans (looks.widen le_rfl (le_succ e))) fun clean => ?_
        exact absurd (looks.errors clean) (Parser.add_errors_ne rfl)
  | error place => exact absurd kind (sound place)

end

theorem resolvesExpr (n : Nat) : ResolvesExpr n := by
  induction n with
  | zero => exact fun e lo s _ deep => absurd deep (not_lt_zero e)
  | succ n ih => exact fun e lo s tree deep => expression_resolves ih tree (le_of_lt_succ deep)

end EmLang.Resolution
