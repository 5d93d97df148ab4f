import EmLang.Proofs.Bodies
import Mathlib.Data.List.Forall2

/-!
Two runs of the resolver over the same tree. The positions that variables and functions have in
their tables do not matter: where the same names can be seen with the same types, looking at a
statement gives the same types, reports the same faults and leaves the same names to be seen behind
it.
-/

namespace EmLang

open List Option Scope Text

variable {f f' : FunId} {scope scope' : Scope}

/-! ### Trees as they were read -/

lemma rel_of_map_eq {α β : Type}
    {f : α → β} {r : α → α → Prop} (related : ∀ a a', f a' = f a → r a a') {found found' : Option α}
    (same : found'.map f = found.map f) : Rel r found found' := by
  cases found <;> cases found'
  · exact .none
  · cases same
  · cases same
  · exact .some (related _ _ (some.inj same))

namespace Ast

/-- The expression as it was read, and where it stands. -/
def exprRead? (ast : Ast) (e : ExprId) : Option (ExprKind × Span) := (ast.expr? e).map fun node =>
    (node.kind.erase, node.span)

/-- The statement as it was read, and where it stands. -/
def stmtRead? (ast : Ast) (id : StmtId) : Option (StmtKind × Span) := (ast.stmt? id).map fun node =>
    (node.kind.erase, node.span)

/-- Both have the same nodes, apart from what their names refer to and their types. -/
structure SameNodes (ast ast' : Ast) : Prop where
  exprs : ∀ e, ast'.exprRead? e = ast.exprRead? e
  stmts : ∀ id, ast'.stmtRead? id = ast.stmtRead? id

namespace SameNodes

variable {ast ast' ast'' : Ast}

lemma refl (ast : Ast) : ast.SameNodes ast := ⟨fun _ => rfl, fun _ => rfl⟩

section

variable (h : ast.SameNodes ast')

include h

lemma symm : ast'.SameNodes ast := ⟨fun e => (h.exprs e).symm, fun id => (h.stmts id).symm⟩

lemma trans (h' : ast'.SameNodes ast'') : ast.SameNodes ast'' :=
  ⟨fun e => (h'.exprs e).trans (h.exprs e), fun id => (h'.stmts id).trans (h.stmts id)⟩

lemma exprShape? (e : ExprId) : ast'.exprShape? e = ast.exprShape? e := by
  simpa only [exprRead?, Ast.exprShape?, Option.map_map,
    Function.comp_def] using congrArg (Option.map Prod.fst) (h.exprs e)

lemma stmtShape? (id : StmtId) : ast'.stmtShape? id = ast.stmtShape? id := by
  simpa only [stmtRead?, Ast.stmtShape?, Option.map_map,
    Function.comp_def] using congrArg (Option.map Prod.fst) (h.stmts id)

lemma exprSpan (e : ExprId) : ast'.exprSpan e = ast.exprSpan e := by
  have same : (ast'.expr? e).map Expr.span = (ast.expr? e).map Expr.span := by
    simpa only [exprRead?, Option.map_map, Function.comp_def] using congrArg (Option.map Prod.snd) (h.exprs e)
  rw [Ast.exprSpan, Ast.exprSpan, same]

lemma stmtSpan (id : StmtId) : (ast'.stmt? id).map Stmt.span = (ast.stmt? id).map Stmt.span := by
  simpa only [stmtRead?, Option.map_map, Function.comp_def] using congrArg (Option.map Prod.snd) (h.stmts id)

lemma expr (e : ExprId) : Rel (fun node node' : Expr => node'.kind.erase = node.kind.erase ∧
      node'.span = node.span) (ast.expr? e) (ast'.expr? e) :=
  rel_of_map_eq (fun _ _ => Prod.mk.inj) (h.exprs e)

lemma stmt (id : StmtId) : Rel (fun node node' : Stmt => node'.kind.erase = node.kind.erase ∧
      node'.span = node.span) (ast.stmt? id) (ast'.stmt? id) :=
  rel_of_map_eq (fun _ _ => Prod.mk.inj) (h.stmts id)

end

lemma modifyExpr {f : Expr → Expr} (ast : Ast) (e : ExprId) (kind : ∀ n, (f n).kind.erase = n.kind.erase)
    (span : ∀ n, (f n).span = n.span) : ast.SameNodes (ast.modifyExpr e f) := by
  refine ⟨fun i => ?_, fun _ => rfl⟩
  simp only [exprRead?, Ast.expr?, Ast.modifyExpr, Array.getElem?_modify]
  split
  · cases ast.expressions[i]? <;> simp [kind, span]
  · rfl

lemma modifyStmt {f : Stmt → Stmt} (ast : Ast) (id : StmtId) (kind : ∀ n, (f n).kind.erase = n.kind.erase)
    (span : ∀ n, (f n).span = n.span) : ast.SameNodes (ast.modifyStmt id f) := by
  refine ⟨fun _ => rfl, fun i => ?_⟩
  simp only [stmtRead?, Ast.stmt?, Ast.modifyStmt, Array.getElem?_modify]
  split
  · cases ast.statements[i]? <;> simp [kind, span]
  · rfl

end SameNodes

end Ast

/-- The kinds that are read as this one. -/
def ExprKind.ReadAs (kind : ExprKind) : ExprKind → Prop
  | .var name _ => ∃ bound, kind = .var name bound
  | .assign name equals value _ => ∃ bound, kind = .assign name equals value bound
  | .call callee leftParen arguments rightParen _ =>
      ∃ target, kind = .call callee leftParen arguments rightParen target
  | kind' => kind = kind'

lemma ExprKind.readAs {kind kind' : ExprKind} (h : kind'.erase = kind.erase) : kind'.ReadAs kind := by
  cases kind <;> cases kind' <;> simp_all [ExprKind.erase, ExprKind.ReadAs]

/-- The kinds that are read as this one. -/
def StmtKind.ReadAs (kind : StmtKind) : StmtKind → Prop
  | .letVar keyword name ascription init _ => ∃ bound, kind = .letVar keyword name ascription init bound
  | .function keyword name parameters returnType body _ =>
      ∃ declared, kind = .function keyword name parameters returnType body declared
  | kind' => kind = kind'

lemma StmtKind.readAs {kind kind' : StmtKind} (h : kind'.erase = kind.erase) : kind'.ReadAs kind := by
  cases kind <;> cases kind' <;> simp_all [StmtKind.erase, StmtKind.ReadAs]

/-! ### Names with the same types -/

namespace Scope

/-- The variables have the same name and the same type. -/
def SameVariable (scope scope' : Scope) (v v' : VarId) : Prop :=
  ∃ x x', scope.var? v = some x ∧ scope'.var? v' = some x' ∧ x'.name = x.name ∧ x'.ty = x.ty

/-- The functions take and return the same types. -/
def SameFunction (scope scope' : Scope) (f f' : FunId) : Prop :=
  ∃ function function', scope.function? f = some function ∧ scope'.function? f' = some function' ∧
    function'.returnType = function.returnType ∧
    Forall₂ (SameVariable scope scope') function.parameters function'.parameters

/-- The function that a call of this name means. -/
def callee? (scope : Scope) (name : String) : Option FunId := (scope.lookup? name).filter (· ≠ main)

/-- Calls of a name mean functions that take and return the same types. -/
def SameCalls (scope scope' : Scope) : Prop :=
  ∀ name, Rel (SameFunction scope scope') (scope.callee? name) (scope'.callee? name)

variable {after after' : Scope} {v v' : VarId}

lemma SameVariable.typeOf (h : SameVariable scope scope' v v') : scope'.typeOf v' = scope.typeOf v := by
  obtain ⟨x, x', here, here', -, ty⟩ := h
  simp only [Scope.typeOf, here, here', map_some, ty]

lemma SameVariable.symm (h : SameVariable scope scope' v v') : SameVariable scope' scope v' v := by
  obtain ⟨x, x', here, here', name, ty⟩ := h
  exact ⟨x', x, here', here, name.symm, ty.symm⟩

lemma SameFunction.symm (h : SameFunction scope scope' f f') : SameFunction scope' scope f' f := by
  obtain ⟨function, function', here, here', returns, parameters⟩ := h
  exact ⟨function', function, here', here, returns.symm, .flip (parameters.imp fun _ _ h => h.symm)⟩

lemma SameVariable.grown (h : SameVariable scope scope' v v') (grows : scope.Grows after)
    (grows' : scope'.Grows after') : SameVariable after after' v v' := by
  obtain ⟨x, x', here, here', same⟩ := h
  exact ⟨x, x', grows.vars _ _ here, grows'.vars _ _ here', same⟩

lemma SameFunction.grown (h : SameFunction scope scope' f f') (grows : scope.Grows after)
    (grows' : scope'.Grows after') : SameFunction after after' f f' := by
  obtain ⟨function, function', here, here', returns, parameters⟩ := h
  obtain ⟨more, hmore⟩ := grows.functions _ _ here
  obtain ⟨more', hmore'⟩ := grows'.functions _ _ here'
  exact ⟨_, _, hmore, hmore', returns, parameters.imp fun _ _ h => h.grown grows grows'⟩

/-- Only the names of functions are looked at. -/
lemma lookup?_eq (scope : Scope) (name : String) :
    scope.lookup? name = (scope.functions.map Function.name).findIdx? (· = name) := by
  rw [Array.findIdx?_map]
  rfl

lemma Grows.lookup? (grows : scope.Grows after) (name : String) : after.lookup? name = scope.lookup? name := by
  have names : after.functions.map Function.name = scope.functions.map Function.name := by
    refine Array.ext_getElem? fun f => ?_
    rw [Array.getElem?_map, Array.getElem?_map]
    cases here : scope.functions[f]? with
    | none =>
      have none : after.functions[f]? = none := by
        rw [Array.getElem?_eq_none_iff] at here ⊢
        exact grows.size.trans_le here
      rw [none]
    | some function =>
      obtain ⟨more, hmore⟩ := grows.functions f function here
      rw [show after.functions[f]? = _ from hmore]
      rfl
  rw [lookup?_eq, lookup?_eq, names]

lemma Grows.callee? (grows : scope.Grows after) (name : String) : after.callee? name = scope.callee? name := by
  rw [Scope.callee?, Scope.callee?, grows.lookup?]

lemma SameCalls.grown (h : SameCalls scope scope') (grows : scope.Grows after)
    (grows' : scope'.Grows after') : SameCalls after after' := by
  intro name
  have calls := h name
  rw [grows.callee?, grows'.callee?]
  generalize scope.callee? name = f at calls ⊢
  generalize scope'.callee? name = f' at calls ⊢
  obtain same | _ := calls
  · exact .some (same.grown grows grows')
  · exact .none

end Scope

namespace Resolution

open Scope

variable {n : Nat} {s t u : State}

/-! ### Steps taken together -/

/-- Lists of variables with the same names and types. -/
abbrev SameLocals (s s' : State) : Prop := Forall₂ (Forall₂ (SameVariable s.scope s'.scope)) s.locals s'.locals

/-- The same tree is looked at, and the same names can be seen with the same types. -/
structure Twins (s s' : State) : Prop where
  nodes : s.ast.SameNodes s'.ast
  sound : ∀ e place, s.ast.exprShape? e ≠ some (.error place)
  calls : s.scope.SameCalls s'.scope
  locals : SameLocals s s'
  main : s'.function = main ↔ s.function = main
  inside : SameFunction s.scope s'.scope s.function s'.function

/-- From `s` to `t` names are resolved, variables added and faults reported. -/
structure Follows (s t : State) : Prop where
  nodes : s.ast.SameNodes t.ast
  scope : s.scope.Grows t.scope
  function : t.function = s.function
  outer : t.locals.tail = s.locals.tail

lemma Follows.refl (s : State) : Follows s s := ⟨.refl _, .refl _, rfl, rfl⟩

lemma Follows.trans (h : Follows s t) (h' : Follows t u) : Follows s u :=
  ⟨h.nodes.trans h'.nodes, h.scope.trans h'.scope, h'.function.trans h.function, h'.outer.trans h.outer⟩

/-- From `s` to `t` and from `s'` to `t'` the same is done. -/
structure Keeps (s s' t t' : State) : Prop where
  first : Follows s t
  second : Follows s' t'
  locals : SameLocals t t'
  errors : ∃ more, t.report.errors = s.report.errors ++ more ∧ t'.report.errors = s'.report.errors ++ more

variable {α β : Type} {s' t' u' : State}

lemma Keeps.trans (h : Keeps s s' t t') (h' : Keeps t t' u u') : Keeps s s' u u' := by
  obtain ⟨more, errors, errors'⟩ := h.errors
  obtain ⟨more1, errors1, errors1'⟩ := h'.errors
  exact ⟨h.first.trans h'.first, h.second.trans h'.second, h'.locals, more ++ more1,
    by rw [errors1, errors, append_assoc], by rw [errors1', errors', append_assoc]⟩

lemma Keeps.twins (h : Keeps s s' t t') (twins : Twins s s') : Twins t t' where
  nodes := h.first.nodes.symm.trans (twins.nodes.trans h.second.nodes)
  sound e place := by
    rw [h.first.nodes.exprShape?]
    exact twins.sound e place
  calls := twins.calls.grown h.first.scope h.second.scope
  locals := h.locals
  main := by
    rw [h.first.function, h.second.function]
    exact twins.main
  inside := by
    rw [h.first.function, h.second.function]
    exact twins.inside.grown h.first.scope h.second.scope

/-- The steps, begun in `s` and in `s'`, yield the same value and do the same. -/
def Together (act act' : Resolve α) (s s' : State) : Prop :=
  Twins s s' → Post act s fun a t => Post act' s' fun a' t' => a' = a ∧ Keeps s s' t t'

/-- The same steps, begun in `s` and in `s'`, do the same. -/
abbrev Alike (act : Resolve α) (s s' : State) : Prop := Together act act s s'

variable {act act' : Resolve α} {rest rest' : α → Resolve β}

lemma Together.bind_keeps (h : Together act act' s s') (h' : ∀ a t t', Keeps s s' t t' →
      Together (rest a) (rest' a) t t') : Together (act >>= rest) (act' >>= rest') s s' := by
  intro twins
  obtain ⟨same, keeps⟩ := h twins
  have later : ∀ a', a' = (act.run s).1 →
      Together (rest (act.run s).1) (rest' a') (act.run s).2 (act'.run s').2 := by
    rintro _ rfl
    exact h' _ _ _ keeps
  obtain ⟨same', keeps'⟩ := later _ same (keeps.twins twins)
  exact ⟨same', keeps.trans keeps'⟩

lemma Together.bind (h : Together act act' s s') (h' : ∀ a {t t'},
      Together (rest a) (rest' a) t t') : Together (act >>= rest) (act' >>= rest') s s' :=
  h.bind_keeps fun a _ _ _ => h' a

lemma together_get {rest rest' : State → Resolve α} (h : Twins s s' → Together (rest s)
      (rest' s') s s') : Together (get >>= rest) (get >>= rest') s s' := fun twins => h twins twins

lemma Twins.keeps (twins : Twins s s') : Keeps s s' s s' := ⟨.refl s, .refl s', twins.locals, [], by simp⟩

lemma together_pure (a : α) : Alike (pure a) s s' := fun twins => ⟨rfl, twins.keeps⟩

/-! ### Steps that only report -/

/-- The steps yield a value and report something, whatever the state is. -/
def Speaks (act : Resolve α) : Prop :=
  ∃ a more, ∀ s, Post act s fun a' t => a' = a ∧ ∃ report : Report, t = { s with report } ∧
  report.errors = s.report.errors ++ more

lemma speaks_pure (a : α) : Speaks (pure a) := ⟨a, [], fun s => ⟨rfl, s.report, rfl, by simp⟩⟩

lemma Speaks.bind (h : Speaks act) (h' : ∀ a, Speaks (rest a)) : Speaks (act >>= rest) := by
  obtain ⟨a, more, first⟩ := h
  obtain ⟨b, more', second⟩ := h' a
  refine ⟨b, more ++ more', fun s => ?_⟩
  rw [post_bind]
  refine (first s).imp fun a' t ⟨same, report, ht, errors⟩ => ?_
  subst same ht
  refine (second _).imp fun b' t ⟨same, report', ht, errors'⟩ => ⟨same, report', ht, ?_⟩
  rw [errors', errors, append_assoc]

lemma speaks_complain (problem : Problem) (span : Span) : Speaks (complain problem span) := by
  refine ⟨⟨⟩, if problem.severity = .error then [⟨problem, span⟩] else [], fun s => ⟨rfl, _, rfl, ?_⟩⟩
  cases h : problem.severity <;> simp [Report.add, Diagnostic.severity, h]

lemma speaks_ite {c : Prop} [Decidable c] (h : Speaks act) (h' : Speaks act') :
    Speaks (if c then act else act') := by
  split
  · exact h
  · exact h'

lemma expectType_speaks (expected actual : Ty) (span : Span) : Speaks (expectType expected actual span) :=
  speaks_ite (speaks_pure _) ((speaks_complain ..).bind fun _ => speaks_pure _)

lemma expectValue_speaks (ty : Ty) (span : Span) : Speaks (expectValue ty span) :=
  speaks_ite (speaks_complain ..) (speaks_pure _)

lemma typeNamed_speaks (name : Span) : Speaks (typeNamed name) := by
  unfold typeNamed
  cases Ty.ofName? name.literal with
  | some ty => exact speaks_pure ty
  | none => exact (speaks_complain ..).bind fun _ => speaks_pure _

lemma binaryType_speaks (op : BinaryOp) (left right : Operand) (span : Span) :
    Speaks (binaryType op left right span) := by
  have numbers : Speaks (do let _ ← expectType .int left.ty left.span; expectType .int right.ty right.span) :=
    (expectType_speaks ..).bind fun _ => expectType_speaks ..
  refine speaks_ite (speaks_pure _) ?_
  cases op with
  | add | sub | mul | div | rem => exact speaks_ite (expectType_speaks ..) numbers
  | eq | ne =>
    refine (expectValue_speaks ..).bind fun _ => ?_
    exact speaks_ite (speaks_pure _) ((speaks_complain ..).bind fun _ => speaks_pure _)
  | lt | gt | le | ge => exact (expectType_speaks ..).bind fun _ =>
      (expectType_speaks ..).bind fun _ => speaks_pure _

lemma Speaks.together (h : Speaks act) : Alike act s s' := by
  intro twins
  obtain ⟨a, more, given⟩ := h
  refine (given s).imp fun a1 t ⟨same, report, ht, errors⟩ =>
    (given s').imp fun a2 t' ⟨same', report', ht', errors'⟩ => ?_
  subst ht ht'
  exact ⟨same'.trans same.symm, ⟨.refl _, .refl _, rfl, rfl⟩, ⟨.refl _, .refl _, rfl, rfl⟩,
    twins.locals, more, errors, errors'⟩

/-! ### Steps at one node -/

lemma modifyExpr_together {f f' : Expr → Expr} (twins : Twins s s') (e : ExprId)
    (kind : ∀ n, (f n).kind.erase = n.kind.erase) (span : ∀ n, (f n).span = n.span)
    (kind' : ∀ n, (f' n).kind.erase = n.kind.erase) (span' : ∀ n, (f' n).span = n.span) :
    Keeps s s' { s with ast := s.ast.modifyExpr e f } { s' with ast := s'.ast.modifyExpr e f' } :=
  ⟨⟨.modifyExpr _ e kind span, .refl _, rfl, rfl⟩, ⟨.modifyExpr _ e kind' span', .refl _, rfl, rfl⟩,
  twins.locals, [], by simp⟩

lemma setType_together (e : ExprId) (ty : Ty) : Alike (setType e ty) s s' :=
  fun twins => ⟨rfl, modifyExpr_together twins e (fun _ => rfl) (fun _ => rfl) (fun _ => rfl) fun _ => rfl⟩

lemma setVariable_together (e : ExprId) (v v' : VarId) : Together (setVariable e v) (setVariable e v') s s' :=
  fun twins => ⟨rfl,
  modifyExpr_together twins e (fun _ => by simp) (fun _ => rfl) (fun _ => by simp) fun _ => rfl⟩

lemma setTarget_together (e : ExprId) (target target' : CallTarget) :
    Together (setTarget e target) (setTarget e target') s s' :=
  fun twins => ⟨rfl,
  modifyExpr_together twins e (fun _ => by simp) (fun _ => rfl) (fun _ => by simp) fun _ => rfl⟩

lemma spanOf_together (e : ExprId) : Alike (spanOf e) s s' :=
  fun twins => ⟨twins.nodes.exprSpan e, twins.keeps⟩

/-! ### Expressions -/

lemma Twins.lookup? (twins : Twins s s') (name : String) :
    Rel (SameVariable s.scope s'.scope) (s.lookup? name) (s'.lookup? name) := by
  have flat : Forall₂ (SameVariable s.scope s'.scope) s.locals.flatten s'.locals.flatten :=
    rel_flatten twins.locals
  unfold State.lookup?
  generalize s.locals.flatten = vs at flat ⊢
  generalize s'.locals.flatten = vs' at flat ⊢
  induction flat with
  | nil => exact .none
  | @cons v v' vs vs' same _ ih =>
    obtain ⟨x, x', here, here', named, -⟩ := id same
    rw [find?_cons, find?_cons, here, here', any_some, any_some, named]
    cases decide (x.name = name) with
    | true => exact .some same
    | false => exact ih

/-- With the bound `n` on the depth, the same expression is looked at alike. -/
def LooksAlike (n : Nat) : Prop := ∀ e {s s'}, Alike (expression n e) s s'

section

variable (ih : LooksAlike n) {parameters parameters' : List VarId}

include ih

lemma mapM_together (es : List ExprId) : Alike (es.mapM (expression n)) s s' := by
  induction es generalizing s s' with
  | nil => exact together_pure []
  | cons e es ih' =>
    rw [mapM_cons]
    exact (ih e).bind fun ty => ih'.bind fun tys => together_pure _

section

variable (same : Forall₂ (SameVariable scope scope') parameters parameters')

include same

lemma argument_together (e : ExprId) (position : Nat) : Together (argument n scope parameters
      (e, position)) (argument n scope' parameters' (e, position)) s s' := by
  refine (ih e).bind fun actual t t' => ?_
  have here : Rel (SameVariable scope scope') parameters[position]? parameters'[position]? := by
    induction same generalizing position with
    | nil => exact .none
    | cons head _ ih =>
      cases position with
      | zero => exact .some head
      | succ position => exact ih position
  generalize parameters[position]? = parameter at here ⊢
  generalize parameters'[position]? = parameter' at here ⊢
  obtain same | _ := here
  · refine (spanOf_together e).bind fun span => ?_
    rw [same.typeOf]
    exact ((expectType_speaks ..).bind fun _ => speaks_pure _).together
  · exact together_pure _

lemma arguments_together (arguments : List (ExprId × Nat)) : Together (arguments.forM
      (argument n scope parameters)) (arguments.forM (argument n scope' parameters')) s s' := by
  induction arguments generalizing s s' with
  | nil => exact together_pure _
  | cons argument arguments ih' => exact (argument_together ih same argument.1 argument.2).bind fun _ => ih'

end

/-- The end of a call of a function, when its number has been looked up. -/
def callFunction (n : Nat) (scope : Scope) (e : ExprId) (callee : Span) (arguments : List ExprId)
    (f : FunId) : Resolve Ty := do
  setTarget e (.function f)
  let function := (scope.function? f).getD default
  if function.parameters.length ≠ arguments.length then
    complain (.argumentCount function.parameters.length arguments.length) callee
  arguments.zipIdx.forM (argument n scope function.parameters)
  setType e function.returnType

lemma call_together (e : ExprId)
    (callee : Span) (arguments : List ExprId) (same : SameFunction s.scope s'.scope f f') :
    Together (callFunction n s.scope e callee arguments f)
    (callFunction n s'.scope e callee arguments f') s s' := by
  obtain ⟨function, function', here, here', returns, parameters⟩ := same
  simp only [callFunction, here, here', getD_some, returns, ← parameters.length_eq]
  refine (setTarget_together e _ _).bind fun _ t t' => ?_
  have rest {t t'} : Together (do
      arguments.zipIdx.forM (argument n s.scope function.parameters)
      setType e function.returnType) (do
      arguments.zipIdx.forM (argument n s'.scope function'.parameters)
      setType e function.returnType) t t' := (arguments_together ih parameters _).bind fun _ =>
      setType_together e _
  split_ifs
  · exact (speaks_complain ..).together.bind fun _ => rest
  · exact rest

lemma builtin_together (e : ExprId) (callee : Span) (arguments : List ExprId) (builtin : Builtin) : Alike (do
      let types ← arguments.mapM (expression n)
      if arguments.length ≠ builtin.parameterCount then
        complain (.argumentCount builtin.parameterCount arguments.length) callee
      else match builtin, arguments, types with
        | .print, argument :: _, ty :: _ => expectValue ty (← spanOf argument)
        | .toText, argument :: _, ty :: _ => let _ ← expectType .int ty (← spanOf argument)
        | _, _, _ => pure ()
      setType e builtin.returnType) s s' := by
  refine (mapM_together ih arguments).bind fun types t t' => ?_
  split_ifs
  · exact (speaks_complain ..).together.bind fun _ => setType_together e _
  · split
    · exact (spanOf_together _).bind fun _ => (expectValue_speaks ..).together.bind fun _ =>
        setType_together e _
    · exact (spanOf_together _).bind fun _ => (expectType_speaks ..).together.bind fun _ => setType_together e _
    · exact setType_together e _

lemma expression_together : LooksAlike (n + 1) := by
  intro e s s'
  refine together_get fun twins => ?_
  have nodes := twins.nodes.expr e
  have sound := twins.sound e
  unfold Ast.exprShape? at sound
  generalize s.ast.expr? e = found at nodes sound ⊢
  generalize s'.ast.expr? e = found' at nodes ⊢
  obtain ⟨erased, span⟩ | _ := nodes
  swap
  · exact together_pure _
  rename_i node node'
  obtain ⟨_, kind, _, _⟩ := node
  obtain ⟨_, kind', _, _⟩ := node'
  have read := ExprKind.readAs erased
  subst span
  cases kind with
  | number | string | bool =>
    cases read
    exact setType_together e _
  | var name bound =>
    obtain ⟨bound', rfl⟩ := read
    refine together_get fun twins => ?_
    have here := twins.lookup? name.literal
    generalize s.lookup? name.literal = v at here ⊢
    generalize s'.lookup? name.literal = v' at here ⊢
    obtain same | _ := here
    · refine (setVariable_together e _ _).bind_keeps fun _ t t' keeps => together_get fun _ => ?_
      rw [(same.grown keeps.first.scope keeps.second.scope).typeOf]
      exact setType_together e _
    · exact (speaks_complain ..).together.bind fun _ => setType_together e _
  | assign name equals value bound =>
    obtain ⟨bound', rfl⟩ := read
    refine (ih value).bind fun actual t t' => together_get fun twins => ?_
    have here := twins.lookup? name.literal
    generalize t.lookup? name.literal = v at here ⊢
    generalize t'.lookup? name.literal = v' at here ⊢
    obtain same | _ := here
    · refine (setVariable_together e _ _).bind_keeps fun _ u u' keeps => together_get fun _ => ?_
      rw [(same.grown keeps.first.scope keeps.second.scope).typeOf]
      exact (spanOf_together value).bind fun _ => (expectType_speaks ..).together.bind fun _ =>
        setType_together e _
    · exact (speaks_complain ..).together.bind fun _ => setType_together e _
  | binary op sign left right =>
    cases read
    refine (ih left).bind fun _ => (ih right).bind fun _ => (spanOf_together left).bind fun _ =>
      (spanOf_together right).bind fun _ => ?_
    exact (binaryType_speaks ..).together.bind fun _ => setType_together e _
  | negate sign operand =>
    cases read
    exact (ih operand).bind fun _ => (spanOf_together operand).bind fun _ =>
      (expectType_speaks ..).together.bind fun _ => setType_together e _
  | paren leftParen inner rightParen =>
    cases read
    exact (ih inner).bind fun _ => setType_together e _
  | call callee leftParen arguments rightParen target =>
    obtain ⟨target', rfl⟩ := read
    dsimp only
    cases Builtin.ofName? callee.literal with
    | some builtin => exact (setTarget_together e _ _).bind fun _ =>
        builtin_together ih e callee arguments builtin
    | none =>
      refine together_get fun twins => ?_
      have here := twins.calls callee.literal
      unfold callee? at here
      generalize (s.scope.lookup? callee.literal).filter (· ≠ main) = f at here ⊢
      generalize (s'.scope.lookup? callee.literal).filter (· ≠ main) = f' at here ⊢
      obtain same | _ := here
      · exact call_together ih e callee arguments same
      · exact (speaks_complain ..).together.bind fun _ => (mapM_together ih arguments).bind fun _ =>
          setType_together e _
  | error place => exact absurd rfl (sound place)

end

lemma looksAlike : ∀ n, LooksAlike n
  | 0 => fun _ _ _ => together_pure _
  | n + 1 => expression_together (looksAlike n)

/-! ### Statements -/

lemma declareLet_together (id : StmtId) (name : String) (ty : Ty) : Alike (do
      let v ← declare name ty
      modify fun s => { s with ast := s.ast.setBinding id v }) s s' := by
  intro twins
  have grows := Grows.declareVariable s.scope name ty s.function
  have grows' := Grows.declareVariable s'.scope name ty s'.function
  have new : SameVariable (s.scope.declareVariable name ty s.function false).1
      (s'.scope.declareVariable name ty s'.function false).1 s.scope.vars.size s'.scope.vars.size :=
    ⟨_, _, (var?_declareVariable ..).trans (if_pos rfl), (var?_declareVariable ..).trans (if_pos rfl), rfl, rfl⟩
  have locals : SameLocals (s.declared name ty) (s'.declared name ty) := by
    have before : Forall₂ (Forall₂
      (SameVariable (s.declared name ty).scope (s'.declared name ty).scope)) s.locals s'.locals :=
      twins.locals.imp fun _ _ h => h.imp fun _ _ h => h.grown grows grows'
    unfold SameLocals State.declared
    generalize s.locals = vs at before ⊢
    generalize s'.locals = vs' at before ⊢
    obtain _ | ⟨head, tail⟩ := before
    · exact .cons (.cons new .nil) .nil
    · exact .cons (.cons new head) tail
  have bound : ∀ (s : State) (v : VarId), s.ast.SameNodes (s.ast.setBinding id v) := fun s v =>
    .modifyStmt _ id (fun _ => by simp) fun _ => rfl
  exact ⟨rfl, ⟨bound s _, grows, rfl, (s.locals_declared name ty).2⟩, ⟨bound s' _, grows', rfl,
    (s'.locals_declared name ty).2⟩, locals, [], (append_nil _).symm, (append_nil _).symm⟩

/-- With the bound `n` on the depth, the same statements are looked at alike. -/
def WalksAlike (n : Nat) : Prop := ∀ ids {s s'}, Alike (statements n ids) s s'

/-- A body is opened with variables of the same types in it, and closed afterwards. -/
lemma inBody_keeps {opened opened' : List VarId} (ih : WalksAlike n) (ids : List StmtId)
    (twins : Twins s s') (same : Forall₂ (SameVariable s.scope s'.scope) opened opened') :
    Post (inBody opened (statements n ids)) s fun _ t =>
    Post (inBody opened' (statements n ids)) s' fun _ t' =>
      Keeps s s' t t' ∧ t.locals = s.locals ∧ t'.locals = s'.locals := by
  have twins' : Twins { s with locals := opened :: s.locals } { s' with locals := opened' :: s'.locals } :=
    { twins with locals := .cons same twins.locals }
  have walked := ih ids twins'
  simp only [inBody, post_bind, post_modify]
  refine walked.imp fun _ t next => next.imp ?_
  rintro _ t' ⟨_, first, second, _, errors⟩
  have left : t.locals.tail = s.locals := first.outer
  have left' : t'.locals.tail = s'.locals := second.outer
  refine ⟨⟨⟨first.nodes, first.scope, first.function, congrArg tail left⟩,
    ⟨second.nodes, second.scope, second.function, congrArg tail left'⟩, ?_, errors⟩, left, left'⟩
  rw [SameLocals, left, left']
  exact twins.locals.imp fun _ _ h => h.imp fun _ _ h => h.grown first.scope second.scope

lemma inBody_together (ih : WalksAlike n) (ids : List StmtId) : Alike (inBody [] (statements n ids)) s s' :=
  fun twins => ⟨rfl, (inBody_keeps ih ids twins .nil).1⟩

lemma isReturn_eq (twins : Twins s s') (id : StmtId) : isReturn s' id = isReturn s id := by
  have nodes := twins.nodes.stmt id
  unfold isReturn
  generalize s.ast.stmt? id = found at nodes ⊢
  generalize s'.ast.stmt? id = found' at nodes ⊢
  obtain ⟨erased, -⟩ | _ := nodes
  · rename_i node node'
    have read := StmtKind.readAs erased
    rw [map_some, map_some]
    cases kind : node.kind <;> rw [kind] at read
    case letVar | function =>
      obtain ⟨_, kind'⟩ := read
      rw [kind']
    all_goals rw [show node'.kind = _ from read]
  · rfl

lemma statement_together (ih : WalksAlike n) (id : StmtId) : Alike (statement (n + 1) id) s s' := by
  refine together_get fun twins => ?_
  have nodes := twins.nodes.stmt id
  generalize s.ast.stmt? id = found at nodes ⊢
  generalize s'.ast.stmt? id = found' at nodes ⊢
  obtain ⟨erased, -⟩ | _ := nodes
  swap
  · exact together_pure _
  rename_i node node'
  obtain ⟨_, kind, _⟩ := node
  obtain ⟨_, kind', _⟩ := node'
  have read := StmtKind.readAs erased
  have looks := looksAlike n
  have condition (e : ExprId) {next : Resolve Unit} (h : ∀ {t t'}, Alike next t t') : Alike (do
      let actual ← expression n e
      let _ ← expectType .bool actual (← spanOf e)
      next) s s' :=
    (looks e).bind fun _ => (spanOf_together e).bind fun _ => (expectType_speaks ..).together.bind fun _ => h
  cases kind with
  | expr e =>
    cases read
    exact (looks e).bind fun _ => together_pure _
  | letVar keyword name ascription init bound =>
    obtain ⟨bound', rfl⟩ := read
    have named : Speaks (ascription.mapM fun a => typeNamed a.typeName) := by
      cases ascription with
      | none => exact speaks_pure none
      | some a => exact (typeNamed_speaks a.typeName).bind fun _ => speaks_pure _
    refine named.together.bind fun expected => (looks init).bind fun actual =>
      (spanOf_together init).bind fun span => ?_
    refine (expectValue_speaks ..).together.bind fun _ => ?_
    cases expected with
    | some expected => exact (expectType_speaks ..).together.bind fun ty =>
        declareLet_together id name.literal ty
    | none => exact declareLet_together id name.literal actual
  | ret keyword value =>
    cases read
    refine together_get fun twins => ?_
    by_cases outside : s.function = main
    · rw [if_pos outside, if_pos (twins.main.2 outside)]
      exact (speaks_complain ..).together
    · rw [if_neg outside, if_neg (mt twins.main.1 outside)]
      obtain ⟨function, function', here, here', returns, -⟩ := twins.inside
      simp only [here, here', map_some, getD_some, returns]
      have checks (actual : Ty) (span : Span) :
        Speaks (do let _ ← expectType function.returnType actual span; return ()) :=
        (expectType_speaks ..).bind fun _ => speaks_pure _
      cases value with
      | some value => exact (looks value).bind fun _ => (spanOf_together value).bind fun _ =>
          (checks ..).together
      | none => exact (checks ..).together
  | ifElse keyword e thenBody elseBody =>
    cases read
    refine condition e ((inBody_together ih thenBody.statements).bind fun _ => ?_)
    cases elseBody with
    | some b => exact inBody_together ih b.statements
    | none => exact together_pure _
  | whileLoop keyword e body =>
    cases read
    exact condition e (inBody_together ih body.statements)
  | function =>
    obtain ⟨declared, rfl⟩ := read
    exact together_pure _

lemma statements_together (ih : ∀ id {s s'}, Alike (statement n id) s s') : WalksAlike (n + 1) := by
  intro ids s s'
  suffices h : ∀ {s s'} afterReturn, Alike (ids.foldlM (fun afterReturn id => do
      let s ← get
      if afterReturn then
        complain .unreachable (((s.ast.stmt? id).map Stmt.span).getD ⟨0, 0, ""⟩)
      statement n id
      return isReturn s id) afterReturn) s s' by
    exact (h false).bind fun _ => together_pure _
  induction ids with
  | nil => exact fun afterReturn => together_pure afterReturn
  | cons id ids ih' =>
    intro s s' afterReturn
    refine Together.bind (together_get fun twins => ?_) fun _ => ih' _
    rw [isReturn_eq twins, twins.nodes.stmtSpan]
    have rest {t t'} : Alike (do statement n id; return isReturn s id) t t' := (ih id).bind fun _ =>
      together_pure _
    cases afterReturn with
    | true => exact (speaks_complain ..).together.bind fun _ => rest
    | false => exact rest

lemma walksAlike : ∀ n, WalksAlike n
  | 0 => fun _ _ _ => together_pure _
  | 1 => statements_together fun _ _ _ => together_pure _
  | n + 2 => statements_together fun id _ _ => statement_together (walksAlike n) id

end Resolution

end EmLang
