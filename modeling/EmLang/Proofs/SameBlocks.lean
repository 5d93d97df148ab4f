import EmLang.Proofs.Building
import EmLang.Proofs.Reordering

/-!
Programs that have blocks alike. Types are determined by names: where the same names can be seen
with the same types, an expression that is typed in two programs has the same type in both, and so
have all expressions in it. Whether a program has blocks depends on its nodes and their types, so
programs with the same nodes and the same functions have blocks both or neither.
-/

namespace EmLang

open Ast ExprKind List Option Text

variable {ids : List StmtId} {vars₁ vars₁' vars : List VarId} {ast' ast : Ast} {ty : Ty}
  {id : StmtId}

/-! ### Expressions -/

/-- The expression has the same type in both, and there are blocks for it in both or in neither. -/
structure Ast.SameCode (ast ast' : Ast) (e : ExprId) : Prop where
  types : (ast'.expr? e).map Expr.ty = (ast.expr? e).map Expr.ty
  void : ast'.VoidCall e ↔ ast.VoidCall e
  lacks : ast'.Lacks e ↔ ast.Lacks e

namespace Ast

variable {e : ExprId}

lemma SameNodes.node {kind : ExprKind} (nodes : ast.SameNodes ast') (here : ast.node? e = some (kind, ty)) :
    ∃ kind' ty', ast'.node? e = some (kind', ty') ∧ kind'.ReadAs kind := by
  obtain ⟨node, found, rfl, rfl⟩ := node_expr here
  have both := nodes.expr e
  rw [found] at both
  generalize found' : ast'.expr? e = node' at both
  obtain ⟨erased, -⟩ := both
  exact ⟨_, _, node?_of_expr found', readAs erased⟩

/-- What is known of the expressions below carries over. -/
lemma sameCode_of_children {kind kind' : ExprKind} (here : ast.node? e = some (kind, ty))
    (here' : ast'.node? e = some (kind', ty)) (read : kind'.ReadAs kind)
    (below : ∀ child ∈ kind.children, ast.SameCode ast' child) : ast.SameCode ast' e := by
  have types : (ast'.expr? e).map Expr.ty = (ast.expr? e).map Expr.ty := by
    obtain ⟨node, found, -, rfl⟩ := node_expr here
    obtain ⟨node', found', -, same⟩ := node_expr here'
    rw [found, found', map_some, map_some, same]
  refine ⟨types, ?_, ?_⟩
  · rw [voidCall_iff here, voidCall_iff here']
    cases kind with
    | call =>
      obtain ⟨target, rfl⟩ := read
      exact Iff.rfl
    | paren leftParen inner rightParen =>
      obtain rfl := read
      exact (below inner mem_cons_self).void
    | var | assign =>
      obtain ⟨bound, rfl⟩ := read
      exact Iff.rfl
    | _ =>
      obtain rfl := read
      exact Iff.rfl
  · rw [lacks_iff here, lacks_iff here']
    cases kind with
    | var =>
      obtain ⟨bound, rfl⟩ := read
      exact Iff.rfl
    | assign name equals value bound =>
      obtain ⟨bound', rfl⟩ := read
      have value := below value mem_cons_self
      exact or_congr value.lacks value.void
    | binary op sign left right =>
      obtain rfl := read
      have left := below left mem_cons_self
      have right := below right (mem_cons_of_mem _ mem_cons_self)
      refine or_congr (or_congr_right (and_congr_right fun _ => ?_)) (or_congr left.lacks right.lacks)
      simp only [forall_mem_cons, left.types, right.types, not_mem_nil, false_imp_iff, implies_true, and_true]
    | negate sign inner | paren leftParen inner rightParen =>
      obtain rfl := read
      exact (below inner mem_cons_self).lacks
    | call callee leftParen arguments rightParen target =>
      obtain ⟨target', rfl⟩ := read
      refine exists_congr fun argument => and_congr_right fun mem => ?_
      exact or_congr (below argument mem).lacks (below argument mem).void
    | _ =>
      obtain rfl := read
      exact Iff.rfl

end Ast

/-! ### Types -/

lemma BinaryOp.Yields.eq {a b : Ty} {op : BinaryOp} (h : op.Yields a b ty) :
    ty = if op.isComparison then .bool else a := by
  cases h with
  | join => rfl
  | arithmetic other => rw [other]; rfl
  | equality is => obtain rfl | rfl := is <;> rfl
  | order is => obtain rfl | rfl | rfl | rfl := is <;> rfl

namespace Scope

variable {scope scope' : Scope}

lemma Means.same {name : String} {v v' : VarId} {vars' : List VarId}
    (same : List.Forall₂ (SameVariable scope scope') vars vars') (means : scope.Means vars name v)
    (means' : scope'.Means vars' name v') : SameVariable scope scope' v v' := by
  obtain ⟨later, earlier, x, rfl, hx, named, others⟩ := means
  obtain ⟨later', earlier', x', rfl, hx', named', others'⟩ := means'
  induction later generalizing later' with
  | nil =>
    obtain _ | ⟨w', later'⟩ := later'
    · obtain _ | ⟨head, -⟩ := same
      exact head
    · obtain _ | ⟨⟨y, y', hy, hy', name, -⟩, -⟩ := same
      obtain ⟨⟨z', hz', different⟩, -⟩ := forall_mem_cons.1 others'
      obtain rfl := mem_unique hx hy
      obtain rfl := mem_unique hy' hz'
      exact absurd (name.trans named) different
  | cons w later ih =>
    obtain ⟨⟨z, hz, different⟩, others⟩ := forall_mem_cons.1 others
    obtain _ | ⟨w', later'⟩ := later'
    · obtain _ | ⟨⟨y, y', hy, hy', name, -⟩, -⟩ := same
      obtain rfl := mem_unique hz hy
      obtain rfl := mem_unique hx' hy'
      exact absurd (name.symm.trans named') different
    · obtain _ | ⟨-, tail⟩ := same
      exact ih others later' tail (forall_mem_cons.1 others').2

end Scope

/-! ### Statements -/

/-- Only a `let` adds a variable. -/
lemma StmtTyped.eq_of_other {f : FunId} {kind : StmtKind}
    {scope : Scope} (typed : StmtTyped ast scope f vars id vars₁) (here : ast.stmtKind? id = some kind)
    (other : ∀ keyword name ascription init bound, kind ≠ .letVar keyword name ascription init bound) :
    vars₁ = vars := by
  cases typed with
  | letVar here' => exact absurd (mem_unique here here') (other _ _ _ _ _)
  | _ => rfl

lemma Ast.SameNodes.kind (nodes : ast.SameNodes ast') {id : StmtId} {kind : StmtKind}
    (here : ast.stmtKind? id = some kind) : ∃ kind', ast'.stmtKind? id = some kind' ∧ kind'.ReadAs kind := by
  obtain ⟨node, found, rfl⟩ := map_eq_some_iff.1 here
  have both := nodes.stmt id
  rw [found] at both
  generalize found' : ast'.stmt? id = node' at both
  obtain ⟨erased, -⟩ := both
  exact ⟨_, stmtKind?_of_stmt found', StmtKind.readAs erased⟩

/-- There are blocks for the statement in both programs or in neither. -/
lemma flaw_iff {kind kind' : StmtKind} (here : ast.stmtKind? id = some kind)
    (here' : ast'.stmtKind? id = some kind') (read : kind'.ReadAs kind)
    (codes : ∀ e ∈ kind.expressions, ast.SameCode ast' e) :
    ast'.Unsupported id ∨ ast'.UsesVoid id ↔ ast.Unsupported id ∨ ast.UsesVoid id := by
  obtain ⟨branches, returned, expressions⟩ : kind'.branches = kind.branches ∧ kind'.returned = kind.returned ∧
      kind'.expressions = kind.expressions := by
    cases kind with
    | letVar | function =>
      obtain ⟨_, rfl⟩ := read
      exact ⟨rfl, rfl, rfl⟩
    | _ =>
      obtain rfl := read
      exact ⟨rfl, rfl, rfl⟩
  rw [stmt_iff here, stmt_iff here', branches, returned, expressions]
  refine or_congr_right (or_congr (exists_congr fun e => and_congr_right fun isReturned => (codes e ?_).void)
    (exists_congr fun e => and_congr_right fun mem => (codes e mem).lacks))
  cases kind with
  | ret => simpa [StmtKind.expressions, StmtKind.returned] using isReturned
  | _ => cases isReturned

lemma Ast.SameNodes.generated (nodes : ast.SameNodes ast') (ids : List StmtId) :
    ast'.generated ids = ast.generated ids := by
  have returns id : ast'.returns id = ast.returns id := by
    have shape (ast : Ast) : ast.returns id = ((ast.stmtShape? id).map StmtKind.isReturn).getD false := by
      unfold Ast.returns Ast.stmtKind? Ast.stmtShape?
      cases ast.stmt? id with
      | none => rfl
      | some node => cases kind : node.kind <;> simp [kind, StmtKind.erase, StmtKind.isReturn]
    rw [shape, shape, nodes.stmtShape?]
  induction ids with
  | nil => rfl
  | cons id ids ih => rw [Ast.generated, Ast.generated, returns, ih]

lemma Ast.mem_of_generated (h : id ∈ ast.generated ids) : id ∈ ids := by
  induction ids with
  | nil => exact h
  | cons first ids ih =>
    rw [generated, mem_cons] at h
    obtain rfl | h := h
    · exact mem_cons_self
    · split at h
      · exact absurd h not_mem_nil
      · exact mem_cons_of_mem _ (ih h)

/-! ### Programs -/

section

variable {p p' : Program}

lemma Program.Matches.returnType {f f' : FunId} {function function' : Function}
    (matched : p.Matches p') (checked : p.Checked) (checked' : p'.Checked)
    (found : p.scope.function? f = some function) (found' : p'.scope.function? f' = some function')
    (notMain : f ≠ Scope.main) (notMain' : f' ≠ Scope.main)
    (named : function'.name = function.name) : function'.returnType = function.returnType := by
  have calls := matched.calls function.name
  rw [Resolution.callee?_eq_some checked.names found notMain, ← named,
    Resolution.callee?_eq_some checked'.names found' notMain'] at calls
  obtain ⟨_, _, here, here', returns, -⟩ := calls
  obtain rfl := mem_unique found here
  obtain rfl := mem_unique found' here'
  exact returns

section

variable {vars' : List VarId} (matched : p.Matches p') (checked : p.Checked) (checked' : p'.Checked)
  (seen : List.Forall₂ (Scope.SameVariable p.scope p'.scope) vars vars')

include matched checked checked' seen

set_option linter.unusedSectionVars false in
mutual

/-- **The type of an expression is determined by the types of the names that can be seen.** -/
lemma HasType.same {ty' ty : Ty} {e : ExprId} (typed' : HasType p'.ast p'.scope vars' e ty') :
    HasType p.ast p.scope vars e ty → ty' = ty ∧ p.ast.SameCode p'.ast e
  | .number here | .string here | .bool here => by
    obtain ⟨kind', _, here', rfl⟩ := matched.nodes.node here
    obtain ⟨rfl, rfl⟩ := typed'.parts here'
    exact ⟨rfl, sameCode_of_children here here' rfl (by simp [children])⟩
  | .var here means declared => by
    obtain ⟨_, _, here', bound', rfl⟩ := matched.nodes.node here
    obtain ⟨rfl, v', x', rfl, -, declared', rfl, means'⟩ := typed'.parts here'
    obtain ⟨_, _, found, found', -, type⟩ := means.same seen means'
    obtain rfl := mem_unique declared found
    obtain rfl := mem_unique declared' found'
    rw [type] at here'
    exact ⟨type, sameCode_of_children here here' ⟨_, rfl⟩ (by simp [children])⟩
  | .assign here means declared typed => by
    obtain ⟨_, _, here', bound', rfl⟩ := matched.nodes.node here
    obtain ⟨rfl, typed', -⟩ := typed'.parts here'
    obtain ⟨rfl, code⟩ := HasType.same typed' typed
    exact ⟨rfl, sameCode_of_children here here' ⟨_, rfl⟩ (by simpa [children] using code)⟩
  | .binary here leftTyped rightTyped yields => by
    obtain ⟨_, _, here', rfl⟩ := matched.nodes.node here
    obtain ⟨rfl, a, b, leftTyped', rightTyped', yields'⟩ := typed'.parts here'
    obtain ⟨rfl, left⟩ := HasType.same leftTyped' leftTyped
    obtain ⟨rfl, right⟩ := HasType.same rightTyped' rightTyped
    obtain rfl := yields'.eq.trans yields.eq.symm
    exact ⟨rfl, sameCode_of_children here here' rfl (by simpa [children] using ⟨left, right⟩)⟩
  | .negate here typed => by
    obtain ⟨_, _, here', rfl⟩ := matched.nodes.node here
    obtain ⟨rfl, operand, rfl⟩ := typed'.parts here'
    obtain ⟨-, code⟩ := HasType.same operand typed
    exact ⟨rfl, sameCode_of_children here here' rfl (by simpa [children] using code)⟩
  | .paren here typed => by
    obtain ⟨_, _, here', rfl⟩ := matched.nodes.node here
    obtain ⟨rfl, typed'⟩ := typed'.parts here'
    obtain ⟨rfl, code⟩ := HasType.same typed' typed
    exact ⟨rfl, sameCode_of_children here here' rfl (by simpa [children] using code)⟩
  | .call here found notMain declared typed named unknown => by
    obtain ⟨_, _, here', target', rfl⟩ := matched.nodes.node here
    obtain ⟨rfl, parts⟩ := typed'.parts here'
    cases target' with
    | function f' =>
      obtain ⟨function', xs, found', -, arguments', rfl, notMain', named', -⟩ := parts
      have type := matched.returnType checked checked' found found' notMain notMain' (named'.trans named.symm)
      obtain ⟨-, code⟩ := HasTypes.same arguments' typed
      rw [type] at here'
      exact ⟨type, sameCode_of_children here here' ⟨_, rfl⟩ code⟩
    | builtin b =>
      obtain ⟨-, -, -, -, known⟩ := parts
      rw [unknown] at known
      cases known
    | unresolved => cases parts
  | .builtin here typed takes named => by
    obtain ⟨_, _, here', target', rfl⟩ := matched.nodes.node here
    obtain ⟨rfl, parts⟩ := typed'.parts here'
    cases target' with
    | function f' =>
      obtain ⟨-, -, -, -, -, -, -, -, unknown⟩ := parts
      rw [named] at unknown
      cases unknown
    | builtin b =>
      obtain ⟨types, arguments', -, rfl, known⟩ := parts
      obtain rfl := mem_unique named known
      obtain ⟨-, code⟩ := HasTypes.same arguments' typed
      exact ⟨rfl, sameCode_of_children here here' ⟨_, rfl⟩ code⟩
    | unresolved => cases parts

lemma HasTypes.same {es : List ExprId} {tys' tys : List Ty} (typed' : HasTypes p'.ast p'.scope vars' es tys') :
    HasTypes p.ast p.scope vars es tys → tys' = tys ∧ ∀ e ∈ es, p.ast.SameCode p'.ast e
  | .nil => by
    obtain _ | _ := typed'
    exact ⟨rfl, by simp⟩
  | .cons head tail => by
    obtain _ | ⟨head', tail'⟩ := typed'
    obtain ⟨rfl, code⟩ := HasType.same head' head
    obtain ⟨rfl, codes⟩ := HasTypes.same tail' tail
    exact ⟨rfl, forall_mem_cons.2 ⟨code, codes⟩⟩

end

/-- The statement leaves the same names to be seen, and its expressions have the same types. -/
lemma StmtTyped.same {f f' : FunId} {id : StmtId} (typed : StmtTyped p.ast p.scope f vars id vars₁)
    (typed' : StmtTyped p'.ast p'.scope f' vars' id vars₁')
    {kind : StmtKind} (here : p.ast.stmtKind? id = some kind) :
    List.Forall₂ (Scope.SameVariable p.scope p'.scope) vars₁ vars₁' ∧
    ∀ e ∈ kind.expressions, p.ast.SameCode p'.ast e := by
  obtain ⟨kind', here', read⟩ := matched.nodes.kind here
  have parts := typed.parts here
  have parts' := typed'.parts here'
  have determined : ∀ {e : ExprId} {ty ty' : Ty}, HasType p.ast p.scope vars e ty →
    HasType p'.ast p'.scope vars' e ty' → ty' = ty ∧ p.ast.SameCode p'.ast e := fun typed typed' =>
    HasType.same matched checked checked' seen typed' typed
  cases kind with
  | letVar keyword name ascription init bound =>
    obtain ⟨bound', rfl⟩ := read
    obtain ⟨v, x, -, rfl, typed, -, hx, -, named⟩ := parts
    obtain ⟨v', x', -, rfl, typed', -, hx', -, named'⟩ := parts'
    obtain ⟨type, code⟩ := determined typed typed'
    exact ⟨.cons ⟨x, x', hx, hx', named'.trans named.symm, type⟩ seen,
      by simpa [StmtKind.expressions] using code⟩
  | function =>
    obtain ⟨declared, rfl⟩ := read
    obtain rfl := parts
    obtain rfl := parts'
    exact ⟨seen, by simp [StmtKind.expressions]⟩
  | expr e =>
    obtain rfl := read
    obtain ⟨rfl, ty, typed⟩ := parts
    obtain ⟨rfl, ty', typed'⟩ := parts'
    exact ⟨seen, by simpa [StmtKind.expressions] using (determined typed typed').2⟩
  | ret keyword value =>
    obtain rfl := read
    obtain rfl := typed.eq_of_other here (by simp)
    obtain rfl := typed'.eq_of_other here' (by simp)
    refine ⟨seen, ?_⟩
    cases value with
    | none => simp [StmtKind.expressions]
    | some e =>
      obtain ⟨-, function, -, typed⟩ := parts
      obtain ⟨-, function', -, typed'⟩ := parts'
      simpa [StmtKind.expressions] using (determined typed typed').2
  | ifElse | whileLoop =>
    obtain rfl := read
    obtain rfl := typed.eq_of_other here (by simp)
    obtain rfl := typed'.eq_of_other here' (by simp)
    exact ⟨seen, by simpa [StmtKind.expressions] using (determined parts.1 parts'.1).2⟩

lemma StmtsTyped.flaw_iff {f f' : FunId} (typed : StmtsTyped p.ast p.scope f vars ids vars₁)
    (typed' : StmtsTyped p'.ast p'.scope f' vars' ids vars₁') : ∀ id ∈ ids, p'.ast.Unsupported id ∨
    p'.ast.UsesVoid id ↔ p.ast.Unsupported id ∨ p.ast.UsesVoid id := by
  induction ids generalizing vars vars' with
  | nil => simp
  | cons id ids ih =>
    obtain _ | ⟨head, tail⟩ := typed
    obtain _ | ⟨head', tail'⟩ := typed'
    obtain ⟨node, found, -⟩ := head.node
    have here := stmtKind?_of_stmt found
    obtain ⟨kind', here', read⟩ := matched.nodes.kind here
    obtain ⟨later, codes⟩ := head.same matched checked checked' seen head' here
    exact forall_mem_cons.2 ⟨EmLang.flaw_iff here here' read codes, ih later tail tail'⟩

end

/-- What keeps the one program from having blocks keeps the other from it. -/
lemma Program.Matches.flawed (matched : p.Matches p') (checked : p.Checked) (checked' : p'.Checked)
    (flawed : p.Unsupported ∨ p.UsesVoid) : p'.Unsupported ∨ p'.UsesVoid := by
  rw [Program.lacks_iff] at flawed ⊢
  obtain ⟨function, mem, id, generated, flaw⟩ := flawed
  obtain ⟨f, hf⟩ := mem_iff_getElem?.1 mem
  have found : p.scope.function? f = some function := by simpa [Scope.function?] using hf
  obtain ⟨f', function', found', body, sameFunction, -⟩ := matched.functions f function found
  obtain ⟨old, old', hold, hold', -, parameters⟩ := sameFunction
  obtain rfl := mem_unique found hold
  obtain rfl := mem_unique found' hold'
  obtain ⟨inner, typed⟩ := checked.bodies f function found
  obtain ⟨inner', typed'⟩ := checked'.bodies f' function' found'
  rw [body] at typed'
  have same := StmtsTyped.flaw_iff matched checked checked' (rel_reverse parameters) typed typed'
  refine ⟨function', mem_iff_getElem?.2 ⟨f', by simpa [Scope.function?] using found'⟩, id, ?_,
    (same id (mem_of_generated generated)).2 flaw⟩
  rwa [body, matched.nodes.generated]

/-- A checked program has blocks just if nothing keeps it from having them. -/
lemma Program.Checked.exists_lir_iff (checked : p.Checked) :
    (∃ lir, p.build.lir = .ok lir) ↔ ¬ (p.Unsupported ∨ p.UsesVoid) := by
  obtain ⟨b, reports, built, -⟩ := checked.built
  rw [built, Lir.Build.Result.of]
  constructor
  · rintro ⟨lir, ok⟩ flawed
    rw [if_pos ((Nat.zero_le _).trans_lt (reports.more flawed))] at ok
    cases ok
  · intro good
    have none : ¬ 0 < b.failures := (reports.quiet good).1 ▸ Nat.lt_irrefl 0
    exact ⟨b.lir, if_neg none⟩

end

end EmLang
