import EmLang.Proofs.Forest
import EmLang.Scope

/-!
When the names of a program are resolved and its expressions have types. The judgements follow the
tree and say what every node refers to; a context is the list of the variables that can be seen, the
latest first.
-/

namespace EmLang

open Ast List Nat Option Scope Text

variable {kind : ExprKind} {f : FunId} {name : String} {v : VarId} {ast : Ast} {es : List ExprId}
  {tys : List Ty} {vars vars' : List VarId}

/-! ### Types of operators and built-in operations -/

/-- A type that values have. -/
def Ty.IsProper (ty : Ty) : Prop := ty ≠ .unresolved ∧ ty ≠ .error

/-- The operator takes operands of the first two types and yields the third. -/
inductive BinaryOp.Yields : BinaryOp → Ty → Ty → Ty → Prop where
  | join : Yields .add .string .string .string
  | arithmetic {op : BinaryOp} (h : op.isComparison = false) : Yields op .int .int .int
  | equality {op : BinaryOp} {ty : Ty} (h : op = .eq ∨ op = .ne) (value : ty ≠ .void) : Yields op ty ty .bool
  | order {op : BinaryOp} (h : op = .lt ∨ op = .gt ∨ op = .le ∨ op = .ge) : Yields op .int .int .bool

/-- The built-in operation takes arguments of these types. -/
inductive Builtin.Takes : Builtin → List Ty → Prop where
  | print {ty : Ty} (value : ty ≠ .void) : Takes .print [ty]
  | tick : Takes .tick []
  | toText : Takes .toText [.int]

/-! ### Typed nodes -/

def Ast.node? (ast : Ast) (e : ExprId) : Option (ExprKind × Ty) := (ast.expr? e).map fun n => (n.kind, n.ty)

def Ast.stmtKind? (ast : Ast) (id : StmtId) : Option StmtKind := (ast.stmt? id).map Stmt.kind

variable {e : ExprId} {ty : Ty} {scope : Scope}

lemma Ast.node?_of_expr {node : Expr} (h : ast.expr? e = some node) :
    ast.node? e = some (node.kind, node.ty) := by
  simp only [node?, h, map_some]

lemma node_expr (h : ast.node? e = some (kind, ty)) :
    ∃ node, ast.expr? e = some node ∧ node.kind = kind ∧ node.ty = ty := by
  obtain ⟨node, hnode, same⟩ := map_eq_some_iff.1 h
  simp only [Prod.mk.injEq] at same
  exact ⟨node, hnode, same⟩

lemma Ast.kind_of_expr {node : Expr} (found : ast.expr? e = some node) :
    ∀ {kind ty}, ast.node? e = some (kind, ty) → node.kind = kind := by
  intro kind ty here
  obtain ⟨node', found', same, -⟩ := node_expr here
  rwa [mem_unique found found']

lemma Ast.stmtKind?_of_stmt {id : StmtId} {node : Stmt} (h : ast.stmt? id = some node) :
    ast.stmtKind? id = some node.kind := by
  simp only [stmtKind?, h, map_some]

/-- The name means the variable `v` where the variables `vars` can be seen: it is the latest of that
name. -/
def Scope.Means (scope : Scope) (vars : List VarId) (name : String) (v : VarId) : Prop :=
  ∃ later earlier x, vars = later ++ v :: earlier ∧ scope.var? v = some x ∧ x.name = name ∧
    ∀ w ∈ later, ∃ y, scope.var? w = some y ∧ y.name ≠ name

lemma Scope.Means.mem (h : scope.Means vars name v) : v ∈ vars := by
  obtain ⟨later, earlier, x, rfl, -⟩ := h
  simp

mutual

/-- The expression has the type where the variables `vars` can be seen. -/
inductive HasType (ast : Ast) (scope : Scope) (vars : List VarId) : ExprId → Ty → Prop where
  | number {e : ExprId} {literal : Span} {value : Int64}
      (here : ast.node? e = some (.number literal value, .int)) : HasType ast scope vars e .int
  | string {e : ExprId} {literal : Span} {value : String}
      (here : ast.node? e = some (.string literal value, .string)) : HasType ast scope vars e .string
  | bool {e : ExprId} {literal : Span} {value : Bool} (here : ast.node? e = some (.bool literal value, .bool)) :
      HasType ast scope vars e .bool
  | var {e : ExprId} {name : Span} {v : VarId} {x : Variable} (here : ast.node? e =
        some (.var name (some v), x.ty)) (means : scope.Means vars name.literal v)
      (declared : scope.var? v = some x) : HasType ast scope vars e x.ty
  | assign {e : ExprId} {name equals : Span} {value : ExprId} {v : VarId}
      {x : Variable} (here : ast.node? e = some (.assign name equals value (some v), x.ty))
      (means : scope.Means vars name.literal v) (declared : scope.var? v = some x)
      (typed : HasType ast scope vars value x.ty) : HasType ast scope vars e x.ty
  | binary {e : ExprId} {op : BinaryOp} {sign : Span} {left right : ExprId} {a b ty : Ty}
      (here : ast.node? e = some (.binary op sign left right, ty)) (leftTyped : HasType ast scope vars left a)
      (rightTyped : HasType ast scope vars right b) (yields : op.Yields a b ty) : HasType ast scope vars e ty
  | negate {e : ExprId}
      {sign : Span} {operand : ExprId} (here : ast.node? e = some (.negate sign operand, .int))
      (typed : HasType ast scope vars operand .int) : HasType ast scope vars e .int
  | paren {e : ExprId} {leftParen rightParen : Span} {inner : ExprId} {ty : Ty}
      (here : ast.node? e = some (.paren leftParen inner rightParen, ty))
      (typed : HasType ast scope vars inner ty) : HasType ast scope vars e ty
  | call {e : ExprId} {callee leftParen rightParen : Span} {arguments : List ExprId} {f : FunId}
      {function : Function} {parameters : List Variable}
      (here : ast.node? e =
        some (.call callee leftParen arguments rightParen (.function f), function.returnType))
      (found : scope.function? f = some function) (notMain : f ≠ main)
      (declared : function.parameters.map scope.var? = parameters.map some)
      (typed : HasTypes ast scope vars arguments (parameters.map Variable.ty))
      (named : function.name = callee.literal) (unknown : Builtin.ofName? callee.literal = none) :
      HasType ast scope vars e function.returnType
  | builtin {e : ExprId} {callee leftParen rightParen : Span} {arguments : List ExprId} {b : Builtin}
      {types : List Ty}
      (here : ast.node? e = some (.call callee leftParen arguments rightParen (.builtin b), b.returnType))
      (typed : HasTypes ast scope vars arguments types) (takes : b.Takes types)
      (named : Builtin.ofName? callee.literal = some b) : HasType ast scope vars e b.returnType

inductive HasTypes (ast : Ast) (scope : Scope) (vars : List VarId) : List ExprId → List Ty → Prop where
  | nil : HasTypes ast scope vars [] []
  | cons {e : ExprId} {ty : Ty} {es : List ExprId} {tys : List Ty} (head : HasType ast scope vars e ty)
      (tail : HasTypes ast scope vars es tys) : HasTypes ast scope vars (e :: es) (ty :: tys)

end

mutual

/-- The statement, in the body of the function `f`, is typed where the variables before it can be
seen; after it the variables behind it can be seen. -/
inductive StmtTyped (ast : Ast) (scope : Scope) (f : FunId) : List VarId → StmtId → List VarId → Prop where
  | expr {vars : List VarId} {id : StmtId} {e : ExprId} {ty : Ty} (here : ast.stmtKind? id = some (.expr e))
      (typed : HasType ast scope vars e ty) : StmtTyped ast scope f vars id vars
  | letVar {vars : List VarId} {id : StmtId} {keyword name : Span} {ascription : Option Ascription}
      {init : ExprId} {v : VarId} {x : Variable}
      (here : ast.stmtKind? id = some (.letVar keyword name ascription init (some v)))
      (typed : HasType ast scope vars init x.ty) (fresh : v ∉ vars) (declared : scope.var? v = some x)
      (owned : x.function = f) (value : x.ty ≠ .void) (named : x.name = name.literal) :
      StmtTyped ast scope f vars id (v :: vars)
  | ret {vars : List VarId} {id : StmtId} {keyword : Span} {e : ExprId} {function : Function}
      (here : ast.stmtKind? id = some (.ret keyword (some e))) (notMain : f ≠ main)
      (found : scope.function? f = some function) (typed : HasType ast scope vars e function.returnType) :
      StmtTyped ast scope f vars id vars
  | retVoid {vars : List VarId} {id : StmtId} {keyword : Span} {function : Function}
      (here : ast.stmtKind? id = some (.ret keyword none)) (notMain : f ≠ main)
      (found : scope.function? f = some function) (void : function.returnType = .void) :
      StmtTyped ast scope f vars id vars
  | ifThen {vars inner : List VarId} {id : StmtId} {keyword : Span} {condition : ExprId} {thenBody : Body}
      (here : ast.stmtKind? id = some (.ifElse keyword condition thenBody none))
      (typed : HasType ast scope vars condition .bool)
      (thenTyped : StmtsTyped ast scope f vars thenBody.statements inner) : StmtTyped ast scope f vars id vars
  | ifElse {vars inner inner' : List VarId} {id : StmtId} {keyword : Span} {condition : ExprId}
      {thenBody elseBody : Body}
      (here : ast.stmtKind? id = some (.ifElse keyword condition thenBody (some elseBody)))
      (typed : HasType ast scope vars condition .bool)
      (thenTyped : StmtsTyped ast scope f vars thenBody.statements inner)
      (elseTyped : StmtsTyped ast scope f vars elseBody.statements inner') : StmtTyped ast scope f vars id vars
  | whileLoop {vars inner : List VarId} {id : StmtId} {keyword : Span} {condition : ExprId} {body : Body}
      (here : ast.stmtKind? id = some (.whileLoop keyword condition body))
      (typed : HasType ast scope vars condition .bool)
      (bodyTyped : StmtsTyped ast scope f vars body.statements inner) : StmtTyped ast scope f vars id vars
  | function {vars : List VarId} {id : StmtId} {keyword name : Span} {parameters : List Parameter}
      {returnType : Option ReturnType} {body : Body} {declared : Option FunId}
      (here : ast.stmtKind? id = some (.function keyword name parameters returnType body declared)) :
      StmtTyped ast scope f vars id vars

inductive StmtsTyped (ast : Ast) (scope : Scope) (f : FunId) :
    List VarId → List StmtId → List VarId → Prop where
  | nil {vars : List VarId} : StmtsTyped ast scope f vars [] vars
  | cons {vars vars' vars'' : List VarId} {id : StmtId} {ids : List StmtId}
      (head : StmtTyped ast scope f vars id vars') (tail : StmtsTyped ast scope f vars' ids vars'') :
      StmtsTyped ast scope f vars (id :: ids) vars''

end

/-! ### Parts of typed nodes -/

lemma hasType_node (typed : HasType ast scope vars e ty) : ∃ kind, ast.node? e = some (kind, ty) := by
  cases typed <;> exact ⟨_, ‹_›⟩

/-- What typing says of the parts of an expression of the type `ty`. -/
def ExprKind.Typed (ast : Ast) (scope : Scope) (vars : List VarId) (ty : Ty) : ExprKind → Prop
  | .number .. => ty = .int
  | .string .. => ty = .string
  | .bool .. => ty = .bool
  | .var name bound => ∃ v x, bound = some v ∧ v ∈ vars ∧ scope.var? v = some x ∧ x.ty = ty ∧
      scope.Means vars name.literal v
  | .assign name _ value bound => HasType ast scope vars value ty ∧
      ∃ v x, bound = some v ∧ v ∈ vars ∧ scope.var? v = some x ∧ x.ty = ty ∧ scope.Means vars name.literal v
  | .binary op _ left right => ∃ a b, HasType ast scope vars left a ∧
      HasType ast scope vars right b ∧ op.Yields a b ty
  | .negate _ operand => HasType ast scope vars operand .int ∧ ty = .int
  | .paren _ inner _ => HasType ast scope vars inner ty
  | .call callee _ arguments _ (.function f) => ∃ function, ∃ xs : List Variable,
      scope.function? f = some function ∧ function.parameters.map scope.var? = xs.map some ∧
      HasTypes ast scope vars arguments (xs.map Variable.ty) ∧ function.returnType = ty ∧ f ≠ main ∧
      function.name = callee.literal ∧ Builtin.ofName? callee.literal = none
  | .call callee _ arguments _ (.builtin b) => ∃ types, HasTypes ast scope vars arguments types ∧
      b.Takes types ∧ b.returnType = ty ∧ Builtin.ofName? callee.literal = some b
  | .call _ _ _ _ .unresolved | .error _ => False

lemma HasType.parts {ty' : Ty} (typed : HasType ast scope vars e ty)
    (h : ast.node? e = some (kind, ty')) : ty' = ty ∧ kind.Typed ast scope vars ty := by
  have same {k : ExprKind} {a : Ty} (here : ast.node? e = some (k, a)) : ty' = a ∧ kind = k := by
    rw [h] at here
    obtain ⟨rfl, rfl⟩ := Prod.mk.inj (some.inj here)
    exact ⟨rfl, rfl⟩
  cases typed with
  | number here | string here | bool here =>
    obtain ⟨rfl, rfl⟩ := same here
    exact ⟨rfl, rfl⟩
  | var here means declared =>
    obtain ⟨rfl, rfl⟩ := same here
    exact ⟨rfl, _, _, rfl, means.mem, declared, rfl, means⟩
  | assign here means declared typed =>
    obtain ⟨rfl, rfl⟩ := same here
    exact ⟨rfl, typed, _, _, rfl, means.mem, declared, rfl, means⟩
  | binary here leftTyped rightTyped yields =>
    obtain ⟨rfl, rfl⟩ := same here
    exact ⟨rfl, _, _, leftTyped, rightTyped, yields⟩
  | negate here typed =>
    obtain ⟨rfl, rfl⟩ := same here
    exact ⟨rfl, typed, rfl⟩
  | paren here typed =>
    obtain ⟨rfl, rfl⟩ := same here
    exact ⟨rfl, typed⟩
  | call here found notMain declared typed named unknown =>
    obtain ⟨rfl, rfl⟩ := same here
    exact ⟨rfl, _, _, found, declared, typed, rfl, notMain, named, unknown⟩
  | builtin here typed takes named =>
    obtain ⟨rfl, rfl⟩ := same here
    exact ⟨rfl, _, typed, takes, rfl, named⟩

/-- The node of a typed expression. -/
lemma HasType.node (typed : HasType ast scope vars e ty) :
    ∃ node, ast.expr? e = some node ∧ node.ty = ty ∧ node.kind.Typed ast scope vars ty := by
  obtain ⟨kind, here⟩ := hasType_node typed
  obtain ⟨node, found, rfl, same⟩ := node_expr here
  exact ⟨node, found, same, (typed.parts here).2⟩

lemma HasTypes.exists_of_mem (h : HasTypes ast scope vars es tys) (mem : e ∈ es) :
    ∃ ty, HasType ast scope vars e ty := by
  induction es generalizing tys with
  | nil => simp at mem
  | cons e' es ih =>
    obtain _ | ⟨head, tail⟩ := h
    obtain rfl | mem := mem_cons.1 mem
    · exact ⟨_, head⟩
    · exact ih tail mem

lemma HasTypes.length_eq (h : HasTypes ast scope vars es tys) : es.length = tys.length := by
  induction es generalizing tys with
  | nil =>
    obtain ⟨⟩ := h
    rfl
  | cons e es ih =>
    obtain _ | ⟨-, tail⟩ := h
    exact congrArg succ (ih tail)

lemma ExprKind.Typed.arguments {callee leftParen rightParen : Span} {target : CallTarget}
    {arguments : List ExprId}
    (h : (ExprKind.call callee leftParen arguments rightParen target).Typed ast scope vars ty) :
    ∃ types, HasTypes ast scope vars arguments types := by
  cases target with
  | function f =>
    obtain ⟨function, xs, -, -, typed, -⟩ := h
    exact ⟨_, typed⟩
  | builtin b =>
    obtain ⟨types, typed, -⟩ := h
    exact ⟨types, typed⟩
  | unresolved => cases h

/-- The node of a typed statement. -/
lemma StmtTyped.node {id : StmtId} (typed : StmtTyped ast scope f vars id vars') :
    ∃ node, ast.stmt? id = some node ∧ ∀ {kind}, ast.stmtKind? id = some kind → node.kind = kind := by
  obtain ⟨kind, here⟩ : ∃ kind, ast.stmtKind? id = some kind := by cases typed <;> exact ⟨_, ‹_›⟩
  obtain ⟨node, found, rfl⟩ := map_eq_some_iff.1 here
  exact ⟨node, found, fun here' => mem_unique here here'⟩

/-- What typing says of the parts of a statement behind which the variables `vars'` can be seen. -/
def StmtKind.Typed (ast : Ast) (scope : Scope) (f : FunId) (vars vars' : List VarId) : StmtKind → Prop
  | .expr e => vars' = vars ∧ ∃ ty, HasType ast scope vars e ty
  | .letVar _ name _ init bound => ∃ v x, bound = some v ∧
      vars' = v :: vars ∧ HasType ast scope vars init x.ty ∧
      v ∉ vars ∧ scope.var? v = some x ∧ x.function = f ∧ x.name = name.literal
  | .ret _ (some e) => f ≠ main ∧
      ∃ function, scope.function? f = some function ∧ HasType ast scope vars e function.returnType
  | .ret _ none => f ≠ main ∧ ∃ function, scope.function? f = some function ∧ function.returnType = .void
  | .ifElse _ condition thenBody elseBody => HasType ast scope vars condition .bool ∧ ∀ body, body =
      thenBody ∨ some body = elseBody → ∃ inner, StmtsTyped ast scope f vars body.statements inner
  | .whileLoop _ condition body => HasType ast scope vars condition .bool ∧
      ∃ inner, StmtsTyped ast scope f vars body.statements inner
  | .function .. => vars' = vars

lemma StmtTyped.parts {id : StmtId} {kind : StmtKind} (typed : StmtTyped ast scope f vars id vars')
    (h : ast.stmtKind? id = some kind) : kind.Typed ast scope f vars vars' := by
  have same {k : StmtKind} (here : ast.stmtKind? id = some k) : kind = k := by
    rw [h] at here
    exact some.inj here
  cases typed with
  | expr here typed =>
    rw [same here]
    exact ⟨rfl, _, typed⟩
  | letVar here typed fresh declared owned _ named =>
    rw [same here]
    exact ⟨_, _, rfl, rfl, typed, fresh, declared, owned, named⟩
  | ret here notMain found typed =>
    rw [same here]
    exact ⟨notMain, _, found, typed⟩
  | retVoid here notMain found void =>
    rw [same here]
    exact ⟨notMain, _, found, void⟩
  | ifThen here typed thenTyped =>
    rw [same here]
    refine ⟨typed, fun body h => ?_⟩
    obtain rfl | h := h
    · exact ⟨_, thenTyped⟩
    · cases h
  | ifElse here typed thenTyped elseTyped =>
    rw [same here]
    refine ⟨typed, fun body h => ?_⟩
    obtain rfl | h := h
    · exact ⟨_, thenTyped⟩
    · cases h
      exact ⟨_, elseTyped⟩
  | whileLoop here typed bodyTyped =>
    rw [same here]
    exact ⟨typed, _, bodyTyped⟩
  | function here =>
    rw [same here]
    rfl

/-- The expressions that a statement begins with are typed. -/
lemma StmtKind.Typed.spanned {kind : StmtKind} (h : kind.Typed ast scope f vars vars')
    (own : e ∈ kind.spanned) : ∃ ty, HasType ast scope vars e ty := by
  cases kind with
  | expr =>
    obtain rfl := mem_singleton.1 own
    exact h.2
  | letVar =>
    obtain rfl := mem_singleton.1 own
    obtain ⟨v, x, -, -, typed, -⟩ := h
    exact ⟨_, typed⟩
  | ret keyword value =>
    cases value with
    | none => exact (not_mem_nil own).elim
    | some value =>
      obtain rfl := mem_singleton.1 own
      obtain ⟨-, function, -, typed⟩ := h
      exact ⟨_, typed⟩
  | ifElse | whileLoop | function => exact (not_mem_nil own).elim

/-! ### Changing what is outside -/

/-- All that a typed node refers to in the one scope is the same in the other. -/
structure Scope.Extends (scope scope' : Scope) : Prop where
  vars : ∀ v x, scope.var? v = some x → scope'.var? v = some x
  functions : ∀ f function, scope.function? f = some function →
    ∃ function', scope'.function? f = some function' ∧ function'.parameters = function.parameters ∧
    function'.returnType = function.returnType ∧ function'.name = function.name

section Transfer

variable {ast' : Ast} {scope scope' : Scope} {lo : Nat} {vs : List VarId}

lemma Scope.Extends.refl (scope : Scope) : scope.Extends scope :=
  ⟨fun _ _ h => h, fun _ function h => ⟨function, h, rfl, rfl, rfl⟩⟩

lemma Scope.Extends.means (ext : scope.Extends scope') (h : scope.Means vars name v) :
    scope'.Means vars name v := by
  obtain ⟨later, earlier, x, split, declared, named, others⟩ := h
  refine ⟨later, earlier, x, split, ext.vars v x declared, named, fun w hw => ?_⟩
  obtain ⟨y, hy, other⟩ := others w hw
  exact ⟨y, ext.vars w y hy, other⟩

lemma Scope.Extends.map_var (ext : scope.Extends scope') {xs : List Variable}
    (h : vs.map scope.var? = xs.map some) : vs.map scope'.var? = xs.map some := by
  induction vs generalizing xs with
  | nil => exact h
  | cons v vs ih =>
    obtain _ | ⟨x, xs⟩ := xs
    · simp at h
    · simp only [map_cons, cons.injEq] at h ⊢
      exact ⟨ext.vars v x h.1, ih h.2⟩

lemma Ast.exprShape?_eq (ast : Ast) (e : ExprId) : ast.exprShape? e = (ast.node? e).map fun n => n.1.erase := by
  unfold exprShape? node?
  cases ast.expr? e <;> rfl

lemma Ast.exprShape?_of_node (h : ast.node? e = some (kind, ty)) : ast.exprShape? e = some kind.erase := by
  rw [exprShape?_eq, h, map_some]

lemma Ast.stmtShape?_of_stmtKind {id : StmtId} {kind : StmtKind}
    (h : ast.stmtKind? id = some kind) : ast.stmtShape? id = some kind.erase := by
  unfold stmtShape?
  obtain ⟨n, hn, heq⟩ := map_eq_some_iff.1 h
  rw [hn, ← heq]
  rfl

lemma ExprTree.children (tree : ExprTree ast lo e) (h : ast.node? e = some (kind, ty)) :
    ExprTrees ast lo kind.children e := by
  obtain ⟨here, -, below, last⟩ := tree
  rw [exprShape?_of_node h, some.injEq] at here
  rw [← here, ExprKind.children_erase] at below
  exact below.upto_le last

lemma StmtTree.parts {slo elo ehi : Nat} {id : StmtId}
    {kind : StmtKind} (tree : StmtTree ast slo elo id ehi) (h : ast.stmtKind? id = some kind) :
    ∃ mid, ExprTrees ast elo kind.expressions mid ∧ StmtTrees ast slo mid kind.inner id ehi := by
  obtain ⟨here, own, below, last⟩ := tree
  rw [stmtShape?_of_stmtKind h, some.injEq] at here
  rw [← here, StmtKind.expressions_erase] at own
  rw [← here, StmtKind.inner_erase] at below
  exact ⟨_, own, below.upto_le last le_rfl⟩

/-- The expressions are trees, and the nodes there are the same in the other program. -/
def SharedExprs (ast ast' : Ast) (es : List ExprId) : Prop :=
  ∃ lo hi, ExprTrees ast lo es hi ∧ ∀ i, lo ≤ i → i < hi → ast'.node? i = ast.node? i

/-- The statements are trees, and the nodes there are the same in the other program. -/
def SharedStmts (ast ast' : Ast) (ids : List StmtId) : Prop :=
  ∃ slo elo shi ehi, StmtTrees ast slo elo ids shi ehi ∧ (∀ i, slo ≤ i → i < shi →
    ast'.stmtKind? i = ast.stmtKind? i) ∧ ∀ i, elo ≤ i → i < ehi → ast'.node? i = ast.node? i

lemma ExprTree.shared (tree : ExprTree ast lo e)
    (same : ∀ i, lo ≤ i → i ≤ e → ast'.node? i = ast.node? i) : SharedExprs ast ast' [e] :=
  ⟨lo, e + 1, .cons tree (.nil le_rfl), fun i h h' => same i h (le_of_lt_succ h')⟩

lemma StmtTree.shared {slo elo ehi : Nat} {id : StmtId} (tree : StmtTree ast slo elo id ehi)
    (stmts : ∀ i, slo ≤ i → i ≤ id → ast'.stmtKind? i = ast.stmtKind? i)
    (exprs : ∀ i, elo ≤ i → i < ehi → ast'.node? i = ast.node? i) : SharedStmts ast ast' [id] :=
  ⟨slo, elo, id + 1, ehi, .cons tree (.nil le_rfl le_rfl), fun i h h' => stmts i h (le_of_lt_succ h'), exprs⟩

lemma SharedExprs.cons (h : SharedExprs ast ast' (e :: es)) :
    SharedExprs ast ast' [e] ∧ SharedExprs ast ast' es := by
  obtain ⟨lo, hi, _ | ⟨head, tail⟩, same⟩ := h
  exact ⟨head.shared fun i h h' => same i h (lt_of_le_of_lt h' tail.le), _, hi, tail,
    fun i h => same i (head.le.trans ((le_succ _).trans h))⟩

lemma SharedExprs.parts (h : SharedExprs ast ast' [e]) (here : ast.node? e = some (kind, ty)) :
    ast'.node? e = some (kind, ty) ∧ SharedExprs ast ast' kind.children := by
  obtain ⟨lo, hi, _ | ⟨head, tail⟩, same⟩ := h
  exact ⟨(same e head.le tail.le).trans here, lo, e, head.children here,
    fun i h h' => same i h (h'.trans tail.le)⟩

lemma SharedStmts.append {ids ids' : List StmtId} (h : SharedStmts ast ast' (ids ++ ids')) :
    SharedStmts ast ast' ids ∧ SharedStmts ast ast' ids' := by
  obtain ⟨slo, elo, shi, ehi, trees, stmts, exprs⟩ := h
  obtain ⟨smid, emid, first, second⟩ := trees.split
  exact ⟨⟨slo, elo, smid, emid, first, fun i h h' => stmts i h (h'.trans_le second.le.1),
    fun i h h' => exprs i h (h'.trans_le second.le.2)⟩, smid, emid, shi, ehi, second,
    fun i h => stmts i (first.le.1.trans h), fun i h => exprs i (first.le.2.trans h)⟩

lemma SharedStmts.parts {id : StmtId} {kind : StmtKind} (h : SharedStmts ast ast' [id])
    (here : ast.stmtKind? id = some kind) : ast'.stmtKind? id = some kind ∧
    SharedExprs ast ast' kind.expressions ∧ SharedStmts ast ast' kind.inner := by
  obtain ⟨slo, elo, shi, ehi, _ | ⟨head, tail⟩, stmts, exprs⟩ := h
  obtain ⟨mid, own, below⟩ := head.parts here
  exact ⟨(stmts id head.le.1 tail.le.1).trans here, ⟨elo, mid, own, fun i h h' =>
    exprs i h (h'.trans_le (below.le.2.trans tail.le.2))⟩, slo, mid, id, _, below, fun i h h' =>
    stmts i h (h'.trans tail.le.1), fun i h h' => exprs i (own.le.trans h) (h'.trans_le tail.le.2)⟩

mutual

/-- A typed expression stays typed when only nodes outside its range change. -/
lemma HasType.transfer (ext : scope.Extends scope') {e : ExprId} {ty : Ty} (shared : SharedExprs ast ast' [e]) :
    HasType ast scope vars e ty → HasType ast' scope' vars e ty
  | .number here => .number (shared.parts here).1
  | .string here => .string (shared.parts here).1
  | .bool here => .bool (shared.parts here).1
  | .var here means declared => .var (shared.parts here).1 (ext.means means) (ext.vars _ _ declared)
  | .assign here means declared typed =>
    have ⟨here', value⟩ := shared.parts here
    .assign here' (ext.means means) (ext.vars _ _ declared) (typed.transfer ext value)
  | .binary here leftTyped rightTyped yields =>
    have ⟨here', operands⟩ := shared.parts here
    .binary here' (leftTyped.transfer ext operands.cons.1) (rightTyped.transfer ext operands.cons.2) yields
  | .negate here typed => .negate (shared.parts here).1 (typed.transfer ext (shared.parts here).2)
  | .paren here typed => .paren (shared.parts here).1 (typed.transfer ext (shared.parts here).2)
  | .call here found notMain declared typed named unknown => by
    obtain ⟨function', found', params, ret, name⟩ := ext.functions _ _ found
    obtain ⟨here', arguments⟩ := shared.parts here
    rw [← ret] at here' ⊢
    exact .call here' found' notMain (by rw [params]; exact ext.map_var declared)
      (typed.transfer ext arguments) (name.trans named) unknown
  | .builtin here typed takes named =>
      .builtin (shared.parts here).1 (typed.transfer ext (shared.parts here).2) takes named

lemma HasTypes.transfer (ext : scope.Extends scope')
    {es : List ExprId} {tys : List Ty} (shared : SharedExprs ast ast' es) :
    HasTypes ast scope vars es tys → HasTypes ast' scope' vars es tys
  | .nil => .nil
  | .cons head tail => .cons (head.transfer ext shared.cons.1) (tail.transfer ext shared.cons.2)

end

mutual

/-- A typed statement stays typed when only nodes outside its range change. -/
lemma StmtTyped.transfer (ext : scope.Extends scope')
    {vars vars' : List VarId} {id : StmtId} (shared : SharedStmts ast ast' [id]) :
    StmtTyped ast scope f vars id vars' → StmtTyped ast' scope' f vars id vars'
  | .expr here typed =>
    have ⟨here', own, _⟩ := shared.parts here
    .expr here' (typed.transfer ext own)
  | .letVar here typed fresh declared owned value named =>
    have ⟨here', own, _⟩ := shared.parts here
    .letVar here' (typed.transfer ext own) fresh (ext.vars _ _ declared) owned value named
  | .ret here notMain found typed => by
    obtain ⟨function', found', -, result, -⟩ := ext.functions _ _ found
    obtain ⟨here', own, -⟩ := shared.parts here
    exact .ret here' notMain found' (result ▸ typed.transfer ext own)
  | .retVoid here notMain found void => by
    obtain ⟨function', found', -, result, -⟩ := ext.functions _ _ found
    exact .retVoid (shared.parts here).1 notMain found' (result.trans void)
  | .ifThen here typed thenTyped => by
    obtain ⟨here', own, inner⟩ := shared.parts here
    rw [StmtKind.inner_ifThen] at inner
    exact .ifThen here' (typed.transfer ext own) (thenTyped.transfer ext inner)
  | .ifElse here typed thenTyped elseTyped => by
    obtain ⟨here', own, inner⟩ := shared.parts here
    rw [StmtKind.inner_ifElse] at inner
    exact .ifElse here' (typed.transfer ext own) (thenTyped.transfer ext inner.append.1)
      (elseTyped.transfer ext inner.append.2)
  | .whileLoop here typed bodyTyped => by
    obtain ⟨here', own, inner⟩ := shared.parts here
    rw [StmtKind.inner_whileLoop] at inner
    exact .whileLoop here' (typed.transfer ext own) (bodyTyped.transfer ext inner)
  | .function here => .function (shared.parts here).1

lemma StmtsTyped.transfer (ext : scope.Extends scope')
    {vars vars' : List VarId} {ids : List StmtId} (shared : SharedStmts ast ast' ids) :
    StmtsTyped ast scope f vars ids vars' → StmtsTyped ast' scope' f vars ids vars'
  | .nil => .nil
  | @StmtsTyped.cons _ _ _ _ _ _ id ids head tail =>
    have ⟨first, rest⟩ := SharedStmts.append (show SharedStmts ast ast' ([id] ++ ids) from shared)
    .cons (head.transfer ext first) (tail.transfer ext rest)

end

end Transfer

end EmLang
