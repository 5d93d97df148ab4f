import EmLang.Ast.Parser
import Mathlib.Order.Nat
import Mathlib.Tactic.Common

/-!
Programs as trees, apart from the tables that hold them. A tree is put into tables with every node
behind its parts, and is read off them again. Written out, it is a row of marks, one for each token:
some tokens are kept by the nodes, with their spans, and of others only the kind is known.
-/

namespace EmLang.Tree

open Text

/-! ### Trees -/

inductive Expr where
  | number (literal : Span) (value : Int64)
  | string (literal : Span) (value : String)
  | bool (literal : Span) (value : Bool)
  | var (name : Span)
  | assign (name equals : Span) (value : Expr)
  | binary (op : BinaryOp) (sign : Span) (left right : Expr)
  | negate (sign : Span) (operand : Expr)
  | paren (leftParen : Span) (inner : Expr) (rightParen : Span)
  | call (callee leftParen : Span) (arguments : List Expr) (rightParen : Span)

mutual

inductive Stmt where
  | expr (e : Expr)
  | letVar (keyword name : Span) (ascription : Option Ascription) (init : Expr)
  | ret (keyword : Span) (value : Option Expr)
  | ifThen (keyword : Span) (condition : Expr) (thenBody : Body)
  | ifElse (keyword : Span) (condition : Expr) (thenBody elseBody : Body)
  | whileLoop (keyword : Span) (condition : Expr) (body : Body)
  | function (keyword name : Span) (parameters : List Parameter) (returnType : Option ReturnType) (body : Body)

/-- Statements between braces. -/
inductive Body where
  | mk (openBrace : Span) (statements : List Stmt) (closeBrace : Span)

end

/-! ### Trees in tables -/

mutual

/-- Puts an expression behind all nodes of a program, after its parts. -/
def Expr.addTo (ast : Ast) : Expr → Ast × ExprId
  | .number literal value => ast.addExpr (.number literal value)
  | .string literal value => ast.addExpr (.string literal value)
  | .bool literal value => ast.addExpr (.bool literal value)
  | .var name => ast.addExpr (.var name none)
  | .assign name equals value =>
    let (ast, value) := value.addTo ast
    ast.addExpr (.assign name equals value none)
  | .binary op sign left right =>
    let (ast, left) := left.addTo ast
    let (ast, right) := right.addTo ast
    ast.addExpr (.binary op sign left right)
  | .negate sign operand =>
    let (ast, operand) := operand.addTo ast
    ast.addExpr (.negate sign operand)
  | .paren leftParen inner rightParen =>
    let (ast, inner) := inner.addTo ast
    ast.addExpr (.paren leftParen inner rightParen)
  | .call callee leftParen arguments rightParen =>
    let (ast, arguments) := addExprs ast arguments
    ast.addExpr (.call callee leftParen arguments rightParen .unresolved)

def addExprs (ast : Ast) : List Expr → Ast × List ExprId
  | [] => (ast, [])
  | x :: xs =>
    let (ast, e) := x.addTo ast
    let (ast, es) := addExprs ast xs
    (ast, e :: es)

end

mutual

/-- Puts a statement behind all nodes of a program, after its parts. -/
def Stmt.addTo (ast : Ast) : Stmt → Ast × StmtId
  | .expr e =>
    let (ast, e) := e.addTo ast
    ast.addStmt (.expr e)
  | .letVar keyword name ascription init =>
    let (ast, init) := init.addTo ast
    ast.addStmt (.letVar keyword name ascription init none)
  | .ret keyword none => ast.addStmt (.ret keyword none)
  | .ret keyword (some value) =>
    let (ast, value) := value.addTo ast
    ast.addStmt (.ret keyword (some value))
  | .ifThen keyword condition thenBody =>
    let (ast, condition) := condition.addTo ast
    let (ast, thenBody) := thenBody.addTo ast
    ast.addStmt (.ifElse keyword condition thenBody none)
  | .ifElse keyword condition thenBody elseBody =>
    let (ast, condition) := condition.addTo ast
    let (ast, thenBody) := thenBody.addTo ast
    let (ast, elseBody) := elseBody.addTo ast
    ast.addStmt (.ifElse keyword condition thenBody (some elseBody))
  | .whileLoop keyword condition body =>
    let (ast, condition) := condition.addTo ast
    let (ast, body) := body.addTo ast
    ast.addStmt (.whileLoop keyword condition body)
  | .function keyword name parameters returnType body =>
    let (ast, body) := body.addTo ast
    ast.addStmt (.function keyword name parameters returnType body none)

def Body.addTo (ast : Ast) : Body → Ast × EmLang.Body
  | .mk openBrace statements closeBrace =>
    let (ast, ids) := addStmts ast statements
    (ast, ⟨openBrace, ids, closeBrace⟩)

def addStmts (ast : Ast) : List Stmt → Ast × List StmtId
  | [] => (ast, [])
  | x :: xs =>
    let (ast, id) := x.addTo ast
    let (ast, ids) := addStmts ast xs
    (ast, id :: ids)

end

/-- The tables of a program that consists of these statements. -/
def toAst (statements : List Stmt) : Ast :=
  let (ast, ids) := addStmts .empty statements
  { ast with topLevel := ids }

end Tree

/-- The tree of an expression, from those of its parts; an error has none. -/
def ExprKind.tree? (tree : ExprId → Option Tree.Expr) : ExprKind → Option Tree.Expr
  | .number literal value => some (.number literal value)
  | .string literal value => some (.string literal value)
  | .bool literal value => some (.bool literal value)
  | .var name _ => some (.var name)
  | .assign name equals value _ => return .assign name equals (← tree value)
  | .binary op sign left right => return .binary op sign (← tree left) (← tree right)
  | .negate sign operand => return .negate sign (← tree operand)
  | .paren leftParen inner rightParen => return .paren leftParen (← tree inner) rightParen
  | .call callee leftParen arguments rightParen _ =>
      return .call callee leftParen (← arguments.mapM tree) rightParen
  | .error _ => none

def Body.tree? (tree : StmtId → Option Tree.Stmt) (body : Body) : Option Tree.Body :=
  return .mk body.openBrace (← body.statements.mapM tree) body.closeBrace

def StmtKind.tree? (expr : ExprId → Option Tree.Expr) (stmt : StmtId → Option Tree.Stmt) :
    StmtKind → Option Tree.Stmt
  | .expr e => return .expr (← expr e)
  | .letVar keyword name ascription init _ => return .letVar keyword name ascription (← expr init)
  | .ret keyword none => some (.ret keyword none)
  | .ret keyword (some value) => return .ret keyword (some (← expr value))
  | .ifElse keyword condition thenBody none => return .ifThen keyword (← expr condition) (← thenBody.tree? stmt)
  | .ifElse keyword condition thenBody (some elseBody) =>
    return .ifElse keyword (← expr condition) (← thenBody.tree? stmt) (← elseBody.tree? stmt)
  | .whileLoop keyword condition body => return .whileLoop keyword (← expr condition) (← body.tree? stmt)
  | .function keyword name parameters returnType body _ =>
    return .function keyword name parameters returnType (← body.tree? stmt)

namespace Ast

/-- The tree of an expression; none when a node is missing, stands for an error or lies deeper than
the bound. -/
def exprTree? (ast : Ast) : Nat → ExprId → Option Tree.Expr
  | 0, _ => none
  | n + 1, e => do (← ast.expr? e).kind.tree? (ast.exprTree? n)

def stmtTree? (ast : Ast) : Nat → StmtId → Option Tree.Stmt
  | 0, _ => none
  | n + 1, id => do (← ast.stmt? id).kind.tree? (ast.exprTree? n) (ast.stmtTree? n)

def trees? (ast : Ast) : Option (List Tree.Stmt) := ast.topLevel.mapM (ast.stmtTree? ast.depth)

/-! ### What is put into tables is read off them -/

/-- The nodes of `a` are nodes of `b`. -/
structure Extends (a b : Ast) : Prop where
  exprs : ∀ e < a.expressions.size, b.expr? e = a.expr? e
  stmts : ∀ id < a.statements.size, b.stmt? id = a.stmt? id
  exprs_le : a.expressions.size ≤ b.expressions.size
  stmts_le : a.statements.size ≤ b.statements.size

namespace Extends

variable {a b c : Ast}

lemma refl (a : Ast) : a.Extends a := ⟨fun _ _ => rfl, fun _ _ => rfl, le_rfl, le_rfl⟩

lemma trans (h : a.Extends b) (h' : b.Extends c) : a.Extends c where
  exprs e he := (h'.exprs e (he.trans_le h.exprs_le)).trans (h.exprs e he)
  stmts id hid := (h'.stmts id (hid.trans_le h.stmts_le)).trans (h.stmts id hid)
  exprs_le := h.exprs_le.trans h'.exprs_le
  stmts_le := h.stmts_le.trans h'.stmts_le

lemma addExpr (a : Ast) (kind : ExprKind) : a.Extends (a.addExpr kind).1 where
  exprs _ he := (Array.getElem?_push_lt he).trans (Array.getElem?_eq_getElem he).symm
  stmts _ _ := rfl
  exprs_le := (Nat.le_succ _).trans_eq (Array.size_push _).symm
  stmts_le := le_rfl

lemma addStmt (a : Ast) (kind : StmtKind) : a.Extends (a.addStmt kind).1 where
  exprs _ _ := rfl
  stmts _ hid := (Array.getElem?_push_lt hid).trans (Array.getElem?_eq_getElem hid).symm
  exprs_le := le_rfl
  stmts_le := (Nat.le_succ _).trans_eq (Array.size_push _).symm

end Extends

lemma exprTree?_addExpr {kind : EmLang.ExprKind} {a b : Ast} (h : (a.addExpr kind).1.Extends b) (n : Nat) :
    b.exprTree? (n + 1) (a.addExpr kind).2 = kind.tree? (b.exprTree? n) := by
  have lt : a.expressions.size < (a.addExpr kind).1.expressions.size :=
    (Nat.lt_succ_self _).trans_eq (Array.size_push _).symm
  have here : b.expr? a.expressions.size = some ⟨a.expressions.size, kind, .unresolved, a.spanOfExpr kind⟩ :=
    (h.exprs _ lt).trans Array.getElem?_push_size
  rw [exprTree?, show (a.addExpr kind).2 = a.expressions.size from rfl, here]
  rfl

lemma stmtTree?_addStmt {kind : EmLang.StmtKind} {a b : Ast} (h : (a.addStmt kind).1.Extends b) (n : Nat) :
    b.stmtTree? (n + 1) (a.addStmt kind).2 = kind.tree? (b.exprTree? n) (b.stmtTree? n) := by
  have lt : a.statements.size < (a.addStmt kind).1.statements.size :=
    (Nat.lt_succ_self _).trans_eq (Array.size_push _).symm
  have here : b.stmt? a.statements.size = some ⟨a.statements.size, kind, a.spanOfStmt kind⟩ :=
    (h.stmts _ lt).trans Array.getElem?_push_size
  rw [stmtTree?, show (a.addStmt kind).2 = a.statements.size from rfl, here]
  rfl

lemma addExpr_lt (a : Ast) (kind : ExprKind) : (a.addExpr kind).2 < (a.addExpr kind).1.expressions.size :=
  (Nat.lt_succ_self _).trans_eq (Array.size_push _).symm

lemma addStmt_lt (a : Ast) (kind : StmtKind) : (a.addStmt kind).2 < (a.addStmt kind).1.statements.size :=
  (Nat.lt_succ_self _).trans_eq (Array.size_push _).symm

end Ast

namespace Tree

mutual

lemma Expr.extends_addTo (a : Ast) : ∀ x : Expr, a.Extends (x.addTo a).1
  | .number .. | .string .. | .bool .. | .var _ => .addExpr ..
  | .assign _ _ x | .negate _ x | .paren _ x _ => (x.extends_addTo a).trans (.addExpr ..)
  | .binary _ _ x y => (x.extends_addTo a).trans ((y.extends_addTo _).trans (.addExpr ..))
  | .call _ _ xs _ => (extends_addExprs a xs).trans (.addExpr ..)

lemma extends_addExprs (a : Ast) : ∀ xs : List Expr, a.Extends (addExprs a xs).1
  | [] => .refl a
  | x :: xs => (x.extends_addTo a).trans (extends_addExprs _ xs)

end

lemma Expr.addTo_lt (a : Ast) (x : Expr) : (x.addTo a).2 < (x.addTo a).1.expressions.size := by
  cases x <;> exact Ast.addExpr_lt ..

mutual

lemma Expr.exprTree?_addTo {a b : Ast} : ∀ (x : Expr) {n : Nat}, (x.addTo a).1.Extends b →
    (x.addTo a).2 < n → b.exprTree? n (x.addTo a).2 = some x
  | .number .., _ + 1, h, _ | .string .., _ + 1, h, _ | .bool .., _ + 1, h, _ | .var _, _ + 1, h,
      _ => Ast.exprTree?_addExpr h _
  | .assign _ _ x, n + 1, h, le | .negate _ x, n + 1, h, le | .paren _ x _, n + 1, h, le => by
    have part := x.exprTree?_addTo ((Ast.Extends.addExpr ..).trans h)
      ((x.addTo_lt a).trans_le (Nat.le_of_lt_succ le))
    refine (Ast.exprTree?_addExpr h n).trans ?_
    simp only [ExprKind.tree?, part]
    rfl
  | .binary _ _ x y, n + 1, h, le => by
    have extends_right := y.extends_addTo (x.addTo a).1
    have upto := Nat.le_of_lt_succ le
    have left := x.exprTree?_addTo (extends_right.trans ((Ast.Extends.addExpr ..).trans h))
      ((x.addTo_lt a).trans_le (extends_right.exprs_le.trans upto))
    have right := y.exprTree?_addTo ((Ast.Extends.addExpr ..).trans h) ((y.addTo_lt _).trans_le upto)
    refine (Ast.exprTree?_addExpr h n).trans ?_
    simp only [ExprKind.tree?, left, right]
    rfl
  | .call _ _ xs _, n + 1, h, le => by
    have parts := exprTree?_addExprs xs ((Ast.Extends.addExpr ..).trans h) (Nat.le_of_lt_succ le)
    refine (Ast.exprTree?_addExpr h n).trans ?_
    simp only [ExprKind.tree?, parts]
    rfl

lemma exprTree?_addExprs {a b : EmLang.Ast} : ∀ (xs : List Expr) {n : Nat}, (addExprs a xs).1.Extends b →
    (addExprs a xs).1.expressions.size ≤ n → (addExprs a xs).2.mapM (b.exprTree? n) = some xs
  | [], _, _, _ => rfl
  | x :: xs, n, h, le => by
    have extends_rest := extends_addExprs (x.addTo a).1 xs
    have head := x.exprTree?_addTo (extends_rest.trans h)
      ((x.addTo_lt a).trans_le (extends_rest.exprs_le.trans le))
    have tail := exprTree?_addExprs xs h le
    rw [addExprs, List.mapM_cons, head, tail]
    rfl

end

/-- The bound need only reach over the table. -/
lemma Expr.exprTree?_of_extends {a b : EmLang.Ast}
    {n : Nat} (x : Expr) (h : (x.addTo a).1.Extends b) (le : b.expressions.size ≤ n) :
    b.exprTree? n (x.addTo a).2 = some x :=
  x.exprTree?_addTo h ((x.addTo_lt a).trans_le (h.exprs_le.trans le))

mutual

lemma Stmt.extends_addTo (a : Ast) : ∀ x : Stmt, a.Extends (x.addTo a).1
  | .expr e | .letVar _ _ _ e | .ret _ (some e) => (e.extends_addTo a).trans (.addStmt ..)
  | .ret _ none => .addStmt ..
  | .ifThen _ e body | .whileLoop _ e body =>
      (e.extends_addTo a).trans ((body.extends_addTo _).trans (.addStmt ..))
  | .ifElse _ e body body' =>
    (e.extends_addTo a).trans ((body.extends_addTo _).trans ((body'.extends_addTo _).trans (.addStmt ..)))
  | .function _ _ _ _ body => (body.extends_addTo a).trans (.addStmt ..)

lemma Body.extends_addTo (a : Ast) : ∀ x : Body, a.Extends (x.addTo a).1
  | .mk _ xs _ => extends_addStmts a xs

lemma extends_addStmts (a : Ast) : ∀ xs : List Stmt, a.Extends (addStmts a xs).1
  | [] => .refl a
  | x :: xs => (x.extends_addTo a).trans (extends_addStmts _ xs)

end

lemma Stmt.addTo_lt (a : Ast) (x : Stmt) : (x.addTo a).2 < (x.addTo a).1.statements.size := by
  cases x with
  | ret _ value => cases value <;> exact Ast.addStmt_lt ..
  | _ => exact Ast.addStmt_lt ..

mutual

lemma Stmt.stmtTree?_addTo {a b : Ast} : ∀ (x : Stmt) {n : Nat}, (x.addTo a).1.Extends b →
    (x.addTo a).2 + b.expressions.size < n → b.stmtTree? n (x.addTo a).2 = some x
  | .expr e, n + 1, h, lt | .letVar _ _ _ e, n + 1, h, lt | .ret _ (some e), n + 1, h, lt => by
    have expr := e.exprTree?_of_extends ((Ast.Extends.addStmt ..).trans h)
      ((Nat.le_add_left ..).trans (Nat.le_of_lt_succ lt))
    refine (Ast.stmtTree?_addStmt h n).trans ?_
    simp only [StmtKind.tree?, expr]
    rfl
  | .ret _ none, _ + 1, h, _ => Ast.stmtTree?_addStmt h _
  | .ifThen _ e body, n + 1, h, lt | .whileLoop _ e body, n + 1, h, lt => by
    have h' := (Ast.Extends.addStmt ..).trans h
    have upto := Nat.le_of_lt_succ lt
    have expr := e.exprTree?_of_extends ((body.extends_addTo _).trans h') ((Nat.le_add_left ..).trans upto)
    have inner := body.tree?_addTo h' upto
    refine (Ast.stmtTree?_addStmt h n).trans ?_
    simp only [StmtKind.tree?, expr, inner]
    rfl
  | .ifElse _ e body body', n + 1, h, lt => by
    have h' := (Ast.Extends.addStmt ..).trans h
    have rest := body'.extends_addTo (body.addTo (e.addTo a).1).1
    have upto := Nat.le_of_lt_succ lt
    have expr := e.exprTree?_of_extends ((body.extends_addTo _).trans (rest.trans h'))
      ((Nat.le_add_left ..).trans upto)
    have inner := body.tree?_addTo (rest.trans h') ((Nat.add_le_add_right rest.stmts_le _).trans upto)
    have inner' := body'.tree?_addTo h' upto
    refine (Ast.stmtTree?_addStmt h n).trans ?_
    simp only [StmtKind.tree?, expr, inner, inner']
    rfl
  | .function _ _ _ _ body, n + 1, h, lt => by
    have inner := body.tree?_addTo ((Ast.Extends.addStmt ..).trans h) (Nat.le_of_lt_succ lt)
    refine (Ast.stmtTree?_addStmt h n).trans ?_
    simp only [StmtKind.tree?, inner]
    rfl

lemma Body.tree?_addTo {a b : EmLang.Ast} : ∀ (x : Body) {n : Nat}, (x.addTo a).1.Extends b →
    (x.addTo a).1.statements.size + b.expressions.size ≤ n → (x.addTo a).2.tree? (b.stmtTree? n) = some x
  | .mk _ xs _, n, h, le => by
    have all := stmtTree?_addStmts xs h le
    simp only [Body.addTo, EmLang.Body.tree?, all]
    rfl

lemma stmtTree?_addStmts {a b : EmLang.Ast} :
    ∀ (xs : List Stmt) {n : Nat}, (addStmts a xs).1.Extends b → (addStmts a xs).1.statements.size +
    b.expressions.size ≤ n → (addStmts a xs).2.mapM (b.stmtTree? n) = some xs
  | [], _, _, _ => rfl
  | x :: xs, n, h, le => by
    have rest := extends_addStmts (x.addTo a).1 xs
    have lt := (x.addTo_lt a).trans_le rest.stmts_le
    have head := x.stmtTree?_addTo (rest.trans h) ((Nat.add_lt_add_right lt _).trans_le le)
    have tail := stmtTree?_addStmts xs h le
    rw [addStmts, List.mapM_cons, head, tail]
    rfl

end

/-- **The tables of trees give the trees back.** -/
lemma trees?_toAst (xs : List Stmt) : (toAst xs).trees? = some xs := by
  refine stmtTree?_addStmts xs ⟨fun _ _ => rfl, fun _ _ => rfl, le_rfl, le_rfl⟩ ?_
  exact Nat.le_succ _

end Tree

end EmLang
