import EmLang.Ast.Operator
import EmLang.Builtin
import EmLang.Defect

/-!
Programs as two tables of nodes. Statements and expressions refer to each other by position, and
every node keeps the spans of its own tokens. A node's span covers its tokens and its child
expressions; what its names refer to is filled in later.
-/

namespace EmLang

open Text

abbrev ExprId := Nat
abbrev StmtId := Nat
abbrev VarId := Nat
/-- Position of a function in its table. -/
abbrev FunId := Nat

/-- What a call refers to. -/
inductive CallTarget where
  | unresolved
  | function (f : FunId)
  | builtin (b : Builtin)
deriving DecidableEq, Inhabited

inductive ExprKind where
  | number (literal : Span) (value : Int64)
  | string (literal : Span) (value : String)
  | bool (literal : Span) (value : Bool)
  | var (name : Span) (bound : Option VarId)
  | assign (name equals : Span) (value : ExprId) (bound : Option VarId)
  | binary (op : BinaryOp) (sign : Span) (left right : ExprId)
  | negate (sign : Span) (operand : ExprId)
  | paren (leftParen : Span) (inner : ExprId) (rightParen : Span)
  | call (callee leftParen : Span) (arguments : List ExprId) (rightParen : Span) (target : CallTarget)
  | error (place : Span)
deriving DecidableEq, Inhabited

structure Expr where
  id : ExprId
  kind : ExprKind
  ty : Ty
  span : Span
deriving DecidableEq, Inhabited

/-- The type written after a name. -/
structure Ascription where
  colon : Span
  typeName : Span
deriving DecidableEq, Inhabited

structure Parameter where
  name : Span
  ascription : Ascription
deriving DecidableEq, Inhabited

/-- The type written after a parameter list. -/
structure ReturnType where
  arrow : Span
  typeName : Span
deriving DecidableEq, Inhabited

/-- Statements between braces. -/
structure Body where
  openBrace : Span
  statements : List StmtId
  closeBrace : Span
deriving DecidableEq, Inhabited

inductive StmtKind where
  | expr (e : ExprId)
  | letVar (keyword name : Span) (ascription : Option Ascription) (init : ExprId) (bound : Option VarId)
  | ret (keyword : Span) (value : Option ExprId)
  | ifElse (keyword : Span) (condition : ExprId) (thenBody : Body) (elseBody : Option Body)
  | whileLoop (keyword : Span) (condition : ExprId) (body : Body)
  | function (keyword name : Span) (parameters : List Parameter) (returnType : Option ReturnType)
      (body : Body) (declared : Option FunId)
deriving DecidableEq, Inhabited

structure Stmt where
  id : StmtId
  kind : StmtKind
  span : Span
deriving DecidableEq, Inhabited

/-- A program: its nodes, and the statements that stand in no body. -/
structure Ast where
  statements : Array Stmt
  expressions : Array Expr
  topLevel : List StmtId
deriving DecidableEq, Inhabited

def ExprKind.children : ExprKind → List ExprId
  | .number .. | .string .. | .bool .. | .var .. | .error _ => []
  | .assign _ _ value _ => [value]
  | .binary _ _ left right => [left, right]
  | .negate _ operand => [operand]
  | .paren _ inner _ => [inner]
  | .call _ _ arguments _ _ => arguments

/-- The child expressions that a statement's span covers. -/
def StmtKind.spanned : StmtKind → List ExprId
  | .expr e => [e]
  | .letVar _ _ _ init _ => [init]
  | .ret _ value => value.toList
  | .ifElse .. | .whileLoop .. | .function .. => []

/-- The child expressions of a statement that stand in none of its bodies. -/
def StmtKind.expressions : StmtKind → List ExprId
  | .expr e => [e]
  | .letVar _ _ _ init _ => [init]
  | .ret _ value => value.toList
  | .ifElse _ condition _ _ | .whileLoop _ condition _ => [condition]
  | .function .. => []

def StmtKind.bodies : StmtKind → List Body
  | .expr _ | .letVar .. | .ret .. => []
  | .ifElse _ _ thenBody elseBody => thenBody :: elseBody.toList
  | .whileLoop _ _ body | .function _ _ _ _ body _ => [body]

/-! ### Nodes that say what their names refer to -/

def ExprKind.withVariable (v : VarId) : ExprKind → ExprKind
  | .var name _ => .var name (some v)
  | .assign name equals value _ => .assign name equals value (some v)
  | kind => kind

def ExprKind.withTarget (target : CallTarget) : ExprKind → ExprKind
  | .call callee leftParen arguments rightParen _ => .call callee leftParen arguments rightParen target
  | kind => kind

def StmtKind.withVariable (v : VarId) : StmtKind → StmtKind
  | .letVar keyword name ascription init _ => .letVar keyword name ascription init (some v)
  | kind => kind

def StmtKind.withFunction (f : FunId) : StmtKind → StmtKind
  | .function keyword name parameters returnType body _ =>
    .function keyword name parameters returnType body (some f)
  | kind => kind

namespace Ast

def empty : Ast := ⟨#[], #[], []⟩

def expr? (ast : Ast) (e : ExprId) : Option Expr := ast.expressions[e]?

def stmt? (ast : Ast) (s : StmtId) : Option Stmt := ast.statements[s]?

/-- A bound on the length of the paths from node to child node that visit no node twice. -/
def depth (ast : Ast) : Nat := ast.statements.size + ast.expressions.size + 1

/-! ### Adding nodes -/

def exprSpan (ast : Ast) (e : ExprId) : Span := ((ast.expr? e).map Expr.span).getD ⟨0, 0, ""⟩

/-- The span of an expression node over its children. -/
def spanOfExpr (ast : Ast) : ExprKind → Span
  | .number literal _ | .string literal _ | .bool literal _ => literal
  | .var name _ => name
  | .assign name equals value _ => .merge [name, equals, ast.exprSpan value]
  | .binary _ sign left right => .merge [ast.exprSpan left, sign, ast.exprSpan right]
  | .negate sign operand => sign.upTo (ast.exprSpan operand)
  | .paren leftParen inner rightParen => .merge [leftParen, ast.exprSpan inner, rightParen]
  | .call callee leftParen arguments rightParen _ =>
    .merge (callee :: leftParen :: rightParen :: arguments.map ast.exprSpan)
  | .error place => place

/-- The span of a statement node over its children. -/
def spanOfStmt (ast : Ast) : StmtKind → Span
  | .expr e => ast.exprSpan e
  | .letVar keyword _ _ init _ => keyword.upTo (ast.exprSpan init)
  | .ret keyword none => keyword
  | .ret keyword (some value) => keyword.upTo (ast.exprSpan value)
  | .ifElse keyword _ thenBody elseBody => keyword.upTo (elseBody.getD thenBody).closeBrace
  | .whileLoop keyword _ body => keyword.upTo body.closeBrace
  | .function keyword _ _ _ body _ => keyword.upTo body.closeBrace

/-- Adds an expression at the end of its table. -/
def addExpr (ast : Ast) (kind : ExprKind) : Ast × ExprId :=
  let id := ast.expressions.size
  ({ ast with expressions := ast.expressions.push ⟨id, kind, .unresolved, ast.spanOfExpr kind⟩ }, id)

/-- Adds a statement at the end of its table. -/
def addStmt (ast : Ast) (kind : StmtKind) : Ast × StmtId :=
  let id := ast.statements.size
  ({ ast with statements := ast.statements.push ⟨id, kind, ast.spanOfStmt kind⟩ }, id)

/-- Adds an expression if its children are in the table. -/
def addExpr? (ast : Ast) (kind : ExprKind) : Option (Ast × ExprId) :=
  if kind.children.all (· < ast.expressions.size) then some (ast.addExpr kind) else none

/-- Adds a statement if the expressions that its span covers are in the table. -/
def addStmt? (ast : Ast) (kind : StmtKind) : Option (Ast × StmtId) :=
  if kind.spanned.all (· < ast.expressions.size) then some (ast.addStmt kind) else none

/-- Adds a statement to those that stand in no body. -/
def addTopLevel (ast : Ast) (s : StmtId) : Ast := { ast with topLevel := ast.topLevel ++ [s] }

/-! ### Filling in what names refer to -/

/-- Why a node cannot be filled in. -/
inductive Misfit where
  /-- There is no such node. -/
  | missing
  /-- An expression that is neither a variable nor an assignment has no variable. -/
  | noVariable
  /-- A statement that is no `let` has no variable. -/
  | noBinding
  /-- An expression that is no call has no callee. -/
  | noCallee
  /-- A statement that is no declaration has no function. -/
  | noFunction
deriving DecidableEq

def Misfit.message? : Misfit → Option String
  | missing => none
  | noVariable => some (misuse "Unable to set variable of non-variable expression")
  | noBinding => some (misuse "Unable to set variable of non-let statement")
  | noCallee => some (misuse "Unable to set function of non-call expression")
  | noFunction => some (misuse "Unable to set function of non-function statement")

def modifyExpr (ast : Ast) (e : ExprId) (f : Expr → Expr) : Ast :=
  { ast with expressions := ast.expressions.modify e f }

def modifyStmt (ast : Ast) (s : StmtId) (f : Stmt → Stmt) : Ast :=
  { ast with statements := ast.statements.modify s f }

def setType (ast : Ast) (e : ExprId) (ty : Ty) : Ast := ast.modifyExpr e ({ · with ty })

/-- Says which variable a variable or an assignment means. -/
def setVariable (ast : Ast) (e : ExprId) (v : VarId) : Ast :=
  ast.modifyExpr e fun node => { node with kind := node.kind.withVariable v }

/-- Says what a call refers to. -/
def setTarget (ast : Ast) (e : ExprId) (target : CallTarget) : Ast :=
  ast.modifyExpr e fun node => { node with kind := node.kind.withTarget target }

/-- Says which variable a `let` declares. -/
def setBinding (ast : Ast) (s : StmtId) (v : VarId) : Ast :=
  ast.modifyStmt s fun node => { node with kind := node.kind.withVariable v }

/-- Says which function a declaration declares. -/
def setFunction (ast : Ast) (s : StmtId) (f : FunId) : Ast :=
  ast.modifyStmt s fun node => { node with kind := node.kind.withFunction f }

/-- Gives an expression a type, if there is such an expression. -/
def setType? (ast : Ast) (e : ExprId) (ty : Ty) : Except Misfit Ast :=
  match ast.expr? e with
  | none => .error .missing
  | some _ => .ok (ast.setType e ty)

/-- Says which variable an expression means, if it is one that has a variable. -/
def setVariable? (ast : Ast) (e : ExprId) (v : VarId) : Except Misfit Ast :=
  match (ast.expr? e).map Expr.kind with
  | none => .error .missing
  | some (.var ..) | some (.assign ..) => .ok (ast.setVariable e v)
  | some _ => .error .noVariable

/-- Says what an expression refers to, if it is a call. -/
def setTarget? (ast : Ast) (e : ExprId) (target : CallTarget) : Except Misfit Ast :=
  match (ast.expr? e).map Expr.kind with
  | none => .error .missing
  | some (.call ..) => .ok (ast.setTarget e target)
  | some _ => .error .noCallee

/-- Says which variable a statement declares, if it is a `let`. -/
def setBinding? (ast : Ast) (s : StmtId) (v : VarId) : Except Misfit Ast :=
  match (ast.stmt? s).map Stmt.kind with
  | none => .error .missing
  | some (.letVar ..) => .ok (ast.setBinding s v)
  | some _ => .error .noBinding

/-- Says which function a statement declares, if it declares one. -/
def setFunction? (ast : Ast) (s : StmtId) (f : FunId) : Except Misfit Ast :=
  match (ast.stmt? s).map Stmt.kind with
  | none => .error .missing
  | some (.function ..) => .ok (ast.setFunction s f)
  | some _ => .error .noFunction

end Ast

end EmLang
