import EmLang.Ast

/-!
Walking a program in source order: every node before its children, and the children from left to
right.
-/

namespace EmLang.Ast

open Text

/-- A node met on a walk. -/
inductive Visit where
  | stmt (node : Stmt)
  | expr (node : Expr)

/-- The nodes of an expression; none when a child is missing or lies deeper than the bound. -/
def walkExpr (ast : Ast) : Nat → ExprId → Option (List Visit)
  | 0, _ => none
  | n + 1, e => do
    let node ← ast.expr? e
    let below ← node.kind.children.mapM (ast.walkExpr n)
    return .expr node :: below.flatten

/-- The nodes of a statement. -/
def walkStmt (ast : Ast) : Nat → StmtId → Option (List Visit)
  | 0, _ => none
  | n + 1, s => do
    let node ← ast.stmt? s
    let expressions ← node.kind.expressions.mapM (ast.walkExpr n)
    let statements ← (node.kind.bodies.flatMap Body.statements).mapM (ast.walkStmt n)
    return .stmt node :: (expressions.flatten ++ statements.flatten)

/-- The nodes of a whole program. -/
def walk (ast : Ast) : Option (List Visit) :=
  return (← ast.topLevel.mapM (ast.walkStmt ast.depth)).flatten

/-- A line about a node that declares or means something itself. -/
def Visit.line? : Visit → Option String
  | .stmt node =>
    match node.kind with
    | .function _ name _ _ _ _ => some s!"fx {name.literal}"
    | .letVar _ name _ _ _ => some s!"let {name.literal}"
    | _ => none
  | .expr node =>
    match node.kind with
    | .number _ value => some s!"number {value}"
    | .string _ value => some s!"string {value}"
    | .bool _ value => some s!"bool {value}"
    | .var name _ => some s!"var {name.literal}"
    | .negate _ _ => some "unary -"
    | .error place => some s!"error {place.literal}"
    | _ => none

/-- The lines about all nodes of a program. -/
def trace (ast : Ast) : Option (List String) := return (← ast.walk).filterMap Visit.line?

end EmLang.Ast
