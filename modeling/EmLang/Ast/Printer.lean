import EmLang.Ast
import EmLang.Text.Quoted
import EmLang.Text.Terminal

/-!
Programs as text: one statement a line, bodies indented, and the type of its value written after the
name that a `let` declares.
-/

namespace EmLang.Ast

open Text Terminal

/-- Whether the parts of a text have colours. -/
structure Style where
  coloured : Bool

namespace Style

def paint (style : Style) (colour text : String) : String :=
  if style.coloured then colour ++ text else text

def number (style : Style) : String → String := style.paint cyan
def text (style : Style) : String → String := style.paint lightWhite
def keyword (style : Style) : String → String := style.paint magenta
def name (style : Style) : String → String := style.paint green
def bool (style : Style) : String → String := style.paint yellow
def type (style : Style) : String → String := style.paint lightBlue
def string (style : Style) : String → String := style.paint lightGreen

def lineEnd (style : Style) : String := (if style.coloured then usualColour else "") ++ "\n"

/-- Texts with commas between them. -/
def commas (style : Style) (parts : List String) : String := (style.text ", ").intercalate parts

def parameter (style : Style) (p : Parameter) : String :=
  style.name p.name.literal ++ style.text ": " ++ style.type p.ascription.typeName.literal

def returnType (style : Style) : Option ReturnType → String
  | none => ""
  | some type => style.text "-> " ++ style.type type.typeName.literal ++ style.text " "

end Style

/-- The text of an expression; none when a child is missing or lies deeper than the bound. -/
def printExpr (ast : Ast) (style : Style) : Nat → ExprId → Option String
  | 0, _ => none
  | n + 1, e => do
    let print := ast.printExpr style n
    match (← ast.expr? e).kind with
    | .number _ value => return style.number (toString value)
    | .string _ value => return style.string (quoted value)
    | .bool _ value => return style.bool (toString value)
    | .var name _ => return style.name name.literal
    | .assign name _ value _ => return style.name name.literal ++ style.text " = " ++ (← print value)
    | .binary op _ left right =>
      return (← print left) ++ style.text s!" {op.symbol} " ++ (← print right)
    | .negate _ operand => return style.text "-" ++ (← print operand)
    | .paren _ inner _ => return style.text "(" ++ (← print inner) ++ style.text ")"
    | .call callee _ arguments _ _ =>
      return style.name callee.literal ++ style.text "("
        ++ style.commas (← arguments.mapM print) ++ style.text ")"
    | .error place => return style.text s!"<error: {place.literal}>"

def padding (indent : Nat) : String := String.join (List.replicate indent "    ")

/-- The text of a statement, from the texts of its expressions and bodies. -/
def stmtText (ast : Ast) (style : Style) (print : ExprId → Option String) (body : Body → Option String) :
    StmtKind → Option String
  | .expr e => print e
  | .letVar _ name _ init _ => do
    return style.keyword "let" ++ " " ++ style.name name.literal ++ style.text ": "
      ++ style.type (← ast.expr? init).ty.name ++ style.text " = " ++ (← print init)
  | .ret _ none => style.keyword "return"
  | .ret _ (some value) => do return style.keyword "return" ++ " " ++ (← print value)
  | .ifElse _ condition thenBody none => do
    return style.keyword "if" ++ " " ++ (← print condition) ++ " " ++ (← body thenBody)
  | .ifElse _ condition thenBody (some elseBody) => do
    return style.keyword "if" ++ " " ++ (← print condition) ++ " " ++ (← body thenBody)
      ++ " " ++ style.keyword "else" ++ " " ++ (← body elseBody)
  | .whileLoop _ condition loopBody => do
    return style.keyword "while" ++ " " ++ (← print condition) ++ " " ++ (← body loopBody)
  | .function _ name parameters returnType functionBody _ => do
    return style.keyword "fx" ++ " " ++ style.name name.literal ++ style.text "("
      ++ style.commas (parameters.map style.parameter) ++ style.text ") "
      ++ style.returnType returnType ++ (← body functionBody)

/-- The lines of a statement. -/
def printStmt (ast : Ast) (style : Style) : Nat → Nat → StmtId → Option String
  | 0, _, _ => none
  | n + 1, indent, s => do
    let body (b : Body) : Option String := do
      let lines ← b.statements.mapM (ast.printStmt style n (indent + 1))
      return style.text "\x7b\n" ++ String.join lines ++ padding indent ++ style.text "\x7d"
    let text ← ast.stmtText style (ast.printExpr style n) body (← ast.stmt? s).kind
    return padding indent ++ text ++ style.lineEnd

/-- The text of a whole program. -/
def print (ast : Ast) (style : Style) : Option String :=
  return String.join (← ast.topLevel.mapM (ast.printStmt style ast.depth 0))

end EmLang.Ast
