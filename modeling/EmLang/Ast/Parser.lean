import EmLang.Ast
import EmLang.Diagnostic

/-!
Reading a program from its tokens. The reader looks at the current token and the one after it, never
moves past the end mark, and goes on after a report: a token that does not fit is reported and taken
all the same, and where no expression begins an error node takes its place.

Every reader has a bound on the depth of calls as its first argument; `parse` gives more than a text
of that many tokens can use.
-/

namespace EmLang.Parser

open Text

structure State where
  current : Token
  /-- The tokens after the current one. -/
  rest : List Token
  ast : Ast
  report : Report
  /-- How many function bodies are open. -/
  depth : Nat

abbrev Parse := StateM State

/-! ### Tokens -/

def currentKind : Parse TokenKind := return (← get).current.kind

def nextKind : Parse TokenKind := do
  let s ← get
  return (s.rest.headD s.current).kind

def State.advance (s : State) : State :=
  match s.rest with
  | [] => s
  | t :: ts => { s with current := t, rest := ts }

/-- Takes the current token; the end mark stays. -/
def take : Parse Token := do
  let s ← get
  unless s.current.kind = .eof do set s.advance
  return s.current

def complain (problem : Problem) (span : Span) : Parse Unit :=
  modify fun s => { s with report := s.report.add ⟨problem, span⟩ }

/-- Takes the current token, which should be of the given kind. -/
def expect (kind : TokenKind) : Parse Token := do
  let token ← take
  unless token.kind = kind do complain (.unexpectedToken kind token.kind) token.span
  return token

def accept? (kind : TokenKind) : Parse (Option Token) := do
  if (← currentKind) = kind then return some (← take) else return none

/-! ### Nodes -/

def addExpr (kind : ExprKind) : Parse ExprId :=
  modifyGet fun s => let (ast, e) := s.ast.addExpr kind; (e, { s with ast })

def addStmt (kind : StmtKind) : Parse StmtId :=
  modifyGet fun s => let (ast, id) := s.ast.addStmt kind; (id, { s with ast })

/-- An error node in place of an expression. -/
def errorExpr (problem : Problem) (span : Span) : Parse ExprId := do
  complain problem span
  addExpr (.error span)

/-- The error node for a token that begins no expression. -/
def noExpression (token : Token) : Parse ExprId :=
  errorExpr (.expectedExpression token.kind) token.span

/-! ### Expressions -/

mutual

/-- An assignment or an operator expression. A second `=` has no target that it could assign to: it
is reported, and what follows it is read and left out. -/
def expression : Nat → Parse ExprId
  | 0 => do noExpression (← get).current
  | n + 1 => do
    if (← currentKind) = .identifier ∧ (← nextKind) = .equals then
      let name ← take
      let equals ← take
      let value ← expression n
      addExpr (.assign name.span equals.span value none)
    else
      let e ← binary n 0
      if (← currentKind) = .equals then
        complain .assignmentTarget ((← get).ast.exprSpan e)
        let _ ← take
        let _ ← expression n
      return e

/-- An operand and the operators that bind at least as tightly as `least`. -/
def binary : Nat → Nat → Parse ExprId
  | 0, _ => do noExpression (← get).current
  | n + 1, least => do
    let left ← unary n
    operators n least left

/-- Joins `left` with the operands to its right, operators of equal precedence from left to
right. -/
def operators : Nat → Nat → ExprId → Parse ExprId
  | 0, _, left => return left
  | n + 1, least, left => do
    match BinaryOp.ofToken? (← currentKind) with
    | none => return left
    | some op =>
      if op.precedence < least then return left
      else
        let sign ← take
        let right ← binary n (op.precedence + 1)
        let e ← addExpr (.binary op sign.span left right)
        operators n least e

/-- A primary expression behind any number of minus signs. -/
def unary : Nat → Parse ExprId
  | 0 => do noExpression (← get).current
  | n + 1 => do
    if (← currentKind) = .minus then
      let sign ← take
      let operand ← unary n
      addExpr (.negate sign.span operand)
    else primary n

/-- A literal, a variable, a call or an expression in parentheses. -/
def primary : Nat → Parse ExprId
  | 0 => do noExpression (← get).current
  | n + 1 => do
    let token ← take
    match token.kind with
    | .number value => addExpr (.number token.span value)
    | .string value => addExpr (.string token.span value)
    | .trueWord => addExpr (.bool token.span true)
    | .falseWord => addExpr (.bool token.span false)
    | .leftParen =>
      let inner ← expression n
      let rightParen ← expect .rightParen
      addExpr (.paren token.span inner rightParen.span)
    | .identifier =>
      if (← currentKind) = .leftParen then
        let leftParen ← expect .leftParen
        let args ← arguments n
        let rightParen ← expect .rightParen
        addExpr (.call token.span leftParen.span args rightParen.span .unresolved)
      else addExpr (.var token.span none)
    | .numberOutOfRange => errorExpr .integerOutOfRange token.span
    | .bad => errorExpr .badCharacter token.span
    | _ => noExpression token

/-- Expressions up to a closing parenthesis, with commas between them and possibly after the
last. -/
def arguments : Nat → Parse (List ExprId)
  | 0 => return []
  | n + 1 => do
    if (← currentKind) = .rightParen ∨ (← currentKind) = .eof then return []
    else
      let e ← expression n
      unless (← currentKind) = .rightParen do let _ ← expect .comma
      let es ← arguments n
      return e :: es

end

/-! ### Statements -/

def ascription : Parse Ascription := do
  let colon ← expect .colon
  let typeName ← expect .identifier
  return ⟨colon.span, typeName.span⟩

/-- Parameters up to a closing parenthesis, with commas between them and possibly after the last. -/
def parameters : Nat → Parse (List Parameter)
  | 0 => return []
  | n + 1 => do
    if (← currentKind) = .rightParen ∨ (← currentKind) = .eof then return []
    else
      let name ← expect .identifier
      let type ← ascription
      unless (← currentKind) = .rightParen do let _ ← expect .comma
      let ps ← parameters n
      return ⟨name.span, type⟩ :: ps

def returnType : Parse (Option ReturnType) := do
  match ← accept? .arrow with
  | none => return none
  | some arrow =>
    let typeName ← expect .identifier
    return some ⟨arrow.span, typeName.span⟩

def letStatement (n : Nat) : Parse StmtId := do
  let keyword ← expect .letWord
  let name ← expect .identifier
  let type ← if (← currentKind) = .colon then some <$> ascription else pure none
  let _ ← expect .equals
  let init ← expression n
  addStmt (.letVar keyword.span name.span type init none)

/-- A `return`, which has no value before a semicolon, a closing brace or the end. -/
def returnStatement (n : Nat) : Parse StmtId := do
  let keyword ← expect .returnWord
  let kind ← currentKind
  let value ←
    if kind = .semicolon ∨ kind = .closeBrace ∨ kind = .eof then pure none else some <$> expression n
  addStmt (.ret keyword.span value)

mutual

/-- A statement and the semicolon after it, if there is one. -/
def statement : Nat → Parse StmtId
  | 0 => do
    let e ← noExpression (← get).current
    addStmt (.expr e)
  | n + 1 => do
    let id ← match ← currentKind with
      | .letWord => letStatement n
      | .returnWord => returnStatement n
      | .ifWord =>
        let keyword ← expect .ifWord
        let condition ← expression n
        let thenBody ← body n
        let elseBody ← match ← accept? .elseWord with
          | some _ => some <$> body n
          | none => pure none
        addStmt (.ifElse keyword.span condition thenBody elseBody)
      | .whileWord =>
        let keyword ← expect .whileWord
        let condition ← expression n
        let loopBody ← body n
        addStmt (.whileLoop keyword.span condition loopBody)
      | .functionWord =>
        let keyword ← expect .functionWord
        let name ← expect .identifier
        if 0 < (← get).depth then complain .nestedFunction name.span
        let _ ← expect .leftParen
        let params ← parameters n
        let _ ← expect .rightParen
        let type ← returnType
        modify fun s => { s with depth := s.depth + 1 }
        let functionBody ← body n
        modify fun s => { s with depth := s.depth - 1 }
        addStmt (.function keyword.span name.span params type functionBody none)
      | _ =>
        let e ← expression n
        addStmt (.expr e)
    let _ ← accept? .semicolon
    return id

/-- Statements between braces. -/
def body : Nat → Parse Body
  | 0 => do
    let span := (← get).current.span
    return ⟨span, [], span⟩
  | n + 1 => do
    let openBrace ← expect .openBrace
    let ids ← statements n true
    let closeBrace ← expect .closeBrace
    return ⟨openBrace.span, ids, closeBrace.span⟩

/-- Statements up to the end, and inside braces at most up to the closing one. -/
def statements : Nat → Bool → Parse (List StmtId)
  | 0, _ => return []
  | n + 1, inBody => do
    let kind ← currentKind
    if kind = .eof ∨ (inBody ∧ kind = .closeBrace) then return []
    else
      let id ← statement n
      let ids ← statements n inBody
      return id :: ids

end

/-- A depth that readers of `n` tokens do not reach. -/
def depthFor (n : Nat) : Nat := 8 * (n + 1)

/-- The program that a list of tokens with an end mark stands for, and what was wrong with it. -/
def parse (tokens : List Token) : Ast × Report :=
  let start : State :=
    { current := tokens.headD ⟨.eof, ⟨0, 0, ""⟩⟩
      rest := tokens.tail
      ast := .empty
      report := .empty
      depth := 0 }
  let (ids, s) := (statements (depthFor tokens.length) false).run start
  ({ s.ast with topLevel := ids }, s.report)

end EmLang.Parser
