import EmLang.Eval
import EmLang.Proofs.Forest

/-!
Lexical scoping by names. This is how programs are meant to run: each call has a stack of scopes,
each scope binds names to values, and every time a body of `if`, `else` or `while` is run it has a
scope of its own. What names were found to refer to is not looked at, and functions are found by
their names as well.

All that has to do with neither names nor calls is taken from the evaluator.
-/

namespace EmLang.Lexical

open Text Eval

/-- The bindings of a scope, the latest first. -/
abbrev Bindings := List (String × Value)

/-- The open scopes of a call, the innermost first. -/
abbrev Scopes := List Bindings

/-- The value of a name: that of its latest binding in the innermost scope that has one. -/
def lookup? (scopes : Scopes) (name : String) : Option Value := scopes.findSome? (·.lookup name)

/-- Gives the latest binding of the name another value. -/
def rebind (name : String) (value : Value) : Bindings → Bindings
  | [] => []
  | (other, old) :: bindings =>
    if name = other then (other, value) :: bindings else (other, old) :: rebind name value bindings

/-- Gives the latest binding of the name in the innermost scope that has one another value. -/
def assign? (name : String) (value : Value) : Scopes → Option Scopes
  | [] => none
  | bindings :: outer =>
    if (bindings.lookup name).isSome then some (rebind name value bindings :: outer)
    else (assign? name value outer).map (bindings :: ·)

/-! ### Declarations -/

/-- A function as it is written. -/
structure Declaration where
  name : String
  parameters : List String
  returnType : Ty
  body : List StmtId

def declaration? : StmtKind → Option Declaration
  | .function _ name parameters returnType body _ => some {
      name := name.literal
      parameters := parameters.map (·.name.literal)
      returnType := match returnType with
        | some written => (Ty.ofName? written.typeName.literal).getD .error
        | none => .void
      body := body.statements }
  | _ => none

/-- The function of this name. -/
def findDeclaration (ast : Ast) (name : String) : Option Declaration :=
  (ast.topLevel.filterMap fun id => (ast.stmt? id).bind (declaration? ·.kind)).find? (·.name = name)

/-! ### Parts of steps -/

structure Env where
  ast : Ast
  clock : Nat → Int64

structure State where
  /-- The open calls, the innermost first. -/
  calls : List Scopes
  /-- All but the variables. No frame is ever open here. -/
  core : Eval.State

abbrev Run := ExceptT Fault (StateM State)

/-- A step that neither reads nor changes variables. -/
def rest {α : Type} (act : Eval.Run α) : Run α := ExceptT.mk do
  let s ← get
  let (result, core) := act.run.run s.core
  set { s with core }
  return result

def read (name : String) : Run Value := do
  match (← get).calls.head?.bind (lookup? · name) with
  | some value => return value
  | none => throw (.unbound name)

def assign (name : String) (value : Value) : Run Unit := do
  let s ← get
  match s.calls with
  | [] => throw (.unresolvedAssignment name)
  | scopes :: callers =>
    match assign? name value scopes with
    | some scopes => set { s with calls := scopes :: callers }
    | none => throw (.unresolvedAssignment name)

def declare (name : String) (value : Value) : Run Unit := do
  let s ← get
  match s.calls with
  | (bindings :: outer) :: callers => set { s with calls := (((name, value) :: bindings) :: outer) :: callers }
  | _ => throw (.unresolvedLet name)

def inScope (act : Run Unit) : Run Unit := do
  modify fun s => { s with calls := s.calls.modifyHead ([] :: ·) }
  act
  modify fun s => { s with calls := s.calls.modifyHead List.tail }

def openCall : Run Unit := modify fun s => { s with calls := [[]] :: s.calls }

def closeCall : Run Unit := modify fun s => { s with calls := s.calls.tail }

def collect (evaluate : ExprId → Run (Option Value)) : List ExprId → Run (Option (List Value))
  | [] => return some []
  | e :: es => do
    let value ← evaluate e
    if ← rest isHalted then return none
    else
      let values ← collect evaluate es
      return values.map (value.getD .void :: ·)

/-- The value of a call whose statements have been run. -/
def result (d : Declaration) : Run Value := rest do
  let s ← get
  let value ← if s.returned then pure (s.last.getD .void)
    else defaultReturn ⟨d.name, [], [], d.body, d.returnType, none⟩
  modify ({ · with returned := false })
  return value

/-! ### Runs -/

mutual

def expression (env : Env) : Nat → ExprId → Run (Option Value)
  | 0, _ => throw .outOfFuel
  | n + 1, e => do
    match env.ast.expr? e with
    | none => throw .missing
    | some node =>
      match node.kind with
      | .number _ value => return some (.number value)
      | .string _ value => return some (.string value)
      | .bool _ value => return some (.bool value)
      | .var name _ => some <$> read name.literal
      | .assign name _ e _ =>
        let value := (← expression env n e).getD .void
        assign name.literal value
        return some value
      | .binary op _ left right =>
        let l := (← expression env n left).getD .void
        let r := (← expression env n right).getD .void
        if ← rest isHalted then return none else some <$> rest (operate op l r node.span)
      | .negate _ operand =>
        let value := (← expression env n operand).getD .void
        if ← rest isHalted then return none else return some (.number (-(← rest (expectNumber value))))
      | .paren _ inner _ => expression env n inner
      | .call callee _ arguments _ _ =>
        match ← collect (expression env n) arguments with
        | none => return none
        | some values =>
          match Builtin.ofName? callee.literal with
          | some b => some <$> rest (callBuiltin ⟨env.ast, .initial, env.clock⟩ b values)
          | none => some <$> call env n callee.literal values
      | .error place => throw (.errorExpression place.literal)

/-- Calls the function of this name with no scope but one for its parameters and the statements of
its body. -/
def call (env : Env) : Nat → String → List Value → Run Value
  | 0, _, _ => throw .outOfFuel
  | n + 1, name, arguments => do
    match findDeclaration env.ast name with
    | none => throw (.unresolvedCall name)
    | some d =>
      openCall
      (d.parameters.zip arguments).forM fun (parameter, argument) => declare parameter argument
      block env n d.body
      closeCall
      result d

def block (env : Env) : Nat → List StmtId → Run Unit
  | 0, _ => throw .outOfFuel
  | n + 1, ids => ids.forM (statement env n)

def statement (env : Env) : Nat → StmtId → Run Unit
  | 0, _ => throw .outOfFuel
  | n + 1, id => do
    if (← get).core.stopped then return
    match env.ast.stmt? id with
    | none => throw .missing
    | some node =>
      match node.kind with
      | .expr e =>
        let value ← expression env n e
        rest (setLast value)
      | .letVar _ name _ init _ =>
        let value := (← expression env n init).getD .void
        rest (setLast none)
        declare name.literal value
      | .ret _ value =>
        let result ← match value with
          | some e => pure ((← expression env n e).getD .void)
          | none => pure Value.void
        rest (setLast (some result))
        rest (modify ({ · with returned := true }))
      | .ifElse _ condition thenBody elseBody =>
        let value := (← expression env n condition).getD .void
        rest (setLast none)
        if ← rest isHalted then return
        if ← rest (expectBool value) then inScope (block env n thenBody.statements)
        else match elseBody with
          | some body => inScope (block env n body.statements)
          | none => pure ()
      | .whileLoop _ condition body => loop env n condition body.statements
      | .function .. => pure ()

def loop (env : Env) : Nat → ExprId → List StmtId → Run Unit
  | 0, _, _ => throw .outOfFuel
  | n + 1, condition, ids => do
    let value := (← expression env n condition).getD .void
    rest (setLast none)
    if ← rest isHalted then return
    if ← rest (expectBool value) then
      inScope (block env n ids)
      if (← get).core.stopped then return
      loop env n condition ids

end

/-- Runs the statements outside all functions. -/
def main (env : Env) (fuel : Nat) : Run Value := do
  openCall
  block env fuel (env.ast.topLevel.filter (!declares env.ast ·))
  closeCall
  return if (← get).core.halted then .void else .number 0

end Lexical

/-- Runs a program with nothing but its tree. -/
def Ast.runByName (ast : Ast) (report : Report) (clock : Nat → Int64) (fuel : Nat) :
    Except Eval.Fault Value × Lexical.State :=
  (Lexical.main ⟨ast, clock⟩ fuel).run.run ⟨[], .start report⟩

end EmLang
