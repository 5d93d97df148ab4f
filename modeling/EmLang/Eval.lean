import EmLang.Resolution
import EmLang.Value
import Std.Data.ExtTreeMap

/-!
Running a program on its tree. Every call has one flat frame of variables. A division that fails is
reported and halts the program: statements are skipped from then on, but the expressions around the
division are still looked at, and what they would store is nothing.

A run has a bound on the depth of calls and repetitions. The clock is an argument: it says what each
reading in turn shows.
-/

namespace EmLang.Eval

open Text

/-- Why a run stops that a resolved program never runs into. -/
inductive Fault where
  /-- A node or function that is not in its table. -/
  | missing
  | expectedNumber (found : Value)
  | expectedBool (found : Value)
  | unbound (name : String)
  | unresolvedLet (name : String)
  | unresolvedAssignment (name : String)
  | unresolvedCall (name : String)
  | noFrame (v : VarId)
  | noArgument
  | errorExpression (literal : String)
  /-- The bound on the depth is used up. -/
  | outOfFuel
deriving DecidableEq

def Fault.message? : Fault → Option String
  | missing | outOfFuel => none
  | expectedNumber found => some (defect s!"expected a number, found {found.describe}")
  | expectedBool found => some (defect s!"expected a boolean, found {found.describe}")
  | unbound name => some (defect s!"variable `{name}` read before it was bound")
  | unresolvedLet name => some (defect s!"unresolved let binding `{name}`")
  | unresolvedAssignment name => some (defect s!"unresolved assignment to `{name}`")
  | unresolvedCall name => some (defect s!"call to unresolved function `{name}`")
  | noFrame v => some (defect s!"no active frame to bind variable {v}")
  | noArgument => some (defect "to_string called without an argument")
  | errorExpression literal => some (defect s!"error expression `{literal}` reached the evaluator")

/-- The variables of one call. -/
abbrev Frame := Std.ExtTreeMap VarId Value

/-- What does not change during a run. -/
structure Env where
  ast : Ast
  scope : Scope
  /-- What each reading of the clock shows. -/
  clock : Nat → Int64

structure State where
  /-- The value that the latest statement left behind. -/
  last : Option Value
  /-- The open calls, the innermost first. -/
  frames : List Frame
  /-- A `return` was met in the innermost call. -/
  returned : Bool
  /-- A fault was reported. -/
  halted : Bool
  /-- What was printed, in order. -/
  output : Array Value
  report : Report
  notes : Array DefaultNote
  /-- How often the clock was read. -/
  readings : Nat

/-- A run that has not begun. -/
def State.start (report : Report) : State :=
  { last := none, frames := [], returned := false, halted := false, output := #[], report,
    notes := #[], readings := 0 }

/-- Whether statements are skipped. -/
def State.stopped (s : State) : Bool := s.returned || s.halted

/-- Steps of a run: the state stays when a fault ends it. -/
abbrev Run := ExceptT Fault (StateM State)

/-! ### Parts of steps -/

def setLast (value : Option Value) : Run Unit := modify ({ · with last := value })

def isHalted : Run Bool := return (← get).halted

def expectNumber (v : Value) : Run Int64 :=
  match v.number? with
  | some n => pure n
  | none => throw (.expectedNumber v)

def expectBool (v : Value) : Run Bool :=
  match v.bool? with
  | some b => pure b
  | none => throw (.expectedBool v)

/-- Stores a value in the innermost call. -/
def bindVariable (v : VarId) (value : Value) : Run Unit := do
  match (← get).frames with
  | [] => throw (.noFrame v)
  | frame :: outer => modify ({ · with frames := frame.insert v value :: outer })

/-- The value of a variable in the innermost call. -/
def State.var? (s : State) (v : VarId) : Option Value := do (← s.frames.head?)[v]?

def openFrame : Run Unit := modify fun s => { s with frames := ∅ :: s.frames }

def closeFrame : Run Unit := modify fun s => { s with frames := s.frames.tail }

/-- Reports a fault of the program and halts it. -/
def halt (problem : Problem) (span : Span) : Run Value := do
  modify fun s => { s with report := s.report.add ⟨problem, span⟩, halted := true }
  return .void

/-- The quotient and the remainder, rounded toward zero. There is none for the divisor 0, nor where
the quotient is no 64-bit number. -/
def divide (op : BinaryOp) (left right : Int64) (span : Span) : Run Value := do
  if right = 0 then halt (.divisionByZero op.symbol) span
  else if left = Int64.minValue ∧ right = -1 then halt (.divisionOverflow op.symbol) span
  else return .number (if op = .div then left / right else left % right)

def operate (op : BinaryOp) (left right : Value) (span : Span) : Run Value := do
  match op with
  | .eq => return .bool (left = right)
  | .ne => return .bool (left ≠ right)
  | _ =>
    match op, left, right with
    | .add, .string l, .string r => return .string (l ++ r)
    | _, _, _ =>
      let l ← expectNumber left
      let r ← expectNumber right
      match op with
      | .add => return .number (l + r)
      | .sub => return .number (l - r)
      | .mul => return .number (l * r)
      | .lt => return .bool (l < r)
      | .gt => return .bool (r < l)
      | .le => return .bool (l ≤ r)
      | .ge => return .bool (r ≤ l)
      | _ => divide op l r span

def callBuiltin (env : Env) (builtin : Builtin) (arguments : List Value) : Run Value := do
  match builtin with
  | .print =>
    modify fun s => { s with output := s.output ++ arguments }
    return .void
  | .tick =>
    let s ← get
    set { s with readings := s.readings + 1 }
    return .number (env.clock s.readings)
  | .toText =>
    match arguments with
    | [] => throw .noArgument
    | value :: _ => return .string value.text

/-- The value of a function that ended without a `return`, with a note on it. -/
def defaultReturn (function : Function) : Run Value := do
  match DefaultNote.of? function.name function.returnType with
  | some note => modify fun s => { s with notes := s.notes.push note }
  | none => pure ()
  return Value.defaultOf function.returnType

/-- Evaluates arguments from left to right, until a fault halts the program. -/
def collect (evaluate : ExprId → Run (Option Value)) : List ExprId → Run (Option (List Value))
  | [] => return some []
  | e :: es => do
    let value ← evaluate e
    if ← isHalted then return none
    else
      let values ← collect evaluate es
      return values.map (value.getD .void :: ·)

/-! ### Runs -/

mutual

/-- The value of an expression; none when a fault below it halted the program. -/
def expression (env : Env) : Nat → ExprId → Run (Option Value)
  | 0, _ => throw .outOfFuel
  | n + 1, e => do
    match env.ast.expr? e with
    | none => throw .missing
    | some node =>
      match node.kind with
      | .number _ value => return some (.number value)
      | .string _ value => return some (.string value)
      | .bool _ value => return some (.bool value)
      | .var name bound =>
        match bound.bind (← get).var? with
        | some value => return some value
        | none => throw (.unbound name.literal)
      | .assign name _ e bound =>
        let value := (← expression env n e).getD .void
        match bound with
        | some v => bindVariable v value
        | none => throw (.unresolvedAssignment name.literal)
        return some value
      | .binary op _ left right =>
        let l := (← expression env n left).getD .void
        let r := (← expression env n right).getD .void
        if ← isHalted then return none else some <$> operate op l r node.span
      | .negate _ operand =>
        let value := (← expression env n operand).getD .void
        if ← isHalted then return none else return some (.number (-(← expectNumber value)))
      | .paren _ inner _ => expression env n inner
      | .call callee _ arguments _ target =>
        match ← collect (expression env n) arguments with
        | none => return none
        | some values =>
          match target with
          | .function f => some <$> call env n f values
          | .builtin b => some <$> callBuiltin env b values
          | .unresolved => throw (.unresolvedCall callee.literal)
      | .error place => throw (.errorExpression place.literal)

/-- Calls a function with a frame of its own. -/
def call (env : Env) : Nat → FunId → List Value → Run Value
  | 0, _, _ => throw .outOfFuel
  | n + 1, f, arguments => do
    match env.scope.function? f with
    | none => throw .missing
    | some function =>
      openFrame
      (function.parameters.zip arguments).forM fun (parameter, argument) => bindVariable parameter argument
      block env n function.body
      closeFrame
      let s ← get
      let value ← if s.returned then pure (s.last.getD .void) else defaultReturn function
      modify ({ · with returned := false })
      return value

/-- Runs statements in their order, until one returns or halts. -/
def block (env : Env) : Nat → List StmtId → Run Unit
  | 0, _ => throw .outOfFuel
  | n + 1, ids => ids.forM (statement env n)

/-- Runs a statement, unless statements are skipped. -/
def statement (env : Env) : Nat → StmtId → Run Unit
  | 0, _ => throw .outOfFuel
  | n + 1, id => do
    if (← get).stopped then return
    match env.ast.stmt? id with
    | none => throw .missing
    | some node =>
      match node.kind with
      | .expr e => setLast (← expression env n e)
      | .letVar _ name _ init bound =>
        let value := (← expression env n init).getD .void
        setLast none
        match bound with
        | some v => bindVariable v value
        | none => throw (.unresolvedLet name.literal)
      | .ret _ value =>
        let result ← match value with
          | some e => pure ((← expression env n e).getD .void)
          | none => pure Value.void
        setLast (some result)
        modify ({ · with returned := true })
      | .ifElse _ condition thenBody elseBody =>
        let value := (← expression env n condition).getD .void
        setLast none
        if ← isHalted then return
        if ← expectBool value then block env n thenBody.statements
        else match elseBody with
          | some body => block env n body.statements
          | none => pure ()
      | .whileLoop _ condition body => loop env n condition body.statements
      | .function .. => pure ()

/-- Runs statements again and again, as long as the condition holds. -/
def loop (env : Env) : Nat → ExprId → List StmtId → Run Unit
  | 0, _, _ => throw .outOfFuel
  | n + 1, condition, ids => do
    let value := (← expression env n condition).getD .void
    setLast none
    if ← isHalted then return
    if ← expectBool value then
      block env n ids
      if (← get).stopped then return
      loop env n condition ids

end

/-- Runs the main function; its value is 0, and nothing when a fault halted it. -/
def main (env : Env) (fuel : Nat) : Run Value := do
  match env.scope.function? Scope.main with
  | none => throw .missing
  | some function =>
    openFrame
    block env fuel function.body
    closeFrame
    return if (← get).halted then .void else .number 0

/-- Everything printed, each value on a line of its own. -/
def State.printed (s : State) : String :=
  s.output.foldl (fun text value => text ++ value.text ++ "\n") ""

end Eval

namespace Program

/-- Runs the main function of a program. The second part tells what it printed and reported. -/
def run (p : Program) (clock : Nat → Int64) (fuel : Nat) : Except Eval.Fault Value × Eval.State :=
  (Eval.main ⟨p.ast, p.scope, clock⟩ fuel).run.run (.start p.report)

/-- Runs the statements outside all bodies with no frame open. -/
def runBare (p : Program) (clock : Nat → Int64) (fuel : Nat) : Except Eval.Fault Unit × Eval.State :=
  (Eval.block ⟨p.ast, p.scope, clock⟩ fuel p.ast.topLevel).run.run (.start p.report)

end Program

end EmLang
