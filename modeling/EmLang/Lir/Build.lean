import EmLang.Lir.Routine
import EmLang.Lir.Text
import EmLang.Resolution

/-!
Building blocks from a resolved program. Every function becomes an entry block and an exit block
that only returns; a `return` moves its value to the return slot and jumps to the exit. Statements
after a `return` are left out.

The value of an expression is an operand: literals and variables stand for themselves, and every
other value gets a temporary. Of two operands the left one is copied to a temporary before the right
one is built, so that an assignment on the right does not change it. Branches, loops, comparisons
and joined strings have no form here; each is reported, and building goes on to find the others.
-/

namespace EmLang.Lir.Build

open Text

/-- Why building stops that does not happen on a resolved program. -/
inductive Fault where
  /-- A node, variable or function that is not in its table. -/
  | missing
  | noFunction
  | noBlock (instruction : Instr)
  | strayReturn
deriving DecidableEq

def Fault.message? : Fault → Option String
  | missing => none
  | noFunction => some (defect "no function is being built")
  | noBlock instruction => some (defect s!"no basic block to emit `{instruction.text}` into")
  | strayReturn => some (defect "return outside of a function body")

/-- The note that a function of a type with values got a default return. -/
structure Note where
  function : String
  ty : Ty
deriving DecidableEq, Inhabited

def Note.message (note : Note) : String :=
  s!"Function '{note.function}' with return type {note.ty.name} lacks an explicit return, "
    ++ "adding a default return"

structure Env where
  ast : Ast
  scope : Scope

structure State where
  lir : Lir
  report : Report
  notes : Array Note
  /-- The function that is being built. -/
  function : Option Nat
  /-- The block that instructions are added to. -/
  block : Option BlockId
  exit : Option BlockId
  nextSlot : Slot
  /-- A `return` ended the function. -/
  terminated : Bool
  /-- How many parts could not be built. -/
  failures : Nat

def State.start (report : Report) : State :=
  { lir := .empty, report, notes := #[], function := none, block := none, exit := none, nextSlot := 0,
    terminated := false, failures := 0 }

/-- Steps of building: the state stays when a fault ends it. -/
abbrev Builder := ExceptT Fault (StateM State)

/-! ### Instructions -/

/-- Adds an instruction to the current block. -/
def emit (instruction : Instr) : Builder Unit := do
  match (← get).block with
  | none => throw (.noBlock instruction)
  | some b =>
    modify fun s =>
      { s with lir := s.lir.modifyBlock b fun block =>
          { block with instructions := block.instructions ++ [instruction] } }

/-- Moves an operand, unless it is in its place already. -/
def emitMove (destination source : Operand) : Builder Unit := do
  unless destination = source do emit (.binary .mov destination source)

def newTemporary : Builder Slot := do
  let s ← get
  set { s with nextSlot := s.nextSlot + 1 }
  emit (.unary .declare (.slot s.nextSlot))
  return s.nextSlot

def isTemporary (slot : Slot) : Builder Bool := do
  let s ← get
  match s.function.bind (s.lir.functions[·]?) with
  | none => throw .noFunction
  | some f => return f.isTemporary slot

/-- A temporary that holds a value: the one it is in, or a fresh one. -/
def inTemporary (value : Operand) : Builder Slot := do
  match value with
  | .slot slot =>
    if ← isTemporary slot then return slot
    else
      let copy ← newTemporary
      emitMove (.slot copy) value
      return copy
  | _ =>
    let copy ← newTemporary
    emitMove (.slot copy) value
    return copy

def internString (text : String) : Builder Operand :=
  modifyGet fun s => let (lir, index) := s.lir.intern text; (.str index, { s with lir })

/-! ### Reports -/

def fail (problem : Problem) (span : Span) : Builder Unit :=
  modify fun s => { s with report := s.report.add ⟨problem, span⟩, failures := s.failures + 1 }

def failUnresolved (what : String) (span : Span) : Builder Unit :=
  fail (.other .error "unresolved in code generation"
    s!"Expected {what} for `{span.literal}` during code generation") span

/-! ### Expressions -/

def slotOf (env : Env) (v : VarId) : Builder Slot :=
  match env.scope.var? v with
  | some variableInfo => return variableInfo.slot
  | none => throw .missing

def exprOf (env : Env) (e : ExprId) : Builder Expr :=
  match env.ast.expr? e with
  | some node => return node
  | none => throw .missing

/-- Whether building an expression adds no instructions and writes no variable. -/
def isPlainRead : ExprKind → Bool
  | .number .. | .string .. | .bool .. | .var .. => true
  | _ => false

/-- A routine as a callee: its symbol and its return type, and that it is external. -/
def external (r : Routine) : String × Ty × Bool := (r.symbol, r.returnType, true)

/-- The symbol and the return type of what a call refers to, and whether it is external. -/
def calleeOf (env : Env) (target : CallTarget) (arguments : List ExprId) :
    Builder (Option (String × Ty × Bool)) := do
  match target with
  | .function f =>
    match env.scope.function? f with
    | some function => return some (function.name, function.returnType, false)
    | none => throw .missing
  | .builtin .print =>
    let ty ← arguments.head?.mapM fun e => return (← exprOf env e).ty
    return some (external (.printing ty))
  | .builtin .tick => return some (external .tick)
  | .builtin .toText => return some (external .intToString)
  | .unresolved => return none

/-- The instruction for an operator on numbers. -/
def opcodeOf : BinaryOp → Opcode
  | .sub => .sub
  | .mul => .imul
  | .div => .idiv
  | .rem => .irem
  | _ => .add

/-- The value of an expression that has to have one. A part that was not reported yet is reported
here, and 0 takes its place. -/
def value (env : Env) (build : ExprId → Builder (Option Operand)) (e : ExprId) : Builder Operand := do
  let before := (← get).failures
  match ← build e with
  | some operand => return operand
  | none =>
    if (← get).failures = before then failUnresolved "a value" (← exprOf env e).span
    return .imm 0

/-- The arguments of a call from left to right. A variable is copied if a later argument could write
it. -/
def buildArguments (env : Env) (build : ExprId → Builder (Option Operand)) :
    List ExprId → Builder (List Operand)
  | [] => return []
  | e :: later => do
    let operand ← value env build e
    let kinds ← later.mapM fun e => return (← exprOf env e).kind
    let operand ← match operand with
      | .slot slot =>
        if kinds.all isPlainRead then pure operand
        else if ← isTemporary slot then pure operand
        else
          let copy ← newTemporary
          emitMove (.slot copy) operand
          pure (.slot copy)
      | _ => pure operand
    let operands ← buildArguments env build later
    return operand :: operands

def expression (env : Env) : Nat → ExprId → Builder (Option Operand)
  | 0, _ => throw .missing
  | n + 1, e => do
    let node ← exprOf env e
    match node.kind with
    | .number _ number => return some (.imm number)
    | .string _ text => some <$> internString text
    | .bool _ b => return some (.imm (if b then 1 else 0))
    | .var _ bound =>
      match bound with
      | some v => return some (.slot (← slotOf env v))
      | none =>
        failUnresolved "a declared variable" node.span
        return none
    | .assign _ _ inner bound =>
      let operand ← value env (expression env n) inner
      match bound with
      | some v =>
        let slot ← slotOf env v
        emitMove (.slot slot) operand
        return some (.slot slot)
      | none =>
        failUnresolved "a declared variable" node.span
        return none
    | .binary op _ left right =>
      if op.isComparison then
        fail (.unsupported s!"comparison `{op.symbol}`") node.span
        return some (.imm 0)
      else if (← exprOf env left).ty = .string then
        fail (.unsupported "string concatenation") node.span
        return some (.imm 0)
      else
        let destination ← inTemporary (← value env (expression env n) left)
        let operand ← value env (expression env n) right
        emit (.binary (opcodeOf op) (.slot destination) operand)
        return some (.slot destination)
    | .negate _ inner =>
      let destination ← inTemporary (← value env (expression env n) inner)
      emit (.unary .neg (.slot destination))
      return some (.slot destination)
    | .paren _ inner _ => expression env n inner
    | .call _ _ arguments _ target =>
      let operands ← buildArguments env (expression env n) arguments
      match ← calleeOf env target arguments with
      | none =>
        failUnresolved "a resolved callee" node.span
        return none
      | some (symbol, returnType, isExternal) =>
        emit (.unary .call (.callee symbol operands returnType isExternal))
        match (← get).function with
        | some f =>
          modify fun s => { s with lir := s.lir.modifyFunction f ({ · with isLeaf := false }) }
        | none => pure ()
        if returnType.hasValue then
          let result ← newTemporary
          emit (.binary .mov (.slot result) .returnSlot)
          return some (.slot result)
        else return none
    | .error place =>
      failUnresolved "a well-formed expression" place
      return none

/-! ### Statements and functions -/

/-- Builds a statement, unless a `return` ended the function. -/
def statement (env : Env) (id : StmtId) : Builder Unit := do
  if (← get).terminated then return
  let build := expression env env.ast.depth
  match env.ast.stmt? id with
  | none => throw .missing
  | some node =>
    match node.kind with
    | .expr e => let _ ← build e
    | .letVar _ _ _ init bound =>
      let operand ← value env build init
      match bound with
      | some v =>
        let slot ← slotOf env v
        emit (.unary .declare (.slot slot))
        emitMove (.slot slot) operand
      | none => failUnresolved "a declared variable" node.span
    | .ret _ result =>
      match result with
      | some e => emitMove .returnSlot (← value env build e)
      | none => pure ()
      match (← get).exit with
      | some exit => emit (.unary .jmp (.block exit))
      | none => throw .strayReturn
      modify ({ · with terminated := true })
    | .ifElse .. => fail (.unsupported "`if` statement") node.span
    | .whileLoop .. => fail (.unsupported "`while` loop") node.span
    | .function .. => pure ()

/-- The value that a function of this type returns when no `return` says otherwise. -/
def defaultValue (ty : Ty) : Builder Operand :=
  if ty = .string then internString "" else return .imm 0

/-- Opens a function with an entry block, and makes its exit block. -/
def openFunction (function : EmLang.Function) : Builder (Nat × BlockId) := do
  let s ← get
  let index := s.lir.functions.size
  let entry := s.lir.blocks.size
  let exit := entry + 1
  let declared := function.locals.length
  let opened : Function :=
    { name := function.name
      returnType := function.returnType
      blocks := [entry]
      parameterCount := function.parameters.length
      declaredCount := declared
      slotCount := declared
      isLeaf := true }
  let exitBlock := { Block.new index with instructions := [.nullary .ret] }
  set { s with
    lir := { s.lir with
      functions := s.lir.functions.push opened
      blocks := (s.lir.blocks.push (Block.new index)).push exitBlock }
    function := some index
    block := some entry
    exit := some exit
    nextSlot := declared
    terminated := false }
  return (index, exit)

/-- Ends a function that has no `return` at its end. The main function returns 0, any other that
returns a value a default one. -/
def endFunction (function : EmLang.Function) (exit : BlockId) : Builder Unit := do
  if (← get).terminated then return
  if function.name = "main" then emit (.binary .mov .returnSlot (.imm 0))
  else if function.returnType.hasValue then
    modify fun s => { s with notes := s.notes.push ⟨function.name, function.returnType⟩ }
    emit (.binary .mov .returnSlot (← defaultValue function.returnType))
  emit (.unary .jmp (.block exit))

def buildFunction (env : Env) (function : EmLang.Function) : Builder Unit := do
  let (index, exit) ← openFunction function
  function.body.forM (statement env)
  endFunction function exit
  modify fun s =>
    { s with lir := s.lir.modifyFunction index fun f =>
        { f with blocks := f.blocks ++ [exit], slotCount := s.nextSlot } }

/-- Why a program has no blocks. -/
inductive Error where
  | fault (f : Fault)
  /-- So many parts of it could not be built. -/
  | failed (count : Nat)
deriving DecidableEq

def Error.message? : Error → Option String
  | fault f => f.message?
  | failed count => some s!"code generation failed with {count} error(s)"

/-- What became of a program, with all that was reported and noted on the way. -/
structure Result where
  lir : Except Error Lir
  report : Report
  notes : Array Note

def Result.of : Except Fault Unit × State → Result
  | (.error f, s) => ⟨.error (.fault f), s.report, s.notes⟩
  | (.ok _, s) =>
    ⟨if 0 < s.failures then .error (.failed s.failures) else .ok s.lir, s.report, s.notes⟩

end Lir.Build

namespace Program

def build (p : Program) : Lir.Build.Result :=
  .of <| (p.scope.functions.toList.forM (Lir.Build.buildFunction ⟨p.ast, p.scope⟩)).run.run
    (.start p.report)

/-- Builds the statements outside all bodies with no function open. -/
def buildBare (p : Program) : Lir.Build.Result :=
  .of <| (p.ast.topLevel.forM (Lir.Build.statement ⟨p.ast, p.scope⟩)).run.run (.start p.report)

end Program

end EmLang
