import EmLang.Ast.Parser
import EmLang.Scope
import EmLang.Token.Lexer

/-!
Finding out what the names of a program mean and which types its expressions have. All functions are
declared before any body is looked at. A name means the latest variable of that name in the
innermost open body; bodies of other functions are never looked into. A `let` declares its variable
after its value.

A reported fault gives the type `Ty.error`, which fits everywhere.
-/

namespace EmLang.Resolution

open Text

structure State where
  ast : Ast
  scope : Scope
  /-- The variables of the open bodies, the innermost body and in it the latest variable first. -/
  locals : List (List VarId)
  /-- The function whose body is looked at. -/
  function : FunId
  report : Report

abbrev Resolve := StateM State

def complain (problem : Problem) (span : Span) : Resolve Unit :=
  modify fun s => { s with report := s.report.add ⟨problem, span⟩ }

/-! ### Types -/

/-- Checks that a type fits where another is expected, and goes on with the expected one. -/
def expectType (expected actual : Ty) (span : Span) : Resolve Ty := do
  unless actual.assignableTo expected do complain (.typeMismatch expected actual) span
  return expected

/-- Checks that an expression of this type yields a value. -/
def expectValue (ty : Ty) (span : Span) : Resolve Unit := do
  if ty = .void then complain .voidValue span

def typeNamed (name : Span) : Resolve Ty := do
  match Ty.ofName? name.literal with
  | some ty => return ty
  | none =>
    complain .undeclaredType name
    return .error

/-- An operand's type and where it stands. -/
structure Operand where
  ty : Ty
  span : Span

/-- The type of an operator expression. Addition joins strings when its left operand is one;
equality needs equal types, and all else works on numbers. -/
def binaryType (op : BinaryOp) (left right : Operand) (span : Span) : Resolve Ty := do
  if left.ty = .error ∨ right.ty = .error then
    return if op.isComparison then .bool else .error
  else match op with
    | .add | .sub | .mul | .div | .rem =>
      if op = .add ∧ left.ty = .string then
        expectType .string right.ty right.span
      else
        let _ ← expectType .int left.ty left.span
        expectType .int right.ty right.span
    | .eq | .ne =>
      expectValue left.ty left.span
      unless left.ty = right.ty do complain (.typeMismatch left.ty right.ty) span
      return .bool
    | .lt | .gt | .le | .ge =>
      let _ ← expectType .int left.ty left.span
      let _ ← expectType .int right.ty right.span
      return .bool

/-! ### Names -/

/-- The variable that a name means. -/
def State.lookup? (s : State) (name : String) : Option VarId :=
  s.locals.flatten.find? fun v => (s.scope.var? v).any (·.name = name)

/-- Declares a variable in the innermost open body. -/
def declare (name : String) (ty : Ty) : Resolve VarId :=
  modifyGet fun s =>
    let (scope, v) := s.scope.declareVariable name ty s.function false
    (v, { s with
      scope
      locals := match s.locals with
        | [] => [[v]]
        | vs :: outer => (v :: vs) :: outer })

/-- Opens a body with these variables in it, the latest first, and closes it afterwards. -/
def inBody (opened : List VarId) (act : Resolve Unit) : Resolve Unit := do
  modify fun s => { s with locals := opened :: s.locals }
  act
  modify fun s => { s with locals := s.locals.tail }

def setType (e : ExprId) (ty : Ty) : Resolve Ty := do
  modify fun s => { s with ast := s.ast.setType e ty }
  return ty

def setVariable (e : ExprId) (v : VarId) : Resolve Unit :=
  modify fun s => { s with ast := s.ast.setVariable e v }

def setTarget (e : ExprId) (target : CallTarget) : Resolve Unit :=
  modify fun s => { s with ast := s.ast.setTarget e target }

def spanOf (e : ExprId) : Resolve Span := return (← get).ast.exprSpan e

/-! ### Expressions and statements -/

/-- The type of an expression. It is filled in at the expression and all below it, with what their
names mean. -/
def expression : Nat → ExprId → Resolve Ty
  | 0, _ => return .unresolved
  | n + 1, e => do
    match (← get).ast.expr? e with
    | none => return .unresolved
    | some node =>
      match node.kind with
      | .number .. => setType e .int
      | .string .. => setType e .string
      | .bool .. => setType e .bool
      | .var name _ =>
        match (← get).lookup? name.literal with
        | some v =>
          setVariable e v
          setType e ((← get).scope.typeOf v)
        | none =>
          complain (.undeclaredVariable name.literal) node.span
          setType e .error
      | .assign name _ value _ =>
        let actual ← expression n value
        match (← get).lookup? name.literal with
        | some v =>
          setVariable e v
          let ty ← expectType ((← get).scope.typeOf v) actual (← spanOf value)
          setType e ty
        | none =>
          complain (.undeclaredVariable name.literal) name
          setType e .error
      | .binary op _ left right =>
        let leftTy ← expression n left
        let rightTy ← expression n right
        let ty ← binaryType op ⟨leftTy, ← spanOf left⟩ ⟨rightTy, ← spanOf right⟩ node.span
        setType e ty
      | .negate _ operand =>
        let actual ← expression n operand
        let ty ← expectType .int actual (← spanOf operand)
        setType e ty
      | .paren _ inner _ =>
        let ty ← expression n inner
        setType e ty
      | .call callee _ arguments _ _ =>
        match Builtin.ofName? callee.literal with
        | some builtin =>
          setTarget e (.builtin builtin)
          let types ← arguments.mapM (expression n)
          if arguments.length ≠ builtin.parameterCount then
            complain (.argumentCount builtin.parameterCount arguments.length) callee
          else match builtin, arguments, types with
            | .print, argument :: _, ty :: _ => expectValue ty (← spanOf argument)
            | .toText, argument :: _, ty :: _ => let _ ← expectType .int ty (← spanOf argument)
            | _, _, _ => pure ()
          setType e builtin.returnType
        | none =>
          let scope := (← get).scope
          match (scope.lookup? callee.literal).filter (· ≠ Scope.main) with
          | some f =>
            setTarget e (.function f)
            let function := (scope.function? f).getD default
            if function.parameters.length ≠ arguments.length then
              complain (.argumentCount function.parameters.length arguments.length) callee
            arguments.zipIdx.forM fun (argument, position) => do
              let actual ← expression n argument
              match function.parameters[position]? with
              | some parameter =>
                let _ ← expectType (scope.typeOf parameter) actual (← spanOf argument)
              | none => pure ()
            setType e function.returnType
          | none =>
            complain (.undeclaredFunction callee.literal) callee
            let _ ← arguments.mapM (expression n)
            setType e .error
      | .error _ => return node.ty

def isReturn (s : State) (id : StmtId) : Bool :=
  match (s.ast.stmt? id).map Stmt.kind with
  | some (.ret ..) => true
  | _ => false

mutual

/-- Looks at a statement and all in it. Only declarations outside all bodies declare a function. -/
def statement : Nat → StmtId → Resolve Unit
  | 0, _ => pure ()
  | n + 1, id => do
    match (← get).ast.stmt? id with
    | none => pure ()
    | some node =>
      match node.kind with
      | .expr e => let _ ← expression n e
      | .letVar _ name ascription init _ =>
        let expected ← ascription.mapM fun a => typeNamed a.typeName
        let actual ← expression n init
        let span ← spanOf init
        expectValue actual span
        let ty ← match expected with
          | some expected => expectType expected actual span
          | none => pure actual
        let v ← declare name.literal ty
        modify fun s => { s with ast := s.ast.setBinding id v }
      | .ret keyword value =>
        let s ← get
        if s.function = Scope.main then complain .returnOutsideFunction keyword
        else
          let expected := ((s.scope.function? s.function).map (·.returnType)).getD .unresolved
          match value with
          | some value =>
            let actual ← expression n value
            let _ ← expectType expected actual (← spanOf value)
          | none => let _ ← expectType expected .void keyword
      | .ifElse _ condition thenBody elseBody =>
        let actual ← expression n condition
        let _ ← expectType .bool actual (← spanOf condition)
        inBody [] (statements n thenBody.statements)
        match elseBody with
        | some b => inBody [] (statements n b.statements)
        | none => pure ()
      | .whileLoop _ condition body =>
        let actual ← expression n condition
        let _ ← expectType .bool actual (← spanOf condition)
        inBody [] (statements n body.statements)
      | .function .. => pure ()

/-- Looks at statements in their order. The one that follows a `return` is reported as
unreachable. -/
def statements : Nat → List StmtId → Resolve Unit
  | 0, _ => pure ()
  | n + 1, ids => do
    let _ ← ids.foldlM (fun afterReturn id => do
      let s ← get
      if afterReturn then
        complain .unreachable (((s.ast.stmt? id).map Stmt.span).getD ⟨0, 0, ""⟩)
      statement n id
      return isReturn s id) false

end

/-! ### Programs -/

/-- A function that was declared, with the parts of its declaration. -/
structure Declaration where
  function : FunId
  parameters : List Parameter
  returnType : Option ReturnType
  body : Body

/-- Declares a function under a name that neither another function nor a built-in operation has. -/
def declareFunction (id : StmtId) (name : Span) : Resolve (Option FunId) := do
  let s ← get
  let created := match Builtin.ofName? name.literal with
    | some _ => none
    | none => (s.scope.createFunction name.literal id).toOption
  match created with
  | some (scope, f) =>
    set { s with scope, ast := s.ast.setFunction id f }
    return some f
  | none =>
    complain .functionRedeclared name
    return none

/-- Declares the function of a statement, or adds the statement to the main function. -/
def declareStatement (id : StmtId) : Resolve (Option Declaration) := do
  match ((← get).ast.stmt? id).map Stmt.kind with
  | some (.function _ name parameters returnType body _) =>
    return (← declareFunction id name).map fun f => ⟨f, parameters, returnType, body⟩
  | _ =>
    modify fun s =>
      { s with scope := s.scope.modifyFunction Scope.main fun f => { f with body := f.body ++ [id] } }
    return none

/-- Gives a function its return type, body and parameters. -/
def declareSignature (d : Declaration) : Resolve Unit := do
  let ty ← match d.returnType with
    | some type => typeNamed type.typeName
    | none => pure .void
  modify fun s =>
    { s with scope := s.scope.modifyFunction d.function fun f =>
        { f with returnType := ty, body := d.body.statements } }
  d.parameters.forM fun parameter => do
    let ty ← typeNamed parameter.ascription.typeName
    modify fun s =>
      { s with scope := (s.scope.declareVariable parameter.name.literal ty d.function true).1 }

def functionBody (depth : Nat) (f : FunId) (body : List StmtId) : Resolve Unit := do
  modify fun s => { s with function := f }
  let parameters := (((← get).scope.function? f).map (·.parameters)).getD []
  inBody parameters.reverse (statements depth body)

def program : Resolve Unit := do
  let ast := (← get).ast
  let declarations := (← ast.topLevel.mapM declareStatement).filterMap id
  declarations.forM declareSignature
  let mainBody := (((← get).scope.function? Scope.main).map (·.body)).getD []
  functionBody (2 * ast.depth) Scope.main mainBody
  declarations.forM fun d => functionBody (2 * ast.depth) d.function d.body.statements

end Resolution

/-- A program whose names are resolved, with the warnings about it. -/
structure Program where
  ast : Ast
  scope : Scope
  report : Report

namespace Program

/-- Resolves a program that was read, with the diagnostics of reading it. -/
def resolve (ast : Ast) (report : Report) : Program :=
  let (_, s) := Resolution.program.run ⟨ast, .initial, [], Scope.main, report⟩
  ⟨s.ast, s.scope, s.report⟩

/-- Reads a source text and resolves nothing. All statements outside bodies make up the main
function, and what reading reports is forgotten. -/
def unresolved (text : List Char) : Program :=
  let (ast, _) := Parser.parse (Token.tokenize text)
  ⟨ast, Scope.initial.modifyFunction Scope.main ({ · with body := ast.topLevel }), .empty⟩

/-- Reads and resolves a source text; any error in it leaves only the report. -/
def compile (text : List Char) : Except Report Program :=
  let (ast, report) := Parser.parse (Token.tokenize text)
  if report.hasErrors then .error report
  else
    let program := resolve ast report
    if program.report.hasErrors then .error program.report else .ok program

end Program

end EmLang
