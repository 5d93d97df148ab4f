import EmLang.Eval
import EmLang.Proofs.Effects
import Mathlib.Logic.Relation

/-!
The moments of a run. At a moment the run sets out on a task in a state; the tasks it sets out on
while it is busy with one, each in the state reached by then, are what `Begins` relates. All moments
of a run follow from its first.
-/

namespace EmLang.Eval

/-- What a run is busy with. -/
inductive Task where
  | expression (e : ExprId)
  | call (f : FunId) (arguments : List Value)
  | block (ids : List StmtId)
  | statement (id : StmtId)
  | loop (condition : ExprId) (ids : List StmtId)

/-- Whether the task is about statements, not about an expression or a call. -/
def Task.isBody : Task → Bool
  | .block _ | .statement _ | .loop .. => true
  | .expression _ | .call .. => false

/-- A task, the bound on the depth that is left for it, and the state in which it is set out on. -/
structure Moment where
  fuel : Nat
  task : Task
  state : State

/-- Does the task. What has no value gives none. -/
def Task.run (env : Env) (n : Nat) : Task → Run (Option Value)
  | .expression e => Eval.expression env n e
  | .call f arguments => some <$> Eval.call env n f arguments
  | .block ids => (fun _ => none) <$> Eval.block env n ids
  | .statement id => (fun _ => none) <$> Eval.statement env n id
  | .loop condition ids => (fun _ => none) <$> Eval.loop env n condition ids

/-- What comes of the task, and the state then. -/
def Moment.outcome (env : Env) (m : Moment) : Except Fault (Option Value) × State :=
  (m.task.run env m.fuel).run.run m.state

/-- The steps end properly, with this value and state. -/
def Gives {α : Type} (act : Run α) (s : State) (a : α) (t : State) : Prop := act.run.run s = (.ok a, t)

/-- Opens a frame for a call and stores the arguments in it. -/
def enter (parameters : List VarId) (arguments : List Value) : Run Unit := do
  openFrame
  (parameters.zip arguments).forM fun (parameter, argument) => bindVariable parameter argument

/-- Closes the frame of a call, and gives its value. -/
def leave (function : Function) : Run Value := do
  closeFrame
  let s ← get
  let value ← if s.returned then pure (s.last.getD .void) else defaultReturn function
  modify ({ · with returned := false })
  return value

section

variable (env : Env) {function : Function} {g : FunId}

section

variable (found : env.scope.function? g = some function) (n : Nat) (arguments : List Value)

include found n arguments

lemma call_eq : call env (n + 1) g arguments = enter function.parameters arguments >>= fun _ =>
    block env n function.body >>= fun _ => leave function := by
  simp only [call, found, enter, leave, bind_assoc]

lemma ends_call (s : State) (Q : Value → State → Prop) (F : Fault → State → Prop) :
    Ends (call env (n + 1) g arguments) s Q F ↔ Ends (enter function.parameters arguments) s (fun _ t =>
      Ends (block env n function.body) t (fun _ u => Ends (leave function) u Q F) F) F := by
  simp only [call_eq env found, ends_bind]

end

/-- While the run is busy with the first task, it sets out on the second. -/
inductive Begins : Moment → Moment → Prop where
  | assigned {n : Nat} {s : State} {e : ExprId}
      {node : Expr} {name equals : Text.Span} {value : ExprId} {bound : Option VarId}
      (here : env.ast.expr? e = some node) (kind : node.kind = .assign name equals value bound) :
      Begins ⟨n + 1, .expression e, s⟩ ⟨n, .expression value, s⟩
  | left {n : Nat} {s : State} {e : ExprId} {node : Expr} {op : BinaryOp} {sign : Text.Span}
      {left right : ExprId} (here : env.ast.expr? e = some node) (kind : node.kind =
        .binary op sign left right) : Begins ⟨n + 1, .expression e, s⟩ ⟨n, .expression left, s⟩
  | right {n : Nat} {s t : State} {e : ExprId}
      {node : Expr} {op : BinaryOp} {sign : Text.Span} {left right : ExprId} {value : Option Value}
      (here : env.ast.expr? e = some node) (kind : node.kind = .binary op sign left right)
      (first : Gives (expression env n left) s value t) :
      Begins ⟨n + 1, .expression e, s⟩ ⟨n, .expression right, t⟩
  | negated {n : Nat} {s : State} {e : ExprId} {node : Expr} {sign : Text.Span} {operand : ExprId}
      (here : env.ast.expr? e = some node) (kind : node.kind = .negate sign operand) :
      Begins ⟨n + 1, .expression e, s⟩ ⟨n, .expression operand, s⟩
  | inner {n : Nat} {s : State} {e : ExprId} {node : Expr} {leftParen rightParen : Text.Span} {inner : ExprId}
      (here : env.ast.expr? e = some node) (kind : node.kind = .paren leftParen inner rightParen) :
      Begins ⟨n + 1, .expression e, s⟩ ⟨n, .expression inner, s⟩
  | argument {n : Nat} {s t : State} {e : ExprId} {node : Expr} {callee leftParen rightParen : Text.Span}
      {before after : List ExprId} {argument : ExprId} {target : CallTarget} {values : List Value}
      (here : env.ast.expr? e = some node)
      (kind : node.kind = .call callee leftParen (before ++ argument :: after) rightParen target)
      (first : Gives (collect (expression env n) before) s (some values) t) :
      Begins ⟨n + 1, .expression e, s⟩ ⟨n, .expression argument, t⟩
  | called {n : Nat} {s t : State} {e : ExprId} {node : Expr} {callee leftParen rightParen : Text.Span}
      {arguments : List ExprId} {f : FunId} {values : List Value} (here : env.ast.expr? e = some node)
      (kind : node.kind = .call callee leftParen arguments rightParen (.function f))
      (first : Gives (collect (expression env n) arguments) s (some values) t) :
      Begins ⟨n + 1, .expression e, s⟩ ⟨n, .call f values, t⟩
  | body {n : Nat} {s t : State} {f : FunId} {function : Function} {arguments : List Value}
      (found : env.scope.function? f = some function)
      (entered : Gives (enter function.parameters arguments) s () t) :
      Begins ⟨n + 1, .call f arguments, s⟩ ⟨n, .block function.body, t⟩
  | listed {n : Nat} {s t : State} {before after : List StmtId} {id : StmtId}
      (first : Gives (before.forM (statement env n)) s ⟨⟩ t) :
      Begins ⟨n + 1, .block (before ++ id :: after), s⟩ ⟨n, .statement id, t⟩
  | evaluated {n : Nat} {s : State} {id : StmtId} {node : Stmt} {e : ExprId} (running : s.stopped = false)
      (here : env.ast.stmt? id = some node)
      (own : e ∈ node.kind.spanned) :
      Begins ⟨n + 1, .statement id, s⟩ ⟨n, .expression e, s⟩
  | condition {n : Nat} {s : State}
      {id : StmtId} {node : Stmt} {keyword : Text.Span} {condition : ExprId} {thenBody : Body}
      {elseBody : Option Body} (running : s.stopped = false) (here : env.ast.stmt? id = some node)
      (kind : node.kind = .ifElse keyword condition thenBody elseBody) :
      Begins ⟨n + 1, .statement id, s⟩ ⟨n, .expression condition, s⟩
  | branch {n : Nat} {s t : State} {id : StmtId} {node : Stmt} {keyword : Text.Span} {condition : ExprId}
      {thenBody : Body} {elseBody : Option Body} {b : Bool} {body : Body} (running : s.stopped = false)
      (here : env.ast.stmt? id = some node) (kind : node.kind = .ifElse keyword condition thenBody elseBody)
      (first : Gives (expression env n condition) s (some (.bool b)) t) (unhalted : t.halted = false)
      (chosen : (if b then some thenBody else elseBody) = some body) :
      Begins ⟨n + 1, .statement id, s⟩ ⟨n, .block body.statements, { t with last := none }⟩
  | looped {n : Nat} {s : State} {id : StmtId} {node : Stmt}
      {keyword : Text.Span} {condition : ExprId} {body : Body} (running : s.stopped = false)
      (here : env.ast.stmt? id = some node) (kind : node.kind = .whileLoop keyword condition body) :
      Begins ⟨n + 1, .statement id, s⟩ ⟨n, .loop condition body.statements, s⟩
  | tested {n : Nat} {s : State} {condition : ExprId} {ids : List StmtId} :
      Begins ⟨n + 1, .loop condition ids, s⟩ ⟨n, .expression condition, s⟩
  | repeated {n : Nat} {s t : State} {condition : ExprId} {ids : List StmtId}
      (first : Gives (expression env n condition) s (some (.bool true)) t) (unhalted : t.halted = false) :
      Begins ⟨n + 1, .loop condition ids, s⟩ ⟨n, .block ids, { t with last := none }⟩
  | again {n : Nat} {s t u : State} {condition : ExprId} {ids : List StmtId}
      (first : Gives (expression env n condition) s (some (.bool true)) t) (unhalted : t.halted = false)
      (second : Gives (block env n ids) { t with last := none } () u) (running : u.stopped = false) :
      Begins ⟨n + 1, .loop condition ids, s⟩ ⟨n, .loop condition ids, u⟩

end

end Eval

namespace Program

/-- The first moment of a run: the body of the main function, with an empty frame. -/
def entry (p : Program) (fuel : Nat) : Eval.Moment :=
  ⟨fuel, .block (((p.scope.function? Scope.main).map Function.body).getD []),
  { Eval.State.start p.report with frames := [∅] }⟩

/-- The moments of a run. -/
def Reaches (p : Program) (clock : Nat → Int64) (fuel : Nat) (m : Eval.Moment) : Prop :=
  Relation.ReflTransGen (Eval.Begins ⟨p.ast, p.scope, clock⟩) (p.entry fuel) m

end Program

end EmLang
