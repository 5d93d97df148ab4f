import EmLang.Lir.Build
import EmLang.Proofs.Typing

/-!
The parts of a program that have no blocks: branches, loops, comparisons and joined strings, and
what takes the value of a call that has none.
-/

namespace EmLang

/-! ### Parts without blocks -/

/-- A call of type `void`, perhaps in parentheses. -/
inductive Ast.VoidCall (ast : Ast) : ExprId → Prop where
  | call {e : ExprId} {callee leftParen rightParen : Text.Span} {arguments : List ExprId} {target : CallTarget}
      (here : ast.node? e = some (.call callee leftParen arguments rightParen target, .void)) : VoidCall ast e
  | paren {e : ExprId} {leftParen rightParen : Text.Span}
      {inner : ExprId} {ty : Ty} (here : ast.node? e = some (.paren leftParen inner rightParen, ty))
      (void : VoidCall ast inner) : VoidCall ast e

/-- A comparison, or a `+` on strings. -/
def ExprKind.Unsupported (ast : Ast) : ExprKind → Prop
  | .binary op _ left right => op.isComparison = true ∨
      op = .add ∧ ∀ operand ∈ [left, right], (ast.expr? operand).map Expr.ty = some .string
  | _ => False

/-- A call of type `void` is assigned or passed to a function. -/
def ExprKind.UsesVoid (ast : Ast) : ExprKind → Prop
  | .assign _ _ value _ => ast.VoidCall value
  | .call _ _ arguments _ _ => ∃ argument ∈ arguments, ast.VoidCall argument
  | _ => False

/-- The expression, or one inside it, is of this kind. -/
inductive Ast.Holds (ast : Ast) : ExprId → ExprKind → Prop where
  | self {e : ExprId} {kind : ExprKind} {ty : Ty} (here : ast.node? e = some (kind, ty)) : Holds ast e kind
  | child {e child : ExprId} {kind inner : ExprKind} {ty : Ty} (here : ast.node? e = some (kind, ty))
      (mem : child ∈ kind.children) (holds : Holds ast child inner) : Holds ast e inner

def StmtKind.branches : StmtKind → Bool
  | .ifElse .. | .whileLoop .. => true
  | _ => false

def StmtKind.returned : StmtKind → Option ExprId
  | .ret _ value => value
  | _ => none

def StmtKind.isReturn : StmtKind → Bool
  | .ret .. => true
  | _ => false

namespace Ast

variable (ast : Ast)

/-- The statement is an `if` or a `while`, or has a comparison or a `+` on strings in it. -/
def Unsupported (id : StmtId) : Prop := ∃ kind, ast.stmtKind? id = some kind ∧ (kind.branches = true ∨
  ∃ e ∈ kind.expressions, ∃ inner, ast.Holds e inner ∧ inner.Unsupported ast)

/-- In the statement a call of type `void` is returned, assigned or passed to a function. -/
def UsesVoid (id : StmtId) : Prop :=
  ∃ kind, ast.stmtKind? id = some kind ∧ ((∃ e, kind.returned = some e ∧ ast.VoidCall e) ∨
    ∃ e ∈ kind.expressions, ∃ inner, ast.Holds e inner ∧ inner.UsesVoid ast)

def returns (id : StmtId) : Bool := ((ast.stmtKind? id).map StmtKind.isReturn).getD false

/-- The statements of a body that are built: those up to the first `return`. -/
def generated : List StmtId → List StmtId
  | [] => []
  | id :: ids => id :: if ast.returns id then [] else generated ids

end Ast

namespace Program

/-- Something that is built is a branch, a loop, a comparison or a `+` on strings. -/
def Unsupported (p : Program) : Prop :=
  ∃ f function, p.scope.function? f = some function ∧ ∃ id ∈ p.ast.generated function.body, p.ast.Unsupported id

/-- Something that is built takes the value of a call of type `void`. -/
def UsesVoid (p : Program) : Prop :=
  ∃ f function, p.scope.function? f = some function ∧ ∃ id ∈ p.ast.generated function.body, p.ast.UsesVoid id

end Program

namespace Ast

variable {ast : Ast} {scope : Scope} {vars : List VarId}

/-- There are no blocks for the expression. -/
def Lacks (ast : Ast) (e : ExprId) : Prop :=
  ∃ inner, ast.Holds e inner ∧ (inner.Unsupported ast ∨ inner.UsesVoid ast)

variable {e : ExprId} {kind : ExprKind} {ty : Ty}

lemma node?_unique {kind' : ExprKind} {ty' : Ty} (here : ast.node? e = some (kind, ty))
    (here' : ast.node? e = some (kind', ty')) : kind' = kind ∧ ty' = ty := by
  rw [here] at here'
  obtain ⟨rfl, rfl⟩ := Prod.mk.inj (Option.some.inj here')
  exact ⟨rfl, rfl⟩

lemma holds_iff {inner : ExprKind} (here : ast.node? e = some (kind, ty)) :
    ast.Holds e inner ↔ inner = kind ∨ ∃ child ∈ kind.children, ast.Holds child inner := by
  constructor
  · rintro (⟨here'⟩ | ⟨here', mem, holds⟩)
    · exact .inl (node?_unique here here').1
    · obtain rfl := (node?_unique here here').1
      exact .inr ⟨_, mem, holds⟩
  · rintro (rfl | ⟨child, mem, holds⟩)
    · exact .self here
    · exact .child here mem holds

lemma Holds.exists_mem (h : ast.Holds e kind) : ∃ node ∈ ast.expressions, node.kind = kind := by
  induction h with
  | self here =>
    obtain ⟨node, found, same, -⟩ := node_expr here
    exact ⟨node, Array.mem_of_getElem? found, same⟩
  | child _ _ _ ih => exact ih

/-- When there are no blocks for an expression of this kind. -/
def LacksKind (ast : Ast) : ExprKind → Prop
  | .number .. | .string .. | .bool .. | .var .. | .error _ => False
  | .assign _ _ value _ => ast.Lacks value ∨ ast.VoidCall value
  | .binary op sign left right =>
    (ExprKind.binary op sign left right).Unsupported ast ∨ ast.Lacks left ∨ ast.Lacks right
  | .negate _ inner | .paren _ inner _ => ast.Lacks inner
  | .call _ _ arguments _ _ => ∃ argument ∈ arguments, ast.Lacks argument ∨ ast.VoidCall argument

lemma lacks_iff (here : ast.node? e = some (kind, ty)) : ast.Lacks e ↔ ast.LacksKind kind := by
  have below : ast.Lacks e ↔ (kind.Unsupported ast ∨ kind.UsesVoid ast) ∨
      ∃ child ∈ kind.children, ast.Lacks child := by
    simp only [Lacks, holds_iff here]
    constructor
    · rintro ⟨inner, rfl | ⟨child, mem, holds⟩, flaw⟩
      · exact .inl flaw
      · exact .inr ⟨child, mem, inner, holds, flaw⟩
    · rintro (flaw | ⟨child, mem, inner, holds, flaw⟩)
      · exact ⟨kind, .inl rfl, flaw⟩
      · exact ⟨inner, .inr ⟨child, mem, holds⟩, flaw⟩
  rw [below]
  cases kind with
  | assign => simp [ExprKind.Unsupported, ExprKind.UsesVoid, ExprKind.children, LacksKind, or_comm]
  | call => simp [ExprKind.Unsupported, ExprKind.UsesVoid, ExprKind.children, LacksKind,
      and_or_left, exists_or, or_comm]
  | binary => simp [ExprKind.UsesVoid, ExprKind.children, LacksKind]
  | _ => simp [ExprKind.Unsupported, ExprKind.UsesVoid, ExprKind.children, LacksKind]

/-- When an expression of this kind is a call without a value. -/
def VoidKind (ast : Ast) (ty : Ty) : ExprKind → Prop
  | .call .. => ty = .void
  | .paren _ inner _ => ast.VoidCall inner
  | _ => False

lemma voidCall_iff (here : ast.node? e = some (kind, ty)) : ast.VoidCall e ↔ ast.VoidKind ty kind := by
  constructor
  · rintro (⟨here'⟩ | ⟨here', void⟩)
    · obtain ⟨rfl, rfl⟩ := node?_unique here here'
      rfl
    · obtain ⟨rfl, -⟩ := node?_unique here here'
      exact void
  · cases kind with
    | call => exact fun void => .call (void ▸ here)
    | paren => exact .paren here
    | _ => exact False.elim

lemma VoidCall.type (void : ast.VoidCall e) (typed : HasType ast scope vars e ty) : ty = .void := by
  induction void with
  | call here => exact (typed.parts here).1.symm
  | paren here _ ih => exact ih (typed.parts here).2

lemma stmt_iff {id : StmtId} {kind : StmtKind} (here : ast.stmtKind? id = some kind) :
    ast.Unsupported id ∨ ast.UsesVoid id ↔ kind.branches = true ∨
    (∃ e, kind.returned = some e ∧ ast.VoidCall e) ∨ ∃ e ∈ kind.expressions, ast.Lacks e := by
  simp only [Unsupported, UsesVoid, here, Option.some.injEq, exists_eq_left', Lacks, and_or_left, exists_or]
  exact or_assoc.trans (or_congr_right or_left_comm)

/-- Something that is built of a body has no blocks. -/
def BodyLacks (ast : Ast) (ids : List StmtId) : Prop :=
  ∃ id ∈ ast.generated ids, ast.Unsupported id ∨ ast.UsesVoid id

end Ast

lemma Program.lacks_iff (p : Program) : p.Unsupported ∨ p.UsesVoid ↔
    ∃ function ∈ p.scope.functions.toList, p.ast.BodyLacks function.body := by
  have listed function : function ∈ p.scope.functions.toList ↔ ∃ f, p.scope.function? f = some function := by
    simp only [List.mem_iff_getElem?, Array.getElem?_toList, Scope.function?]
  simp only [Unsupported, UsesVoid, Ast.BodyLacks, listed, and_or_left, exists_or,
    exists_and_right, exists_comm]

end EmLang
