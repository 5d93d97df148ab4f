import EmLang.Ast.Parser
import EmLang.Proofs.Effects

/-!
The tables of a program that was read without errors are a forest. Every node stands behind all
nodes below it, and the nodes below two nodes stand in ranges that do not meet. A tree is therefore
given with the range of positions it occupies.
-/

namespace EmLang

open Nat StmtKind Text

variable {d : Diagnostic} {ids' : List StmtId} {r : Report} {kind : StmtKind}

/-! ### Nodes apart from what their names refer to -/

/-- An expression before its names are looked up. -/
def ExprKind.erase : ExprKind → ExprKind
  | .var name _ => .var name none
  | .assign name equals value _ => .assign name equals value none
  | .call callee leftParen arguments rightParen _ => .call callee leftParen arguments rightParen .unresolved
  | kind => kind

/-- A statement before its names are looked up. -/
def StmtKind.erase : StmtKind → StmtKind
  | .letVar keyword name ascription init _ => .letVar keyword name ascription init none
  | .function keyword name parameters returnType body _ =>
    .function keyword name parameters returnType body none
  | kind => kind

@[simp] lemma ExprKind.children_erase (k : ExprKind) : k.erase.children = k.children := by
  cases k <;> rfl

@[simp] lemma StmtKind.expressions_erase (k : StmtKind) : k.erase.expressions = k.expressions := by
  cases k <;> rfl

@[simp] lemma StmtKind.bodies_erase (k : StmtKind) : k.erase.bodies = k.bodies := by
  cases k <;> rfl

@[simp] lemma ExprKind.erase_withVariable (k : ExprKind) (v : VarId) : (k.withVariable v).erase = k.erase := by
  cases k <;> rfl

@[simp] lemma ExprKind.erase_withTarget (k : ExprKind) (target : CallTarget) :
    (k.withTarget target).erase = k.erase := by
  cases k <;> rfl

@[simp] lemma StmtKind.erase_withVariable (k : StmtKind) (v : VarId) : (k.withVariable v).erase = k.erase := by
  cases k <;> rfl

@[simp] lemma StmtKind.erase_withFunction (k : StmtKind) (f : FunId) : (k.withFunction f).erase = k.erase := by
  cases k <;> rfl

lemma ExprKind.eq_error_of_erase {k : ExprKind} {place : Span} (h : k.erase = .error place) :
    k = .error place := by
  cases k <;> simp_all [ExprKind.erase]

namespace Ast

def exprShape? (ast : Ast) (e : ExprId) : Option ExprKind := (ast.expr? e).map (·.kind.erase)

def stmtShape? (ast : Ast) (s : StmtId) : Option StmtKind := (ast.stmt? s).map (·.kind.erase)

end Ast

def StmtKind.isDeclaration : StmtKind → Bool
  | .function .. => true
  | _ => false

@[simp] lemma StmtKind.isDeclaration_erase (k : StmtKind) : k.erase.isDeclaration = k.isDeclaration := by
  cases k <;> rfl

def declares (ast : Ast) (id : StmtId) : Bool :=
  match ast.stmtShape? id with
  | some (.function ..) => true
  | _ => false

lemma declares_of_shape {ast : Ast} {id : StmtId} (h : ast.stmtShape? id = some kind) :
    declares ast id = kind.isDeclaration := by
  rw [declares, h]
  cases kind <;> rfl

/-! ### Trees in a range -/

/-- The statements in the bodies of a statement. -/
def StmtKind.inner (k : StmtKind) : List StmtId := k.bodies.flatMap Body.statements

section

variable (keyword : Span) (condition : ExprId)

include keyword condition

@[simp] lemma StmtKind.inner_ifThen (thenBody : Body) :
    (ifElse keyword condition thenBody none).inner = thenBody.statements := by
  simp [inner, bodies]

@[simp] lemma StmtKind.inner_ifElse (thenBody elseBody : Body) :
    (ifElse keyword condition thenBody (some elseBody)).inner = thenBody.statements ++ elseBody.statements := by
  simp [inner, bodies]

@[simp] lemma StmtKind.inner_whileLoop (body : Body) :
    (whileLoop keyword condition body).inner = body.statements := by
  simp [inner, bodies]

end

@[simp] lemma StmtKind.inner_function (keyword name : Span) (parameters : List Parameter)
    (returnType : Option ReturnType) (body : Body) (declared : Option FunId) :
    (function keyword name parameters returnType body declared).inner = body.statements := by
  simp [inner, bodies]

@[simp] lemma StmtKind.inner_erase (k : StmtKind) : k.erase.inner = k.inner := by
  simp [inner]

mutual

/-- The expression `e` and all below it are nodes at positions from `lo` up to `e`, and none is an
error node. -/
inductive ExprTree (ast : Ast) : Nat → ExprId → Prop where
  | node {lo e hi : Nat} {kind : ExprKind} (here : ast.exprShape? e = some kind)
      (sound : ∀ place, kind ≠ .error place) (below : ExprTrees ast lo kind.children hi) (last : hi ≤ e) :
      ExprTree ast lo e

/-- Trees of expressions one behind the other, in the range from `lo` up to but not including
`hi`. -/
inductive ExprTrees (ast : Ast) : Nat → List ExprId → Nat → Prop where
  | nil {lo hi : Nat} (le : lo ≤ hi) : ExprTrees ast lo [] hi
  | cons {lo e : Nat} {es : List ExprId} {hi : Nat} (head : ExprTree ast lo e)
      (tail : ExprTrees ast (e + 1) es hi) : ExprTrees ast lo (e :: es) hi

end

mutual

/-- The statement `id` and all statements below it are nodes at positions from `slo` up to `id`, and
their expressions are trees in the range from `elo` up to but not including `ehi`. -/
inductive StmtTree (ast : Ast) : Nat → Nat → StmtId → Nat → Prop where
  | node {slo elo id mid shi ehi : Nat} {kind : StmtKind} (here : ast.stmtShape? id = some kind)
      (own : ExprTrees ast elo kind.expressions mid) (below : StmtTrees ast slo mid kind.inner shi ehi)
      (last : shi ≤ id) : StmtTree ast slo elo id ehi

/-- Trees of statements one behind the other. -/
inductive StmtTrees (ast : Ast) : Nat → Nat → List StmtId → Nat → Nat → Prop where
  | nil {slo elo shi ehi : Nat} (sle : slo ≤ shi) (ele : elo ≤ ehi) : StmtTrees ast slo elo [] shi ehi
  | cons {slo elo id mid : Nat} {ids : List StmtId} {shi ehi : Nat} (head : StmtTree ast slo elo id mid)
      (tail : StmtTrees ast (id + 1) mid ids shi ehi) : StmtTrees ast slo elo (id :: ids) shi ehi

end

section Ranges

variable {ast ast' : Ast} {ids : List StmtId}

variable {e : ExprId} {lo slo elo ehi hi shi : Nat} {es : List ExprId}

lemma Ast.lt_size_of_exprShape {kind : ExprKind} (h : ast.exprShape? e = some kind) :
    e < ast.expressions.size := by
  unfold Ast.exprShape? Ast.expr? at h
  by_contra hn
  simp [Array.getElem?_eq_none (Nat.le_of_not_lt hn)] at h

lemma Ast.lt_size_of_stmtShape {id : StmtId} (h : ast.stmtShape? id = some kind) :
    id < ast.statements.size := by
  unfold Ast.stmtShape? Ast.stmt? at h
  by_contra hn
  simp [Array.getElem?_eq_none (Nat.le_of_not_lt hn)] at h

lemma ExprTree.lt_size (h : ExprTree ast lo e) : e < ast.expressions.size := by
  obtain ⟨here, -, -, -⟩ := h
  exact Ast.lt_size_of_exprShape here

mutual

lemma ExprTree.le {lo : Nat} {e : ExprId} : ExprTree ast lo e → lo ≤ e
  | .node _ _ below last => below.le.trans last

lemma ExprTrees.le {lo hi : Nat} {es : List ExprId} : ExprTrees ast lo es hi → lo ≤ hi
  | .nil le => le
  | .cons head tail => head.le.trans ((le_succ _).trans tail.le)

end

mutual

lemma ExprTree.from_le {lo lo' : Nat} {e : ExprId} (le : lo' ≤ lo) : ExprTree ast lo e → ExprTree ast lo' e
  | .node here sound below last => .node here sound (below.from_le le) last

lemma ExprTrees.from_le {lo lo' hi : Nat} {es : List ExprId} (le : lo' ≤ lo) :
    ExprTrees ast lo es hi → ExprTrees ast lo' es hi
  | .nil hle => .nil (le.trans hle)
  | .cons head tail => .cons (head.from_le le) tail

end

lemma ExprTrees.mem_lt (h : ExprTrees ast lo es hi) (mem : e ∈ es) : e < hi := by
  induction es generalizing lo with
  | nil => simp at mem
  | cons e' es ih =>
    obtain _ | ⟨head, tail⟩ := h
    obtain rfl | mem := List.mem_cons.1 mem
    · exact tail.le
    · exact ih tail mem

lemma ExprTrees.tree_of_mem (h : ExprTrees ast lo es hi) (mem : e ∈ es) : ∃ lo', ExprTree ast lo' e := by
  induction es generalizing lo with
  | nil => simp at mem
  | cons e' es ih =>
    obtain _ | ⟨head, tail⟩ := h
    obtain rfl | mem := List.mem_cons.1 mem
    · exact ⟨lo, head⟩
    · exact ih tail mem

lemma ExprTrees.upto_le {hi' : Nat} (le : hi ≤ hi') (h : ExprTrees ast lo es hi) : ExprTrees ast lo es hi' := by
  induction es generalizing lo with
  | nil =>
    obtain ⟨hle⟩ := h
    exact .nil (hle.trans le)
  | cons e es ih =>
    obtain _ | ⟨head, tail⟩ := h
    exact .cons head (ih tail)

mutual

/-- A tree is one in every program that has its nodes. -/
lemma ExprTree.congr (exprs : ∀ i kind, ast.exprShape? i = some kind → ast'.exprShape? i =
      some kind) {lo : Nat} {e : ExprId} : ExprTree ast lo e → ExprTree ast' lo e
  | .node here sound below last => .node (exprs _ _ here) sound (below.congr exprs) last

lemma ExprTrees.congr (exprs : ∀ i kind, ast.exprShape? i = some kind → ast'.exprShape? i =
      some kind) {lo hi : Nat} {es : List ExprId} : ExprTrees ast lo es hi → ExprTrees ast' lo es hi
  | .nil le => .nil le
  | .cons head tail => .cons (head.congr exprs) (tail.congr exprs)

end

mutual

lemma StmtTree.le {slo elo ehi : Nat} {id : StmtId} : StmtTree ast slo elo id ehi → slo ≤ id ∧ elo ≤ ehi
  | .node _ own below last => ⟨below.le.1.trans last, own.le.trans below.le.2⟩

lemma StmtTrees.le {slo elo shi ehi : Nat} {ids : List StmtId} :
    StmtTrees ast slo elo ids shi ehi → slo ≤ shi ∧ elo ≤ ehi
  | .nil sle ele => ⟨sle, ele⟩
  | .cons head tail =>
    ⟨head.le.1.trans ((le_succ _).trans tail.le.1), head.le.2.trans tail.le.2⟩

end

mutual

lemma StmtTree.from_le {slo slo' elo elo' ehi : Nat} {id : StmtId} (sle : slo' ≤ slo) (ele : elo' ≤ elo) :
    StmtTree ast slo elo id ehi → StmtTree ast slo' elo' id ehi
  | .node here own below last => .node here (own.from_le ele) (below.from_le sle le_rfl) last

lemma StmtTrees.from_le {slo slo' elo elo' shi ehi : Nat} {ids : List StmtId} (sle : slo' ≤ slo)
    (ele : elo' ≤ elo) : StmtTrees ast slo elo ids shi ehi → StmtTrees ast slo' elo' ids shi ehi
  | .nil h h' => .nil (sle.trans h) (ele.trans h')
  | .cons head tail => .cons (head.from_le sle ele) tail

end

lemma StmtTrees.upto_le {slo elo shi shi' ehi ehi' : Nat} {ids : List StmtId} (sle : shi ≤ shi')
    (ele : ehi ≤ ehi') : StmtTrees ast slo elo ids shi ehi → StmtTrees ast slo elo ids shi' ehi'
  | .nil h h' => .nil (h.trans sle) (h'.trans ele)
  | .cons head tail => .cons head (tail.upto_le sle ele)

mutual

lemma StmtTree.congr (stmts : ∀ i kind, ast.stmtShape? i = some kind → ast'.stmtShape? i =
      some kind) (exprs : ∀ i kind, ast.exprShape? i = some kind → ast'.exprShape? i = some kind)
    {slo elo ehi : Nat} {id : StmtId} : StmtTree ast slo elo id ehi → StmtTree ast' slo elo id ehi
  | .node here own below last => .node (stmts _ _ here) (own.congr exprs) (below.congr stmts exprs) last

lemma StmtTrees.congr (stmts : ∀ i kind, ast.stmtShape? i = some kind → ast'.stmtShape? i =
      some kind) (exprs : ∀ i kind, ast.exprShape? i = some kind → ast'.exprShape? i = some kind)
    {slo elo shi ehi : Nat} {ids : List StmtId} :
    StmtTrees ast slo elo ids shi ehi → StmtTrees ast' slo elo ids shi ehi
  | .nil h h' => .nil h h'
  | .cons head tail => .cons (head.congr stmts exprs) (tail.congr stmts exprs)

end

lemma ExprTrees.append {mid : Nat} {es' : List ExprId} (h : ExprTrees ast lo es mid)
    (h' : ExprTrees ast mid es' hi) : ExprTrees ast lo (es ++ es') hi := by
  induction es generalizing lo with
  | nil =>
    obtain ⟨le⟩ := h
    exact h'.from_le le
  | cons e es ih =>
    obtain _ | ⟨head, tail⟩ := h
    exact .cons head (ih tail)

lemma StmtTrees.append {emid smid : Nat} (h : StmtTrees ast slo elo ids smid emid)
    (h' : StmtTrees ast smid emid ids' shi ehi) : StmtTrees ast slo elo (ids ++ ids') shi ehi := by
  induction ids generalizing slo elo with
  | nil =>
    obtain ⟨sle, ele⟩ := h
    exact h'.from_le sle ele
  | cons id ids ih =>
    obtain _ | ⟨head, tail⟩ := h
    exact .cons head (ih tail)

lemma StmtTrees.split (h : StmtTrees ast slo elo (ids ++ ids') shi ehi) :
    ∃ smid emid, StmtTrees ast slo elo ids smid emid ∧ StmtTrees ast smid emid ids' shi ehi := by
  induction ids generalizing slo elo with
  | nil => exact ⟨slo, elo, .nil le_rfl le_rfl, h⟩
  | cons id ids ih =>
    obtain _ | ⟨head, tail⟩ := h
    obtain ⟨smid, emid, first, second⟩ := ih tail
    exact ⟨smid, emid, .cons head first, second⟩

/-- Where the nodes below a statement stand: statements from `slo` on and expressions from `elo` up
to but not including `ehi`. -/
structure Region where
  slo : Nat
  elo : Nat
  ehi : Nat

/-- All nodes of the first statement stand before all nodes of the second. -/
def Region.Before (region : StmtId → Region) (id id' : StmtId) : Prop :=
  id < (region id').slo ∧ (region id).ehi ≤ (region id').elo

/-- The nodes of the two statements stand apart. -/
def Region.Apart (region : StmtId → Region) (id id' : StmtId) : Prop :=
  Region.Before region id id' ∨ Region.Before region id' id

instance (region : StmtId → Region) : Std.Symm (Region.Apart region) := ⟨fun _ _ => Or.symm⟩

lemma StmtTrees.regions (h : StmtTrees ast slo elo ids shi ehi) :
    ∃ region : StmtId → Region, ids.Pairwise (Region.Before region) ∧
    ∀ id ∈ ids, StmtTree ast (region id).slo (region id).elo id (region id).ehi ∧
    slo ≤ (region id).slo ∧ elo ≤ (region id).elo ∧ id < shi ∧ (region id).ehi ≤ ehi := by
  induction ids generalizing slo elo with
  | nil => exact ⟨fun _ => ⟨0, 0, 0⟩, .nil, by simp⟩
  | cons id ids ih =>
    obtain _ | ⟨head, tail⟩ := h
    rename_i mid
    obtain ⟨region, apart, inside⟩ := ih tail
    -- The head stands before all of the tail, so that its region can be added.
    have other i (hi : i ∈ ids) : Function.update region id ⟨slo, elo, mid⟩ i = region i := by
      obtain ⟨tree, sle, -⟩ := inside i hi
      refine Function.update_of_ne ?_ _ _
      rintro rfl
      exact absurd (sle.trans tree.le.1) (not_succ_le_self i)
    refine ⟨Function.update region id ⟨slo, elo, mid⟩, List.pairwise_cons.2 ⟨fun i hi => ?_, ?_⟩,
      fun i hi => ?_⟩
    · obtain ⟨-, sle, ele, -⟩ := inside i hi
      rw [Region.Before, other i hi, Function.update_self]
      exact ⟨sle, ele⟩
    · refine apart.imp_of_mem fun hi hj before => ?_
      rw [Region.Before, other _ hi, other _ hj]
      exact before
    · obtain rfl | hi := List.mem_cons.1 hi
      · rw [Function.update_self]
        exact ⟨head, le_rfl, le_rfl, tail.le⟩
      · rw [other i hi]
        obtain ⟨tree, sle, ele, upto⟩ := inside i hi
        exact ⟨tree, head.le.1.trans ((le_succ id).trans sle), head.le.2.trans ele, upto⟩

lemma StmtTrees.sublist {slo elo shi ehi : Nat} (sublist : ids'.Sublist ids)
    (h : StmtTrees ast slo elo ids shi ehi) : StmtTrees ast slo elo ids' shi ehi := by
  induction sublist generalizing slo elo with
  | slnil => exact h
  | cons id _ ih =>
    obtain _ | ⟨head, tail⟩ := h
    exact (ih tail).from_le (head.le.1.trans (le_succ id)) head.le.2
  | cons_cons id _ ih =>
    obtain _ | ⟨head, tail⟩ := h
    exact .cons head (ih tail)

end Ranges

namespace Parser

lemma errors_of_add (h : (r.add d).errors = []) : r.errors = [] := by
  unfold Report.add at h
  split at h
  · simp at h
  · exact h

lemma add_errors_ne (h : d.severity = .error) : (r.add d).errors ≠ [] := by
  simp [Report.add, h]

end Parser

end EmLang
