import EmLang.Proofs.PrintedTokens
import EmLang.Proofs.ReadPrograms

/-!
Every node of a program that was read without errors has its place: an expression stands in an
expression or a statement, and a statement in a body or outside all of them. No function is declared
in the body of another. This is shown for trees that are put into tables, since what is read is such
a tree.
-/

namespace EmLang

open List Nat Option Text

/-- What the statement declares has a name. -/
def StmtKind.Named : StmtKind → Prop
  | .function _ name _ _ _ _ => Token.IsName name.literal
  | _ => True

namespace Ast

variable {kind : StmtKind} {d d' : Nat} {a b c : Ast} {es es' : List ExprId}
  {ids ids' : List StmtId}

/-- The expression is a part of an expression behind it, or of a statement. -/
def ExprPlaced (ast : Ast) (e : ExprId) : Prop :=
  (∃ parent kind, ast.exprShape? parent = some kind ∧ e ∈ kind.children ∧ e < parent) ∨
    ∃ id kind, ast.stmtShape? id = some kind ∧ e ∈ kind.expressions

/-- The statement stands in a body of a statement behind it. -/
def StmtPlaced (ast : Ast) (id : StmtId) : Prop :=
  ∃ parent kind, ast.stmtShape? parent = some kind ∧ id ∈ kind.inner ∧ id < parent

/-- The statement declares no function, and no statement in it does. -/
inductive Plain (ast : Ast) : StmtId → Prop where
  | node {id : StmtId} {kind : StmtKind} (here : ast.stmtShape? id = some kind)
      (other : declares ast id = false) (below : ∀ i ∈ kind.inner, Plain ast i) : Plain ast id

lemma Plain.mono {ast ast' : Ast} (shapes : ∀ id kind, ast.stmtShape? id = some kind →
      ast'.stmtShape? id = some kind) {id : StmtId} (h : ast.Plain id) : ast'.Plain id := by
  induction h with
  | node here other _ ih =>
    rw [declares_of_shape here] at other
    exact .node (shapes _ _ here) ((declares_of_shape (shapes _ _ here)).trans other) ih

/-- All nodes have their places, no function is declared in another, and each has a name. -/
structure Whole (ast : Ast) : Prop where
  exprs : ∀ e kind, ast.exprShape? e = some kind → ast.ExprPlaced e
  stmts : ∀ id kind, ast.stmtShape? id = some kind → id ∈ ast.topLevel ∨ ast.StmtPlaced id
  flat : ∀ id kind, ast.stmtShape? id = some kind → declares ast id = true → ∀ i ∈ kind.inner, ast.Plain i
  named : ∀ id kind, ast.stmtShape? id = some kind → kind.Named

/-- No name of a statement refers to anything yet. -/
def Bare (ast : Ast) : Prop := ∀ id node, ast.stmt? id = some node → node.kind.erase = node.kind

/-! ### New nodes -/

/-- The node of a statement as it is read: its names refer to nothing yet, and no function is
declared in a function. -/
structure Fresh (ast : Ast) (kind : StmtKind) : Prop where
  bare : kind.erase = kind
  named : kind.Named
  flat : kind.isDeclaration = true → ∀ i ∈ kind.inner, ast.Plain i

namespace Extends

variable {a b : Ast} (h : a.Extends b)

include h

lemma exprShape (e : ExprId) (kind : ExprKind) (here : a.exprShape? e = some kind) :
    b.exprShape? e = some kind := by
  rw [exprShape?, h.exprs e (lt_size_of_exprShape here), ← here, exprShape?]

lemma stmtShape (id : StmtId) (kind : StmtKind) (here : a.stmtShape? id = some kind) :
    b.stmtShape? id = some kind := by
  rw [stmtShape?, h.stmts id (lt_size_of_stmtShape here), ← here, stmtShape?]

lemma exprPlaced {e : ExprId} : a.ExprPlaced e → b.ExprPlaced e
  | .inl ⟨parent, kind, here, mem, lt⟩ => .inl ⟨parent, kind, h.exprShape _ _ here, mem, lt⟩
  | .inr ⟨id, kind, here, mem⟩ => .inr ⟨id, kind, h.stmtShape _ _ here, mem⟩

lemma stmtPlaced {id : StmtId} : a.StmtPlaced id → b.StmtPlaced id
  | ⟨parent, kind, here, mem, lt⟩ => ⟨parent, kind, h.stmtShape _ _ here, mem, lt⟩

lemma plain {id : StmtId} (plain : a.Plain id) : b.Plain id :=
  plain.mono h.stmtShape

lemma fresh (fresh : a.Fresh kind) : b.Fresh kind :=
  ⟨fresh.bare, fresh.named, fun declares i mem => h.plain (fresh.flat declares i mem)⟩

end Extends

/-- Between `a` and `b` the trees of the expressions `es` are added and behind them those of the
statements `ids`, where `d` functions are open. All other new nodes have their places. -/
structure Grown (d : Nat) (a b : Ast) (es : List ExprId) (ids : List StmtId) : Prop where
  kept : a.Extends b
  forest : ∃ mid, ExprTrees b a.expressions.size es mid ∧
    StmtTrees b a.statements.size mid ids b.statements.size b.expressions.size
  exprs : ∀ e, a.expressions.size ≤ e → e < b.expressions.size → e ∈ es ∨ b.ExprPlaced e
  stmts : ∀ id, a.statements.size ≤ id → id < b.statements.size → id ∈ ids ∨ b.StmtPlaced id
  fresh : ∀ id node, a.statements.size ≤ id → b.stmt? id = some node → b.Fresh node.kind
  untyped : ∀ e node, a.expressions.size ≤ e → b.expr? e = some node → node.ty = .unresolved
  plain : 0 < d → ∀ id ∈ ids, b.Plain id

lemma grown_nil (kept : a.Extends b) (exprs : b.expressions.size = a.expressions.size)
    (stmts : b.statements.size = a.statements.size) : Grown d a b [] [] := by
  refine ⟨kept, ⟨a.expressions.size, .nil le_rfl, .nil kept.stmts_le kept.exprs_le⟩, fun e le lt =>
    ?_, fun id le lt => ?_, fun id node le here => ?_, fun e node le here => ?_, nofun⟩
  · exact absurd (lt.trans_eq exprs) (Nat.not_lt_of_le le)
  · exact absurd (lt.trans_eq stmts) (Nat.not_lt_of_le le)
  · exact absurd ((Array.getElem?_eq_some_iff.1 here).1.trans_eq stmts) (Nat.not_lt_of_le le)
  · exact absurd ((Array.getElem?_eq_some_iff.1 here).1.trans_eq exprs) (Nat.not_lt_of_le le)

lemma Grown.trans (h : Grown d a b es ids) (h' : Grown d b c es' ids')
    (order : ids = [] ∨ es' = []) : Grown d a c (es ++ es') (ids ++ ids') := by
  have k := h'.kept
  refine ⟨h.kept.trans k, ?_, fun e le lt => ?_, fun id le lt => ?_, fun id node le here => ?_,
    fun e node le here => ?_, fun inside id mem => ?_⟩
  · obtain ⟨mid, own, below⟩ := h.forest
    obtain ⟨mid', own', below'⟩ := h'.forest
    replace own := own.congr k.exprShape
    replace below := below.congr k.stmtShape k.exprShape
    obtain rfl | rfl := order
    · exact ⟨mid', (own.upto_le below.le.2).append own', below'.from_le h.kept.stmts_le le_rfl⟩
    · exact ⟨mid, es.append_nil.symm ▸ own, below.append (below'.from_le le_rfl own'.le)⟩
  · rw [mem_append]
    obtain old | new := lt_or_ge e b.expressions.size
    · exact (h.exprs e le old).imp .inl k.exprPlaced
    · exact (h'.exprs e new lt).imp_left .inr
  · rw [mem_append]
    obtain old | new := lt_or_ge id b.statements.size
    · exact (h.stmts id le old).imp .inl k.stmtPlaced
    · exact (h'.stmts id new lt).imp_left .inr
  · obtain old | new := lt_or_ge id b.statements.size
    · exact k.fresh (h.fresh id node le ((k.stmts id old).symm.trans here))
    · exact h'.fresh id node new here
  · obtain old | new := lt_or_ge e b.expressions.size
    · exact h.untyped e node le ((k.exprs e old).symm.trans here)
    · exact h'.untyped e node new here
  · exact (mem_append.1 mem).elim (fun mem => k.plain (h.plain inside id mem)) (h'.plain inside id)

/-- A new expression takes those without a place as its parts. -/
lemma Grown.addExpr {kind : ExprKind}
    (h : Grown d a b es []) (children : kind.children = es) (sound : ∀ place, kind ≠ .error place) :
    Grown d a (b.addExpr kind).1 [(b.addExpr kind).2] [] := by
  subst children
  have k := Extends.addExpr b kind
  have here : (b.addExpr kind).1.exprShape? b.expressions.size = some kind.erase :=
    congrArg (Option.map fun n : Expr => n.kind.erase) Array.getElem?_push_size
  have size : (b.addExpr kind).1.expressions.size = b.expressions.size + 1 := Array.size_push _
  have last {e : ExprId} (lt : e < (b.addExpr kind).1.expressions.size) (new : b.expressions.size ≤
    e) : e = b.expressions.size := le_antisymm (le_of_lt_succ (lt.trans_eq size)) new
  obtain ⟨mid, own, below⟩ := h.forest
  replace own := own.congr k.exprShape
  rw [← ExprKind.children_erase] at own
  refine ⟨h.kept.trans k, ⟨_, .cons
    (.node here (fun place same => sound place (ExprKind.eq_error_of_erase same)) own below.le.2)
    (.nil le_rfl), .nil h.kept.stmts_le size.ge⟩, fun e le lt => ?_, fun id le lt => ?_,
    fun id node le here => k.fresh (h.fresh id node le here), fun e node le there => ?_, nofun⟩
  · obtain old | new := lt_or_ge e b.expressions.size
    · refine .inr ((h.exprs e le old).elim (fun mem => .inl ⟨_, _, here, ?_, old⟩) k.exprPlaced)
      rwa [ExprKind.children_erase]
    · exact .inl (mem_singleton.2 (last lt new))
  · exact (h.stmts id le lt).imp_right k.stmtPlaced
  · obtain old | new := lt_or_ge e b.expressions.size
    · exact h.untyped e node le ((k.exprs e old).symm.trans there)
    · obtain rfl := last (Array.getElem?_eq_some_iff.1 there).1 new
      obtain rfl := mem_unique there Array.getElem?_push_size
      rfl

/-- A new statement takes those without a place as its parts. One more function is open in its body
if it declares one. -/
lemma Grown.addStmt (h : Grown d' a b es ids) (own : kind.expressions = es)
    (inner : kind.inner = ids) (bare : kind.erase = kind)
    (named : kind.Named) (level : kind.isDeclaration = false ∧ d' = d ∨ d = 0 ∧ 0 < d') :
    Grown d a (b.addStmt kind).1 [] [(b.addStmt kind).2] := by
  subst own inner
  have k := Extends.addStmt b kind
  have found : (b.addStmt kind).1.stmt? b.statements.size = some _ := Array.getElem?_push_size
  have here : (b.addStmt kind).1.stmtShape? b.statements.size = some kind :=
    (congrArg (Option.map fun n : Stmt => n.kind.erase) found).trans (congrArg some bare)
  have size : (b.addStmt kind).1.statements.size = b.statements.size + 1 := Array.size_push _
  have last {id : StmtId} (lt : id < (b.addStmt kind).1.statements.size) (new : b.statements.size ≤
    id) : id = b.statements.size := le_antisymm (le_of_lt_succ (lt.trans_eq size)) new
  refine ⟨h.kept.trans k, ?_, fun e le lt => .inr ?_, fun id le lt => ?_, fun id node le there =>
    ?_, h.untyped, fun inside => ?_⟩
  · obtain ⟨mid, own, below⟩ := h.forest
    replace own := own.congr k.exprShape
    replace below := below.congr k.stmtShape k.exprShape
    exact ⟨a.expressions.size, .nil le_rfl, .cons (.node here own below le_rfl) (.nil size.ge le_rfl)⟩
  · exact (h.exprs e le lt).elim (fun own => .inr ⟨_, _, here, own⟩) k.exprPlaced
  · obtain old | new := lt_or_ge id b.statements.size
    · exact .inr ((h.stmts id le old).elim (fun inner => ⟨_, _, here, inner, old⟩) k.stmtPlaced)
    · exact .inl (mem_singleton.2 (last lt new))
  · obtain old | new := lt_or_ge id b.statements.size
    · exact k.fresh (h.fresh id node le ((k.stmts id old).symm.trans there))
    · obtain rfl := last (Array.getElem?_eq_some_iff.1 there).1 new
      obtain rfl := mem_unique there found
      refine ⟨bare, named, fun declares i mem => k.plain (h.plain ?_ i mem)⟩
      exact level.elim (fun ⟨other, _⟩ => absurd (other.symm.trans declares) nofun) And.right
  · obtain ⟨other, rfl⟩ | ⟨rfl, -⟩ := level
    · refine forall_mem_singleton.2 (.node here ((declares_of_shape here).trans other) fun i mem => ?_)
      exact k.plain (h.plain inside i mem)
    · exact absurd inside (lt_irrefl 0)

end Ast

/-! ### Trees in tables -/

namespace Tree

open Ast

mutual

lemma Expr.grown {d : Nat} (a : Ast) : ∀ x : Expr, Grown d a (x.addTo a).1 [(x.addTo a).2] []
  | .number .. | .string .. | .bool .. | .var _ => (grown_nil (.refl a) rfl rfl).addExpr rfl nofun
  | .assign _ _ x | .negate _ x | .paren _ x _ => (x.grown a).addExpr rfl nofun
  | .binary _ _ x y => ((x.grown a).trans (y.grown _) (.inl rfl)).addExpr rfl nofun
  | .call _ _ xs _ => (grown_addExprs a xs).addExpr rfl nofun

lemma grown_addExprs {d : Nat} (a : Ast) : ∀ xs : List Expr, Grown d a (addExprs a xs).1 (addExprs a xs).2 []
  | [] => grown_nil (.refl a) rfl rfl
  | x :: xs => (x.grown a).trans (grown_addExprs _ xs) (.inl rfl)

end

mutual

lemma Stmt.grown (a : Ast) : ∀ (y : Stmt) {d : Nat}, y.Fits d → AllLegible (y.marks .free) →
    Grown d a (y.addTo a).1 [] [(y.addTo a).2]
  | .expr x, _, _, _ | .letVar _ _ _ x, _, _, _ | .ret _ (some x), _, _,
      _ => (x.grown a).addStmt rfl rfl rfl trivial (.inl ⟨rfl, rfl⟩)
  | .ret _ none, _, _, _ => (grown_nil (.refl a) rfl rfl).addStmt rfl rfl rfl trivial (.inl ⟨rfl, rfl⟩)
  | .ifThen _ x body, _, fits, legible | .whileLoop _ x body, _, fits, legible =>
    ((x.grown a).trans (body.grown _ fits legible.tail.right) (.inl rfl)).addStmt rfl
    (by simp) rfl trivial (.inl ⟨rfl, rfl⟩)
  | .ifElse _ x body other, _, fits, legible =>
    have first := (x.grown a).trans (body.grown _ fits.1 legible.tail.right.left) (.inl rfl)
    (first.trans (other.grown _ fits.2 legible.tail.right.right.tail) (.inr rfl)).addStmt rfl
    (by simp) rfl trivial (.inl ⟨rfl, rfl⟩)
  | .function _ _ _ _ body, _, fits, legible =>
    (body.grown a fits.2 legible.tail.tail.tail.right.tail.right).addStmt rfl (by simp) rfl
      (Token.IsWord.isName legible.tail.first) (.inr ⟨fits.1, succ_pos _⟩)

lemma Body.grown (a : Ast) : ∀ (y : Body) {d : Nat}, y.Fits d → AllLegible (y.marks .free) →
    Grown d a (y.addTo a).1 [] (y.addTo a).2.statements
  | .mk _ ys _, _, fits, legible => grown_addStmts a ys fits legible.tail.left

lemma grown_addStmts (a : Ast) : ∀ (ys : List Stmt) {d : Nat}, stmtsFit d ys →
    AllLegible (stmtsMarks .free ys) → Grown d a (addStmts a ys).1 [] (addStmts a ys).2
  | [], _, _, _ => grown_nil (.refl a) rfl rfl
  | y :: ys, _, fits, legible =>
    (y.grown a fits.1 legible.left).trans (grown_addStmts _ ys fits.2 legible.right.right) (.inr rfl)

end

end Tree

namespace Parser

open EmLang.Tree

variable {text : List Char}

lemma ended_tokenize (text : List Char) : Ended (Token.tokenize text) := by
  obtain ⟨before, last, same, isEnd, others⟩ := Token.words_ends 0 text
  exact ⟨before, last, same, isEnd, fun token mem => (others token mem).1⟩

lemma ReadProgram.legible {eof : Token} {xs : List Tree.Stmt}
    (h : ReadProgram (Token.tokenize text) xs eof) : AllLegible (stmtsMarks .free xs) := by
  obtain ⟨before, last, same, -, others⟩ := Token.words_ends 0 text
  obtain ⟨front, split, kept⟩ := h.spelled.front
  obtain ⟨rfl, -⟩ := append_inj' (split.symm.trans same) rfl
  exact fun token mem => (others token (kept token mem)).2

variable (clean : (parse (Token.tokenize text)).2.errors = [])

include clean

/-- The program of a text without errors is grown from nothing. -/
lemma parse_grown :
    Ast.Grown 0 .empty (parse (Token.tokenize text)).1 [] (parse (Token.tokenize text)).1.topLevel := by
  obtain ⟨xs, eof, read⟩ := parse_back (ended_tokenize text) clean
  rw [read.parsed]
  have kept : (addStmts .empty xs).1.Extends (toAst xs) := ⟨fun _ _ => rfl, fun _ _ => rfl, le_rfl, le_rfl⟩
  have grown := (grown_addStmts .empty xs read.fits read.legible).trans (Ast.grown_nil kept rfl rfl) (.inr rfl)
  rw [append_nil, append_nil] at grown
  exact grown

/-- **Reading a program builds a forest.** -/
theorem parse_forest :
    StmtTrees (parse (Token.tokenize text)).1 0 0 (parse (Token.tokenize text)).1.topLevel
      (parse (Token.tokenize text)).1.statements.size (parse (Token.tokenize text)).1.expressions.size := by
  obtain ⟨mid, -, trees⟩ := (parse_grown clean).forest
  exact trees.from_le le_rfl (zero_le mid)

/-- **Every node of a program that is read without errors has its place.** -/
theorem parse_whole :
    (parse (Token.tokenize text)).1.Whole ∧ (parse (Token.tokenize text)).1.Bare := by
  have grown := parse_grown clean
  have fresh {id : StmtId} {kind : StmtKind} (here : (parse (Token.tokenize text)).1.stmtShape? id =
      some kind) : (parse (Token.tokenize text)).1.Fresh kind := by
    obtain ⟨node, found, rfl⟩ := map_eq_some_iff.1 here
    have fresh := grown.fresh id node (zero_le id) found
    rwa [fresh.bare]
  refine ⟨⟨fun e kind here => ?_, fun id kind here => ?_,
    fun id kind here declares => ?_, fun id kind here => (fresh here).named⟩, fun id node found =>
    (grown.fresh id node (zero_le id) found).bare⟩
  · exact (grown.exprs e (zero_le e) (Ast.lt_size_of_exprShape here)).resolve_left nofun
  · exact grown.stmts id (zero_le id) (Ast.lt_size_of_stmtShape here)
  · exact (fresh here).flat ((declares_of_shape here).symm.trans declares)

end Parser

end EmLang
