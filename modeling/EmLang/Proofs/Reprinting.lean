import EmLang.Proofs.Accepting
import EmLang.Proofs.PrintedPrograms

/-!
Programs that are printed and read again. No semicolons are printed, so two statements stay apart
only where the first one ends before the token that the second one begins with. Exactly then the
text of an accepted program is read as that program.
-/

namespace EmLang

open Ast EmLang.Tree Option Text Token

/-! ### Trees of resolved programs -/

lemma ExprKind.tree?_erase (tree : ExprId → Option Tree.Expr) (kind : ExprKind) :
    kind.erase.tree? tree = kind.tree? tree := by
  cases kind <;> rfl

lemma StmtKind.tree?_erase (expr : ExprId → Option Tree.Expr) (stmt : StmtId → Option Tree.Stmt)
    (kind : StmtKind) : kind.erase.tree? expr stmt = kind.tree? expr stmt := by
  cases kind <;> rfl

namespace Ast

lemma exprTree?_succ (ast : Ast) (n : Nat) (e : ExprId) :
    ast.exprTree? (n + 1) e = (ast.exprShape? e).bind fun kind => kind.tree? (ast.exprTree? n) := by
  rw [exprTree?, exprShape?]
  cases ast.expr? e with
  | none => rfl
  | some node => exact (ExprKind.tree?_erase _ node.kind).symm

lemma stmtTree?_succ (ast : Ast) (n : Nat) (id : StmtId) : ast.stmtTree? (n + 1) id =
    (ast.stmtShape? id).bind fun kind => kind.tree? (ast.exprTree? n) (ast.stmtTree? n) := by
  rw [stmtTree?, stmtShape?]
  cases ast.stmt? id with
  | none => rfl
  | some node => exact (StmtKind.tree?_erase _ _ node.kind).symm

namespace Alike

variable {ast ast' : Ast} (h : ast.Alike ast')
include h

lemma exprTree? (n : Nat) : ast'.exprTree? n = ast.exprTree? n := by
  induction n with
  | zero => rfl
  | succ n ih =>
    funext e
    rw [exprTree?_succ, exprTree?_succ, h.exprs, ih]

lemma stmtTree? (n : Nat) : ast'.stmtTree? n = ast.stmtTree? n := by
  induction n with
  | zero => rfl
  | succ n ih =>
    funext id
    rw [stmtTree?_succ, stmtTree?_succ, h.stmts, h.exprTree?, ih]

lemma depth : ast'.depth = ast.depth := by
  have size {α β : Type} {xs ys : Array α} {f : α →
      β} (same : ∀ i : Nat, xs[i]?.map f = ys[i]?.map f) : xs.size = ys.size := by
    refine Nat.le_antisymm ?_ ?_
    · have here := same ys.size
      rw [Array.getElem?_eq_none le_rfl, map_none, map_eq_none_iff] at here
      exact Array.getElem?_eq_none_iff.1 here
    · have here := same xs.size
      rw [Array.getElem?_eq_none le_rfl, map_none, eq_comm, map_eq_none_iff] at here
      exact Array.getElem?_eq_none_iff.1 here
  rw [Ast.depth, Ast.depth, size h.stmts, size h.exprs]

/-- Nodes of the same shapes make up the same trees. -/
lemma trees? : ast'.trees? = ast.trees? := by
  rw [Ast.trees?, Ast.trees?, h.topLevel, h.depth, h.stmtTree?]

end Alike

end Ast

namespace Program

open EmLang.Parser

variable {p : Program}

/-- What is known of the trees of an accepted program. -/
structure Legibly (p : Program) (xs : List Tree.Stmt) : Prop where
  trees : p.ast.trees? = some xs
  ordered : stmtsOrdered xs
  fits : stmtsFit 0 xs
  legible : AllLegible (stmtsMarks .free xs)
  typed : ∀ e node, p.ast.expr? e = some node → node.ty ≠ .error

lemma legibly_of_compile {text : List Char} (h : compile text = .ok p) : ∃ xs, p.Legibly xs := by
  obtain ⟨unread, rfl, clean⟩ := of_compile h
  obtain ⟨xs, eof, read⟩ := parse_back (ended_tokenize text) unread
  obtain ⟨alike, checked⟩ := resolve_checked (parse_whole unread).2 (parse (tokenize text)).2
    (.refl _) rfl (parse_forest unread)
  have trees : (parse (tokenize text)).1.trees? = some xs := by
    rw [read.parsed]
    exact trees?_toAst xs
  refine ⟨xs, alike.trees?.trans trees, read.ordered, read.fits, read.legible, fun e node found => ?_⟩
  obtain proper | ⟨kind, before⟩ := (checked clean).1 e node.kind node.ty (by simp [node?, found])
  · exact proper.2
  · obtain ⟨old, found, pair⟩ := map_eq_some_iff.1 before
    rw [← (Prod.mk.inj pair).2, (parse_grown unread).untyped e old (Nat.zero_le e) found]
    rintro ⟨⟩

/-- The printed text is the tokens of trees with the same skeleton, without a semicolon. -/
lemma Legibly.printed {xs : List Tree.Stmt} (h : p.Legibly xs) : ∃ text ys eof,
    p.ast.print ⟨false⟩ = some text ∧ stmtsSkeleton ys = stmtsSkeleton xs ∧ eof.kind = .eof ∧
    Spells (stmtsMarks .bare ys) (tokenize text.toList) [eof] ∧ Unended (tokenize text.toList) := by
  obtain ⟨text, xs', printed, same, lexes⟩ := print_lexes h.typed h.trees h.legible
  obtain ⟨tokens, stop, met, unended, words⟩ := lexes 0 [] nofun
  obtain ⟨ys, same', written⟩ := stmts_exist_of_met xs' met
  have tokenized : tokenize text.toList = tokens ++ [⟨.eof, stop, stop, ""⟩] := by
    rw [List.append_nil, words_nil] at words
    exact words
  refine ⟨text, ys, ⟨.eof, stop, stop, ""⟩, printed, same'.trans same, rfl, ?_⟩
  rw [tokenized]
  refine ⟨written _, ?_⟩
  exact List.forall_mem_append.2 ⟨unended, List.forall_mem_singleton.2 nofun⟩

/-- An accepted program has a text, and exactly where its statements part without semicolons, that
text is read without errors as a program with the same skeleton: the same nodes with the same
operators, numbers and names, and strings where strings were. -/
theorem reread_iff_parted {source : List Char} {p : Program} (accepted : compile source = .ok p) :
    ∃ text xs, p.ast.print ⟨false⟩ = some text ∧ p.ast.trees? = some xs ∧
      ((parse (tokenize text.toList)).2.errors = [] ∧
        (parse (tokenize text.toList)).1.skeleton? = p.ast.skeleton? ↔ stmtsParted xs = true) := by
  obtain ⟨xs, legibly⟩ := legibly_of_compile accepted
  obtain ⟨text, ys, eof, printed, same, isEnd, spelled, unended⟩ := legibly.printed
  refine ⟨text, xs, printed, legibly.trees, ?_⟩
  rw [← stmtsParted_skeleton xs, skeleton?, skeleton?, legibly.trees, map_some]
  constructor
  · rintro ⟨clean, reread⟩
    obtain ⟨zs, last, read⟩ := parse_back (ended_tokenize _) clean
    rw [read.parsed, trees?_toAst, map_some, some.injEq] at reread
    rw [← reread, stmtsParted_skeleton]
    exact read.parted unended
  · intro parted
    rw [← same, stmtsParted_skeleton] at parted
    have ordered : stmtsOrdered ys := by
      rw [← stmtsOrdered_skeleton, same, stmtsOrdered_skeleton]
      exact legibly.ordered
    have fits : stmtsFit 0 ys := by
      rw [← stmtsFit_skeleton, same, stmtsFit_skeleton]
      exact legibly.fits
    rw [parse_written rfl isEnd ordered fits (.inr ⟨rfl, parted⟩) spelled, trees?_toAst, map_some, same]
    exact ⟨rfl, rfl⟩

/-- Functions, loops, strings and signs, with no statement that the next one could go on with. -/
def parting : List Char :=
  ("fx sum(a: int, b: int) -> int \x7b let c = a - -b * 2; return (a + c); \x7d let s = \"a\\n\"; while sum(1, 2) " ++
    "< 3 \x7b s = s + \"b\"; if true == false \x7b s; \x7d else \x7b sum(tick(), 1); \x7d \x7d print(s);").toList

theorem reread_iff_parted_parting : ∃ p, compile parting = .ok p ∧
    ∃ text, p.ast.print ⟨false⟩ = some text ∧ (parse (tokenize text.toList)).2.errors = [] ∧
    (parse (tokenize text.toList)).1.skeleton? = p.ast.skeleton? := by
  have found : ((compile parting).map fun p => p.ast.trees?.any stmtsParted).toOption = some true := by
    rw [show parting = _ from toList_ofList_append ..]
    decide +kernel
  obtain ⟨p, accepted, parted⟩ := exists_of_check found
  obtain ⟨text, xs, printed, trees, reread⟩ := reread_iff_parted accepted
  rw [trees] at parted
  exact ⟨p, accepted, text, printed, reread.2 parted⟩

/-- A `return` without a value, and a call behind it. -/
def joining : List Char := "fx f() \x7b return; print(1); \x7d".toList

/-- Its text. -/
def joined : String := "fx f() \x7b\n    return\n    print(1)\n\x7d\n"

/-- Without the semicolon the `return` takes the call as its value: the text is read without errors,
but not as the program that was printed. -/
theorem joined_return : ∃ p, compile joining = .ok p ∧ p.ast.print ⟨false⟩ = some joined ∧
    (parse (tokenize joined.toList)).2.errors = [] ∧ (parse (tokenize joined.toList)).1.skeleton? ≠
    p.ast.skeleton? := by
  have found : ((compile joining).map fun p => decide (p.ast.print ⟨false⟩ = some joined ∧
      p.ast.skeleton?.map stmtsParted = some false)).toOption = some true := by
    rw [show joining = _ from String.toList_ofList]
    decide +kernel
  obtain ⟨p, accepted, found⟩ := exists_of_check found
  obtain ⟨printed, unparted⟩ := of_decide_eq_true found
  have reread : (parse (tokenize joined.toList)).1.skeleton?.map stmtsParted = some true := by decide +kernel
  refine ⟨p, accepted, printed, by decide +kernel, fun same => ?_⟩
  rw [same, unparted] at reread
  cases reread

end Program

end EmLang
