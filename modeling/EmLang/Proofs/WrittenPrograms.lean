import EmLang.Proofs.WrittenTrees

/-!
Parsing undoes rendering. Statements are followed over their tokens as expressions are. What is
behind a statement is its semicolon or, where semicolons are left out, a token that the statement
does not reach for. A function is read without complaint only where no other function is open.
-/

namespace EmLang

open List

variable {inBody : Bool} {ys xs : List Tree.Stmt} {type : Option Ascription} {P : TokenKind → Prop}

namespace Tree

mutual

/-- No function is declared in a statement. -/
def Stmt.Flat : Stmt → Prop
  | .function .. => False
  | .ifThen _ _ body | .whileLoop _ _ body => body.Flat
  | .ifElse _ _ thenBody elseBody => thenBody.Flat ∧ elseBody.Flat
  | .expr _ | .letVar .. | .ret .. => True

def Body.Flat : Body → Prop
  | .mk _ statements _ => stmtsFlat statements

def stmtsFlat : List Stmt → Prop
  | [] => True
  | x :: xs => x.Flat ∧ stmtsFlat xs

end

/-- A statement at the top of a program: only here a function is declared. -/
def Stmt.Placed : Stmt → Prop
  | .function _ _ _ _ body => body.Flat
  | x => x.Flat

mutual

/-- Where `d` functions are open, a statement may stand: a function only where none is. -/
def Stmt.Fits (d : Nat) : Stmt → Prop
  | .function _ _ _ _ body => d = 0 ∧ body.Fits (d + 1)
  | .ifThen _ _ body | .whileLoop _ _ body => body.Fits d
  | .ifElse _ _ thenBody elseBody => thenBody.Fits d ∧ elseBody.Fits d
  | .expr _ | .letVar .. | .ret .. => True

def Body.Fits (d : Nat) : Body → Prop
  | .mk _ statements _ => stmtsFit d statements

def stmtsFit (d : Nat) : List Stmt → Prop
  | [] => True
  | x :: xs => x.Fits d ∧ stmtsFit d xs

end

mutual

/-- Without functions in it, a statement may stand anywhere. -/
lemma Stmt.Flat.fits (d : Nat) : ∀ {x : Stmt}, x.Flat → x.Fits d
  | .ifThen .., flat | .whileLoop .., flat => Body.Flat.fits d flat
  | .ifElse .., flat => ⟨Body.Flat.fits d flat.1, Body.Flat.fits d flat.2⟩
  | .expr _, _ | .letVar .., _ | .ret .., _ => trivial

lemma Body.Flat.fits (d : Nat) : ∀ {x : Body}, x.Flat → x.Fits d
  | .mk .., flat => stmtsFit_of_flat d flat

lemma stmtsFit_of_flat (d : Nat) : ∀ {xs : List Stmt}, stmtsFlat xs → stmtsFit d xs
  | [], _ => trivial
  | _ :: _, flat => ⟨flat.1.fits d, stmtsFit_of_flat d flat.2⟩

end

lemma Stmt.Placed.fits {x : Stmt} (h : x.Placed) : x.Fits 0 := by
  cases x with
  | function => exact ⟨rfl, Body.Flat.fits 1 h⟩
  | _ => exact Stmt.Flat.fits 0 h

lemma stmtsFit_of_placed : ∀ {xs : List Stmt}, (∀ x ∈ xs, x.Placed) → stmtsFit 0 xs
  | [], _ => trivial
  | x :: _, placed => ⟨(placed x (.head _)).fits, stmtsFit_of_placed fun y mem => placed y (.tail _ mem)⟩

/-- The trees that programs are written from. -/
def WellFormed (xs : List Stmt) : Prop := stmtsOrdered xs ∧ ∀ x ∈ xs, x.Placed

end Tree

namespace Parser

open Text EmLang.Tree

variable {ast : Ast} {marks marks' : List Mark} {s : State} {x : Tree.Expr} {p : Punctuation}
  {α β : Type} {rest rest' : List Token} {b : β}

/-! ### Types and parameters -/

lemma Rereads.bind_const {add : Ast → Ast × α} {reader : Parse α} {f : α → Parse β}
    (h : Rereads (fun _ => reader) 0 P marks add) (written : Spells (marks ++ marks') s.tokens rest)
    (next : ∀ {mid}, Spells marks' mid rest → Next P mid) (more : ∀ t, Moved s t t.tokens
      (add s.ast).1 → Spells marks s.tokens t.tokens → Spells marks' t.tokens rest →
      Gives (f (add s.ast).2) t b rest' ast) : Gives (reader >>= f) s b rest' ast :=
  h.bind (n := 8 * s.tokens.length) written next le_rfl more

lemma ascription_rereads (type : Ascription) : Rereads (fun _ => ascription) 0 (fun _ => True)
    (ascriptionMarks type) fun ast => (ast, type) := by
  intro n s rest written next _
  refine expect_bind written next.ne_nil nofun fun t moved _ written => ?_
  refine expect_bind written next.ne_nil nofun fun u moved1 _ written => ?_
  rw [← moved.ast, ← moved1.ast, ← written.of_nil]
  exact gives_pure _ u

lemma type?_bind {f : Option Ascription → Parse β} (type : Option Ascription)
    (written : Spells ((type.map ascriptionMarks).getD [] ++ marks) s.tokens rest)
    (next : ∀ {mid}, Spells marks mid rest → Next (· ≠ .colon) mid)
    (more : ∀ t, Moved s t t.tokens s.ast → t.tokens.length ≤ s.tokens.length →
      Spells marks t.tokens rest → Gives (f type) t b rest' ast) : Gives (if s.current.kind =
      .colon then some <$> ascription >>= f else pure none >>= f) s b rest' ast := by
  cases type with
  | none =>
    have plain : s.current.kind ≠ .colon := by
      obtain ⟨token, more, here, other⟩ := next written
      obtain ⟨rfl, -⟩ := cons.inj here
      exact other
    rw [if_neg plain]
    exact more s (.refl s) le_rfl written
  | some type =>
    rw [if_pos (congrArg Token.kind (current_of_kept written))]
    obtain ⟨mid, first, second⟩ := written.split
    have given := (ascription_rereads type first ((next second).imp fun _ _ => trivial)
      (le_refl (8 * _))).map some
    refine given.bind fun t moved => ?_
    have tokens := moved.tokens
    subst tokens
    exact more t moved first.length_le second

lemma returnType_rereads (type : Option ReturnType) : Rereads (fun _ => returnType) 0 (· ≠ .arrow)
    ((type.map returnTypeMarks).getD []) fun ast => (ast, type) := by
  intro n s rest written next _
  cases type with
  | none =>
    have plain : s.current.kind ≠ .arrow := by
      obtain ⟨token, more, rfl, other⟩ := next
      obtain ⟨rfl, -⟩ := cons.inj written.of_nil
      exact other
    refine accept?_none_bind plain ?_
    rw [← written.of_nil]
    exact gives_pure none s
  | some type =>
    obtain ⟨more, here, written⟩ := Spells.of_kept written
    refine (accept?_gives here (written.ne_nil next.ne_nil) nofun).bind fun t moved => ?_
    rw [← moved.tokens] at written
    refine expect_bind written next.ne_nil nofun fun u moved1 _ written => ?_
    rw [← moved.ast, ← moved1.ast, ← written.of_nil]
    exact gives_pure _ u

lemma parameters_nil : Rereads parameters 7 (· = .rightParen) [] fun ast => (ast, []) :=
  rereads_nil le_rfl fun _ => rfl

lemma parameters_cons {add : Ast → Ast × List Parameter} (parameter : Parameter)
    (h : Rereads parameters 7 (· = .rightParen) marks add) (behind : marks' =
      .sign .comma :: marks ∨ marks' = [] ∧ marks = []) : Rereads parameters 7 (· = .rightParen)
    (parameterMarks parameter ++ marks') fun ast => ((add ast).1, parameter :: (add ast).2) := by
  intro n s rest written next deep
  obtain ⟨n, rfl⟩ := s.exists_bound deep (by decide)
  refine gives_currentKind (gives_currentKind ?_)
  have named := congrArg Token.kind (current_of_kept written)
  rw [if_neg (by rw [named]; rintro (closes | ends) <;> contradiction)]
  refine expect_bind written next.ne_nil nofun fun t moved less written => ?_
  refine (ascription_rereads parameter.ascription).bind_const written
    (fun h => .of_ne_nil (h.ne_nil next.ne_nil)) fun u moved1 first written => ?_
  have fewer := first.length_le
  have others := separator_gives (parameter :: ·) h behind written next (by omega : _ ≤ n + 7)
  rw [moved1.ast, moved.ast] at others
  exact others

lemma parameters_rereads : ∀ parameters : List Parameter, Rereads Parser.parameters 7
    (· = .rightParen) (commas .full (parameters.map parameterMarks)) fun ast => (ast, parameters)
  | [] => parameters_nil
  | [parameter] => parameters_cons parameter parameters_nil (.inr ⟨rfl, rfl⟩)
  | parameter :: second :: others =>
      parameters_cons parameter (parameters_rereads (second :: others)) (.inl rfl)

/-! ### Statements -/

/-- What may come behind a statement and its punctuation: anything behind a semicolon, and without
one only what the statement does not reach for. -/
def Clear (p : Punctuation) (y : Tree.Stmt) (kind : TokenKind) : Prop :=
  p.afterStmt = [.sign .semicolon] ∨ p.afterStmt = [] ∧ y.EndsBefore kind ∧ kind ≠ .semicolon

section

variable {y : Tree.Stmt} {inner other : Tree.Body} {rest rest' mid : List Token} {d n k : Nat}
  {ast' : Ast}


/-- A statement and its punctuation are read where `d` functions are open. -/
def RereadsStmt (d : Nat) (p : Punctuation) (y : Tree.Stmt) : Prop :=
  RereadsAt d statement 3 (Clear p y) (y.marks p ++ p.afterStmt) (y.addTo ·)

def RereadsBody (d : Nat) (p : Punctuation) (inner : Tree.Body) : Prop :=
  RereadsAt d body 7 (fun _ => True) (inner.marks p) (inner.addTo ·)

/-- With its punctuation or without, a statement is whole before what follows. -/
lemma Next.endsBefore (clear : Next (Clear p y) rest) (written : Spells p.afterStmt mid rest) :
    Next y.EndsBefore mid := by
  obtain ⟨token, more, rfl, ended | ⟨none, ends, -⟩⟩ := clear
  · rw [ended] at written
    exact .of_sign (y.endsBefore_of (.inl rfl)) written
  · rw [none] at written
    exact ⟨token, more, written.of_nil, ends⟩

/-- The semicolon behind a statement is taken, if there is one. -/
lemma ended_gives {id : StmtId} (written : Spells p.afterStmt s.tokens rest) (clear : Next (Clear p y) rest) :
    Gives (do let _ ← accept? .semicolon; return id) s id rest s.ast := by
  have filled := clear.ne_nil
  obtain ⟨token, more, rfl, ended | ⟨none, -, other⟩⟩ := clear
  · rw [ended] at written
    refine accept?_sign_bind written filled nofun fun span t moved _ written => ?_
    rw [← moved.ast, ← written.of_nil]
    exact gives_pure id t
  · rw [none] at written
    have here := written.of_nil
    obtain ⟨rfl, -⟩ := cons.inj here
    refine accept?_none_bind other ?_
    rw [← here]
    exact gives_pure id s

variable {keyword name : Span}

lemma letStatement_rereads (h : RereadsExpr p x) :
    Rereads letStatement 4 (Stmt.letVar keyword name type x).EndsBefore
    ((Stmt.letVar keyword name type x).marks p) ((Stmt.letVar keyword name type x).addTo ·) := by
  intro n s rest written next deep
  refine expect_bind written next.ne_nil nofun fun t moved less written => ?_
  refine expect_bind written next.ne_nil nofun fun u moved1 less1 written => gives_currentKind ?_
  refine type?_bind type written (.of_sign nofun) fun v moved2 le2 written => ?_
  refine expect_sign_bind written next.ne_nil nofun fun _ w moved3 less3 written => ?_
  refine (h written next (by omega)).bind fun end_ moved4 => ?_
  rw [← moved.ast, ← moved1.ast, ← moved2.ast, ← moved3.ast]
  exact addStmt_last (moved4.tokens ▸ .nil _) moved4.ast _

lemma returnStatement_none : Rereads returnStatement 4 (Stmt.ret keyword none).EndsBefore
    ((Stmt.ret keyword none).marks p) ((Stmt.ret keyword none).addTo ·) := by
  intro n s rest written next deep
  refine expect_bind written next.ne_nil nofun fun t moved less written => gives_currentKind ?_
  have ends : t.current.kind = .semicolon ∨ t.current.kind = .closeBrace ∨ t.current.kind = .eof := by
    obtain ⟨token, more, rfl, ends⟩ := next
    obtain ⟨rfl, -⟩ := cons.inj written.of_nil
    exact ends
  rw [if_pos ends]
  exact addStmt_last written moved.ast _

lemma returnStatement_some (h : RereadsExpr p x) :
    Rereads returnStatement 4 (Stmt.ret keyword (some x)).EndsBefore
    ((Stmt.ret keyword (some x)).marks p) ((Stmt.ret keyword (some x)).addTo ·) := by
  intro n s rest written next deep
  refine expect_bind written next.ne_nil nofun fun t moved less written => gives_currentKind ?_
  have begun := current_begins (written.append (.nil rest))
  rw [if_neg (not_or.2 ⟨ne_of_begins begun rfl, not_or.2 ⟨ne_of_begins begun rfl, ne_of_begins begun rfl⟩⟩)]
  refine ((h written next (by omega)).map some).bind fun u moved1 => ?_
  rw [← moved.ast]
  exact addStmt_last (moved1.tokens ▸ .nil _) moved1.ast _

lemma ended_bind {reader : Nat → Parse StmtId} (h : Rereads reader k y.EndsBefore
      (y.marks p) (y.addTo ·)) (written : Spells (y.marks p ++ p.afterStmt) s.tokens rest)
    (clear : Next (Clear p y) rest) (deep : 8 * s.tokens.length ≤ n + k) :
    Gives (reader n >>= fun id => do let _ ← accept? .semicolon; return id) s (y.addTo s.ast).2 rest
    (y.addTo s.ast).1 := by
  refine h.bind written clear.endsBefore deep fun t moved _ written => ?_
  rw [← moved.ast]
  exact ended_gives written clear

lemma addStmt_ended {kind : StmtKind} (written : Spells p.afterStmt s.tokens rest)
    (clear : Next (Clear p y) rest) (same : s.ast = ast) :
    Gives (addStmt kind >>= fun id => do let _ ← accept? .semicolon; return id) s
    (ast.addStmt kind).2 rest (ast.addStmt kind).1 := by
  refine (addStmt_gives kind s).bind fun t moved => ?_
  rw [← moved.tokens] at written
  rw [← same, ← moved.ast]
  exact ended_gives written clear

lemma statement_expr (h : RereadsExpr p x) : RereadsStmt d p (.expr x) := by
  intro n s rest _ written clear deep
  obtain ⟨n, rfl⟩ := s.exists_bound deep (by decide)
  have begun := current_begins written
  refine gives_currentKind ?_
  split
  case h_6 =>
    refine Rereads.bind h written clear.endsBefore (by omega) fun t moved _ written => ?_
    exact addStmt_ended written clear moved.ast
  all_goals exact absurd ‹_› (ne_of_begins begun rfl)

lemma statement_ret
    {value : Option Tree.Expr} (h : Rereads returnStatement 4 (Stmt.ret keyword value).EndsBefore
      ((Stmt.ret keyword value).marks p) ((Stmt.ret keyword value).addTo ·)) :
    RereadsStmt d p (.ret keyword value) := by
  intro n s rest _ written clear deep
  obtain ⟨n, rfl⟩ := s.exists_bound deep (by decide)
  refine gives_currentKind ?_
  rw [current_of_kept written]
  exact ended_bind h written clear (by omega)

lemma statement_let (h : RereadsExpr p x) : RereadsStmt d p (.letVar keyword name type x) := by
  intro n s rest _ written clear deep
  obtain ⟨n, rfl⟩ := s.exists_bound deep (by decide)
  refine gives_currentKind ?_
  rw [current_of_kept written]
  exact ended_bind (letStatement_rereads h) written clear (by omega)

lemma Next.of_body (fits : P .openBrace) (h : Spells (inner.marks p ++ marks) mid rest) : Next P mid := by
  cases inner
  exact .of_kept fits h

/-- A keyword, a condition and a body are read, and then what is behind them. -/
lemma headed_bind {kind : TokenKind} {β : Type} {f : Token → ExprId → EmLang.Body → Parse β}
    {b : β} (hx : RereadsExpr p x) (hb : RereadsBody d p inner) (opened : s.depth = d)
    (written : Spells (.kept ⟨kind, keyword⟩ :: (x.marks p ++ (inner.marks p ++ marks))) s.tokens rest)
    (filled : rest ≠ []) (other : kind ≠ .eof) (deep : 8 * s.tokens.length ≤ n + 4)
    (more : ∀ t, t.depth = d → t.ast = (inner.addTo (x.addTo s.ast).1).1 →
      t.tokens.length < s.tokens.length → Spells marks t.tokens rest →
      Gives (f ⟨kind, keyword⟩ (x.addTo s.ast).2 (inner.addTo (x.addTo s.ast).1).2) t b rest' ast) :
    Gives (do
      let keyword ← expect kind
      let condition ← expression n
      let inner ← body n
      f keyword condition inner) s b rest' ast := by
  refine expect_bind written filled other fun t moved less written => ?_
  refine Rereads.bind hx written (.of_body ⟨fun _ => nofun, nofun, rfl⟩) (by omega)
    fun u moved1 first written => ?_
  have fewer := first.length_le
  have opened1 := moved1.depth.trans (moved.depth.trans opened)
  refine RereadsAt.bind hb opened1 written (fun h => .of_ne_nil (h.ne_nil filled)) (by omega)
    fun v moved2 second written => ?_
  have fewer' := second.length_le
  rw [moved1.ast, moved.ast] at moved2 ⊢
  exact more v (moved2.depth.trans opened1) moved2.ast (by omega) written

section

variable (hx : RereadsExpr p x) (hb : RereadsBody d p inner)

include hx hb

lemma statement_if : RereadsStmt d p (.ifThen keyword x inner) := by
  intro n s rest opened written clear deep
  obtain ⟨n, rfl⟩ := s.exists_bound deep (by decide)
  rw [Stmt.marks, cons_append, append_assoc] at written
  refine gives_currentKind ?_
  rw [current_of_kept written]
  refine headed_bind hx hb opened written clear.ne_nil nofun (by omega) fun t _ same _ written => ?_
  have plain : t.current.kind ≠ .elseWord := by
    obtain ⟨token, more, here, other⟩ := clear.endsBefore written
    obtain ⟨rfl, -⟩ := cons.inj here
    exact other
  exact accept?_none_bind plain (addStmt_ended written clear same)

lemma statement_ifElse (ho : RereadsBody d p other) : RereadsStmt d p (.ifElse keyword x inner other) := by
  intro n s rest opened written clear deep
  obtain ⟨n, rfl⟩ := s.exists_bound deep (by decide)
  simp only [Stmt.marks, cons_append, append_assoc] at written
  refine gives_currentKind ?_
  rw [current_of_kept written]
  refine headed_bind hx hb opened written clear.ne_nil nofun (by omega) fun t opened1 same less written => ?_
  refine accept?_sign_bind written clear.ne_nil nofun fun _ u moved less1 written => ?_
  refine (RereadsAt.map ho some).bind (moved.depth.trans opened1) written
    (fun h => .of_ne_nil (h.ne_nil clear.ne_nil)) (by omega) fun v moved1 _ written => ?_
  rw [moved.ast, same] at moved1 ⊢
  exact addStmt_ended written clear moved1.ast

lemma statement_while : RereadsStmt d p (.whileLoop keyword x inner) := by
  intro n s rest opened written clear deep
  obtain ⟨n, rfl⟩ := s.exists_bound deep (by decide)
  rw [Stmt.marks, cons_append, append_assoc] at written
  refine gives_currentKind ?_
  rw [current_of_kept written]
  exact headed_bind hx hb opened written clear.ne_nil nofun (by omega) fun t _ same _ written =>
    addStmt_ended written clear same

end

/-- A body is read with one more function open. -/
lemma deeper_bind {α β : Type} {act : Parse α}
    {f : α → Parse β} {a : α} {b : β} (h : Gives act { s with depth := s.depth + 1 } a rest ast)
    (more : ∀ t, Moved s t rest ast → Gives (f a) t b rest' ast') : Gives (do
      modify fun s => { s with depth := s.depth + 1 }
      let a ← act
      modify fun s => { s with depth := s.depth - 1 }
      f a) s b rest' ast' := by
  simp only [Gives, post_bind, post_modify]
  refine h.post fun t moved => ?_
  have back : Moved s { t with depth := t.depth - 1 } rest ast := ⟨moved.tokens, moved.ast,
    moved.report, by rw [moved.depth]; rfl⟩
  exact (more _ back).imp fun _ _ h => ⟨h.1, back.trans h.2⟩

lemma statement_function {ps : List Parameter} {type : Option ReturnType}
    (hp : Rereads parameters 7 (· = .rightParen) (commas p (ps.map parameterMarks)) fun ast => (ast, ps))
    (hb : RereadsBody 1 p inner) : RereadsStmt 0 p (.function keyword name ps type inner) := by
  intro n s rest top written clear deep
  have filled := clear.ne_nil
  obtain ⟨n, rfl⟩ := s.exists_bound deep (by decide)
  simp only [Stmt.marks, cons_append, append_assoc] at written
  refine gives_currentKind ?_
  rw [current_of_kept written]
  refine expect_bind written filled nofun fun t moved less written => ?_
  refine expect_bind written filled nofun fun u moved1 less1 written => ?_
  have shut : ¬ 0 < u.depth := by
    rw [moved1.depth, moved.depth, top]
    exact lt_irrefl 0
  refine gives_get ?_
  rw [if_neg shut]
  refine expect_sign_bind written filled nofun fun _ v moved2 less2 written => ?_
  refine hp.bind written (.of_sign (P := (· = .rightParen)) rfl) (by omega) fun w moved3 first written => ?_
  have fewer := first.length_le
  refine expect_sign_bind written filled nofun fun _ s1 moved4 less4 written => ?_
  refine (returnType_rereads type).bind_const written (.of_body nofun) fun s2 moved5 second written => ?_
  have fewer' := second.length_le
  obtain ⟨mid, third, written⟩ := written.split
  have opened : s2.depth + 1 = 1 := by rw [moved5.depth, moved4.depth, moved3.depth, moved2.depth,
    moved1.depth, moved.depth, top]
  refine deeper_bind
    (hb (s := { s2 with depth := s2.depth + 1 }) opened third (.of_ne_nil (written.ne_nil filled))
    (show 8 * s2.tokens.length ≤ n + 7 by omega)) fun s3 moved6 => ?_
  rw [← moved6.tokens] at written
  have kept : s2.ast = s.ast := by rw [moved5.ast, moved4.ast, moved3.ast, moved2.ast, moved1.ast, moved.ast]
  rw [← kept]
  exact addStmt_ended written clear moved6.ast

/-! ### Bodies and programs -/

/-- Where no other statement is read. -/
def Finished (inBody : Bool) (kind : TokenKind) : Prop := kind = .eof ∨ inBody ∧ kind = .closeBrace

/-- Statements are apart: by semicolons, or without them. -/
def Divided (p : Punctuation) (parted : Bool) : Prop :=
  p.afterStmt = [.sign .semicolon] ∨ p.afterStmt = [] ∧ parted = true

lemma Divided.and {a b : Bool} (h : Divided p (a && b)) : Divided p a ∧ Divided p b := by
  obtain ended | ⟨none, both⟩ := h
  · exact ⟨.inl ended, .inl ended⟩
  · obtain ⟨first, second⟩ := Bool.and_eq_true_iff.1 both
    exact ⟨.inr ⟨none, first⟩, .inr ⟨none, second⟩⟩

/-- Statements are read where `d` functions are open. -/
def RereadsStmts (d : Nat) (p : Punctuation) (inBody : Bool) (ys : List Tree.Stmt) : Prop :=
  RereadsAt d (statements · inBody) 2 (Finished inBody) (stmtsMarks p ys) (addStmts · ys)

/-- Behind a statement that is apart from the next one its reader stops. -/
lemma Divided.clear (h : Divided p (ys.head?.all fun z => decide (y.EndsBefore z.head)))
    (written : Spells (stmtsMarks p ys) mid rest) (next : Next (Finished inBody) rest) :
    Next (Clear p y) mid := by
  obtain ended | ⟨none, parted⟩ := h
  · exact (Next.of_ne_nil (written.ne_nil next.ne_nil)).imp fun _ _ => .inl ended
  · cases ys with
    | nil =>
      rw [Spells.of_nil written]
      refine next.imp fun kind finished => .inr ⟨none, ?_⟩
      obtain rfl | ⟨-, rfl⟩ := finished
      · exact ⟨y.endsBefore_of (.inr (.inr rfl)), nofun⟩
      · exact ⟨y.endsBefore_of (.inr (.inl rfl)), nofun⟩
    | cons z zs =>
      obtain ⟨behind, first, -⟩ := written.split
      obtain ⟨token, more, rfl, same, -⟩ := z.spells_head first
      refine ⟨token, more, rfl, .inr ⟨none, ?_⟩⟩
      rw [same]
      exact ⟨of_decide_eq_true parted, z.head_ne rfl (by decide)⟩

/-- A statement is read, and then those behind it. -/
lemma statements_cons (h : RereadsStmt d p y) (more : RereadsStmts d p inBody ys)
    (divided : Divided p (ys.head?.all fun z => decide (y.EndsBefore z.head))) :
    RereadsStmts d p inBody (y :: ys) := by
  intro n s rest opened written next deep
  obtain ⟨n, rfl⟩ := s.exists_bound deep (by decide)
  rw [stmtsMarks, ← append_assoc] at written
  obtain ⟨mid, first, second⟩ := written.split
  obtain ⟨behind, own, semicolon⟩ := first.split
  obtain ⟨token, others, here, notEnd, notClose, le⟩ := y.first own
  have fewer := semicolon.length_le
  have length := congrArg List.length here
  rw [length_cons] at length
  obtain ⟨current, -⟩ := cons.inj here
  refine gives_currentKind ?_
  rw [current, if_neg (not_or.2 ⟨notEnd, fun ⟨_, closes⟩ => notClose closes⟩)]
  refine (h opened first (divided.clear second next) (by omega)).bind fun t moved => ?_
  have tokens := moved.tokens
  subst tokens
  have given := (more (n := n) (moved.depth.trans opened) second next (by omega)).map ((y.addTo s.ast).2 :: ·)
  rw [moved.ast] at given
  exact given

lemma statements_nil (inBody : Bool) : RereadsStmts d p inBody [] := by
  intro n s rest _ written next deep
  obtain ⟨n, rfl⟩ := s.exists_bound deep (by decide)
  obtain ⟨token, more, rfl, ends⟩ := next
  have here := Spells.of_nil written
  obtain ⟨rfl, -⟩ := cons.inj here
  refine gives_currentKind ?_
  rw [if_pos (show _ ∨ _ from ends), ← here]
  exact gives_pure [] s

lemma body_of_statements {closeBrace openBrace : Span} (h : RereadsStmts d p true xs) :
    RereadsBody d p (.mk openBrace xs closeBrace) := by
  intro n s rest opened written next deep
  obtain ⟨n, rfl⟩ := s.exists_bound deep (by decide)
  refine expect_bind written next.ne_nil nofun fun t moved less written => ?_
  refine RereadsAt.bind h (moved.depth.trans opened) written
    (.of_kept (P := Finished true) (.inr ⟨rfl, rfl⟩)) (by omega) fun u moved1 _ written => ?_
  refine expect_bind written next.ne_nil nofun fun v moved2 _ written => ?_
  have given := gives_pure (⟨openBrace, (addStmts t.ast xs).2, closeBrace⟩ : EmLang.Body) v
  rw [written.of_nil, moved2.ast, moved1.ast, moved.ast] at given
  rw [moved.ast]
  exact given

end

section

variable (sparse : p.afterLast = [])
include sparse

lemma expression_rereads (ordered : x.Ordered) : RereadsExpr p x := by
  rw [RereadsExpr, x.marks_congr (q := .full) sparse]
  exact (rereading x ordered).expression

lemma listed_rereads (ps : List Parameter) : Rereads parameters 7 (· = .rightParen)
    (commas p (ps.map parameterMarks)) fun ast => (ast, ps) := by
  rw [commas_congr (q := .full) sparse]
  exact parameters_rereads ps

end

mutual

/-- Every statement that fits where it stands is read again. -/
theorem stmt_rereads {p : Punctuation} (sparse : p.afterLast = []) {d : Nat} :
    ∀ y : Tree.Stmt, y.Ordered → y.Fits d → Divided p y.parted → RereadsStmt d p y
  | .expr _, ordered, _, _ => statement_expr (expression_rereads sparse ordered)
  | .letVar .., ordered, _, _ => statement_let (expression_rereads sparse ordered)
  | .ret _ none, _, _, _ => statement_ret returnStatement_none
  | .ret _ (some _), ordered, _, _ => statement_ret (returnStatement_some (expression_rereads sparse ordered))
  | .ifThen _ _ inner, ordered, fits, divided =>
    statement_if (expression_rereads sparse ordered.1) (body_rereads sparse inner ordered.2 fits divided)
  | .ifElse _ _ inner other, ordered, fits, divided =>
    statement_ifElse (expression_rereads sparse ordered.1)
      (body_rereads sparse inner ordered.2.1 fits.1 divided.and.1)
      (body_rereads sparse other ordered.2.2 fits.2 divided.and.2)
  | .whileLoop _ _ inner, ordered, fits, divided =>
    statement_while (expression_rereads sparse ordered.1) (body_rereads sparse inner ordered.2 fits divided)
  | .function _ _ ps _ inner, ordered, ⟨top, fits⟩, divided => by
    subst top
    exact statement_function (listed_rereads sparse ps) (body_rereads sparse inner ordered fits divided)

theorem body_rereads {d : Nat} {p : Punctuation} (sparse : p.afterLast = []) : ∀ inner : Tree.Body,
    inner.Ordered → inner.Fits d → Divided p inner.parted → RereadsBody d p inner
  | .mk _ xs _, ordered, fits, divided => body_of_statements (stmts_rereads sparse true xs ordered fits divided)

theorem stmts_rereads {d : Nat} {p : Punctuation} (sparse : p.afterLast = []) (inBody : Bool) :
    ∀ xs : List Tree.Stmt, stmtsOrdered xs → stmtsFit d xs → Divided p (stmtsParted xs) →
    RereadsStmts d p inBody xs
  | [], _, _, _ => statements_nil inBody
  | y :: ys, ordered, fits, divided =>
    have ⟨first, others⟩ := divided.and
    statements_cons (stmt_rereads sparse y ordered.1 fits.1 first.and.1)
    (stmts_rereads sparse inBody ys ordered.2 fits.2 others) first.and.2

end

/-- A program that is written out is read again, functions among its statements. -/
lemma parse_written {eof : Token} {tokens : List Token} (sparse : p.afterLast = []) (isEnd : eof.kind = .eof)
    (ordered : stmtsOrdered xs) (fits : stmtsFit 0 xs) (divided : Divided p (stmtsParted xs))
    (written : Spells (stmtsMarks p xs) tokens [eof]) : parse tokens = (toAst xs, .empty) := by
  obtain ⟨current, rest, rfl⟩ := exists_cons_of_ne_nil (written.ne_nil (cons_ne_nil _ _))
  have reads := stmts_rereads sparse false xs ordered fits divided
  obtain ⟨t, run, moved⟩ := (reads (n :=
    depthFor (rest.length + 1)) (s := ⟨current, rest, .empty, .empty, 0⟩) rfl written ⟨eof, [], rfl,
    .inl isEnd⟩ (by show 8 * (rest.length + 1) ≤ 8 * (rest.length + 1 + 1) + 2; omega)).run
  simp only [parse, headD_cons, tail_cons, length_cons, run, moved.ast, moved.report]
  rfl

/-- Parsing undoes rendering. When a well-formed program is written out, with a semicolon behind
every statement and with commas between parameters and between arguments, then what is read is that
program, numbered in the order in which nodes are added, and nothing is reported. -/
theorem parse_of_spells {xs : List Tree.Stmt} {eof : Token} (formed : WellFormed xs) (isEnd : eof.kind = .eof) :
    (∃ tokens, Spells (stmtsMarks .full xs) tokens [eof]) ∧
      ∀ tokens, Spells (stmtsMarks .full xs) tokens [eof] →
        parse tokens = (toAst xs, .empty) ∧ (parse tokens).1.trees? = some xs := by
  refine ⟨Spells.exists _ _, fun tokens written => ?_⟩
  rw [parse_written rfl isEnd formed.1 (stmtsFit_of_placed formed.2) (.inl rfl) written]
  exact ⟨rfl, trees?_toAst xs⟩

/--
`fx f(a: int, b: int) -> int { return a - b - -1 * (a + b); }; if f(1, 2) < 3 { x = 4; } else { };`,
with spans that hold only their texts. -/
def difference : List Tree.Stmt :=
  let span (text : String) : Span := ⟨0, 0, text⟩
  let int : Ascription := ⟨span ":", span "int"⟩
  let sum : Tree.Expr := .binary .add (span "+") (.var (span "a")) (.var (span "b"))
  [.function (span "fx") (span "f") [⟨span "a", int⟩, ⟨span "b", int⟩] (some ⟨span "->",
    span "int"⟩) (.mk (span "") [.ret (span "return") (some (.binary .sub (span "-")
    (.binary .sub (span "-") (.var (span "a")) (.var (span "b"))) (.binary .mul (span "*")
    (.negate (span "-") (.number (span "1") 1)) (.paren (span "(") sum (span ")")))))] (span "")),
    .ifElse (span "if") (.binary .lt (span "<") (.call (span "f") (span "(") [.number (span "1") 1,
    .number (span "2") 2] (span ")")) (.number (span "3") 3)) (.mk (span "") [.expr
    (.assign (span "x") (span "=") (.number (span "4") 4))] (span "")) (.mk (span "") [] (span ""))]

theorem parse_of_spells_difference : WellFormed difference ∧ ∃ tokens, (parse tokens).1.trees? =
    some difference ∧ (parse tokens).2 = .empty := by
  have formed : WellFormed difference := by
    simp [WellFormed, difference, stmtsOrdered, Stmt.Ordered, Body.Ordered, Expr.Ordered,
      exprsOrdered, Expr.grade, BinaryOp.precedence, Stmt.Placed, Stmt.Flat, Body.Flat, stmtsFlat]
  obtain ⟨⟨tokens, written⟩, reads⟩ :=
    parse_of_spells formed (show (⟨.eof, ⟨0, 0, ""⟩⟩ : Token).kind = .eof from rfl)
  obtain ⟨read, trees⟩ := reads tokens written
  exact ⟨formed, tokens, trees, congrArg Prod.snd read⟩

end Parser

end EmLang
