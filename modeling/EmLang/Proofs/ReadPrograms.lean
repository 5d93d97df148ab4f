import EmLang.Proofs.ReadTokens
import EmLang.Proofs.WrittenPrograms

/-!
What the parser accepts is what it read. Statements are followed as expressions are, with the
semicolon that may stand behind each of them, and a program ends where its tokens do.
-/

namespace EmLang.Parser

open Text EmLang.Tree

variable {s t : State} {n m : Nat} {rest tokens : List Token}

/-! ### Types and parameters -/

lemma ascription_walks (closed : Closed s) : Walks ascription ascription s (Further s) fun type t =>
    t.ast = s.ast ∧ Spells (ascriptionMarks type) s.tokens t.tokens := by
  refine (expect_walks closed .colon nofun).finds (fun _ _ => id) fun colon s1 first _ =>
    (expect_walks (first.closed closed) .identifier nofun).bind fun typeName s2 _ _ => ?_
  exact walks_pure fun ⟨isName, took1⟩ ⟨isColon, took⟩ => ⟨took1.ast.trans took.ast,
    (took.kept isColon).append (took1.kept isName)⟩

lemma returnType_walks (closed : Closed s) : Walks returnType returnType s Anywhere fun type t =>
    t.ast = s.ast ∧ Spells ((type.map returnTypeMarks).getD []) s.tokens t.tokens := by
  refine (accept?_walks closed .arrow nofun).bind fun taken s1 first _ => ?_
  cases taken with
  | none =>
    refine walks_pure ?_
    rintro (⟨-, -, rfl⟩ | ⟨_, no, -⟩)
    · exact ⟨rfl, .nil _⟩
    · cases no
  | some arrow =>
    refine (expect_walks (first.closed closed) .identifier nofun).bind fun typeName s2 _ _ => walks_pure ?_
    rintro ⟨isName, took1⟩ (⟨no, -⟩ | ⟨_, same, isArrow, took⟩)
    · cases no
    · cases same
      exact ⟨took1.ast.trans took.ast, (took.kept isArrow).append (took1.kept isName)⟩

lemma parameters_turns (closed : Closed s) (other : s.current.kind ≠ .rightParen ∧ s.current.kind ≠ .eof) :
    Turns (parameters (n + 1)) (parameters (m + 1)) (parameters n) (parameters m) s (Further s) fun p t =>
      ∃ mid, mid.ast = s.ast ∧ Spells (parameterMarks p) s.tokens mid.tokens ∧ Separated mid t := by
  refine turns_currentKind (Turns.ite (fun stop => absurd stop (not_or.2 other)) fun _ => ?_)
  refine (expect_walks closed .identifier nofun).turns (fun _ _ => id) fun name s1 first _ => ?_
  refine ((ascription_walks (first.closed closed)).turns (fun _ _ => id) fun type s2 second _ => ?_).anywhere
  refine separator_turns ((first.trans second).closed closed)
    fun t separated ⟨same, spelled⟩ ⟨isName, took⟩ => ?_
  exact ⟨s2, same.trans took.ast, (took.kept isName).append spelled, separated⟩

lemma parameters_walks (closed : Closed s) (few : s.tokens.length ≤ n) (le : n ≤ m) :
    Walks (parameters n) (parameters m) s Anywhere fun ps t =>
    t.ast = s.ast ∧ Spells (commas .free (ps.map parameterMarks)) s.tokens t.tokens := by
  induction n generalizing s m with
  | zero => exact absurd few (Nat.not_le.2 s.tokens_pos)
  | succ n ih =>
    obtain ⟨m, rfl⟩ := Nat.exists_eq_succ_of_ne_zero (Nat.ne_zero_of_lt le)
    by_cases stop : s.current.kind = .rightParen ∨ s.current.kind = .eof
    · exact walks_currentKind (walks_currentKind (Walks.ite (fun _ => walks_pure ⟨rfl, .nil _⟩) (absurd stop)))
    · have other := not_or.1 stop
      refine (parameters_turns closed other).walks fun p s1 first further => ?_
      have less := further other.2
      refine (ih (first.closed closed) (by omega) (by omega)).imp ?_
      rintro ps u ⟨kept, spelled⟩ ⟨mid, same, own, separated⟩
      refine ⟨kept.trans (separated.ast.trans same), separated.commas own spelled fun closes => ?_⟩
      cases ps with
      | nil => rfl
      | cons p ps =>
        obtain ⟨mid, first⟩ := spells_part spelled
        obtain ⟨more, here, -⟩ := first.of_kept
        obtain ⟨current, -⟩ := List.cons.inj here
        rw [current] at closes
        cases closes

/-! ### Statements -/

/-- No token is a semicolon. -/
def Unended (tokens : List Token) : Prop := ∀ token ∈ tokens, token.kind ≠ .semicolon

lemma Unended.behind {marks : List Mark} (h : Unended tokens) (written : Spells marks tokens rest) :
    Unended rest :=
  fun token mem => h token (written.suffix.mem mem)

lemma Unended.absent (h : Unended tokens) (written : Spells [.optional .semicolon] tokens rest) :
    tokens = rest := by
  cases written with
  | present => exact absurd rfl (h _ (.head _))
  | absent _ more => exact more.of_nil

/-- Between two states a statement is read, and what follows could not be joined with it. Without
semicolons the same holds inside. -/
structure ReadStmt (d : Nat) (s : State) (y : Tree.Stmt) (id : StmtId) (t : State) : Prop where
  ordered : y.Ordered
  fits : y.Fits d
  spelled : Spells (y.marks .free) s.tokens t.tokens
  added : y.addTo s.ast = (t.ast, id)
  ends : y.EndsBefore t.current.kind
  parted : Unended s.tokens → y.parted = true

/-- Between two states statements in braces are read. -/
structure ReadBody (d : Nat) (s : State) (y : Tree.Body) (inner : EmLang.Body) (t : State) : Prop where
  ordered : y.Ordered
  fits : y.Fits d
  spelled : Spells (y.marks .free) s.tokens t.tokens
  added : y.addTo s.ast = (t.ast, inner)
  parted : Unended s.tokens → y.parted = true

structure ReadStmts (d : Nat) (s : State) (ys : List Tree.Stmt) (ids : List StmtId) (t : State) : Prop where
  ordered : stmtsOrdered ys
  fits : stmtsFit d ys
  spelled : Spells (stmtsMarks .free ys) s.tokens t.tokens
  added : addStmts s.ast ys = (t.ast, ids)
  parted : Unended s.tokens → stmtsParted ys = true

/-- A statement is read, and possibly a semicolon behind it. -/
def ReadEnded (d : Nat) (s : State) (id : StmtId) (t : State) : Prop :=
  ∃ y u, ReadStmt d s y id u ∧ t.ast = u.ast ∧ Spells [.optional .semicolon] u.tokens t.tokens

/-! ### Readers of statements -/

lemma semicolon_walks (closed : Closed s) (id : StmtId) :
    Walks (do let _ ← accept? .semicolon; return id)
    (do let _ ← accept? .semicolon; return id) s Anywhere fun b t =>
      b = id ∧ t.ast = s.ast ∧ Spells [.optional .semicolon] s.tokens t.tokens := by
  refine (accept?_walks closed .semicolon nofun).bind fun taken t _ _ => walks_pure ?_
  rintro (⟨-, -, rfl⟩ | ⟨⟨_, span⟩, -, rfl, took⟩)
  · exact ⟨rfl, rfl, .absent .semicolon (.nil _)⟩
  · refine ⟨rfl, took.ast, ?_⟩
    rw [took.tokens]
    exact .present .semicolon span (.nil _)

lemma addStmt_semicolon_walks {kind : StmtKind} {Q : StmtId → State → Prop} (closed : Closed s)
    (h : ∀ id (t u : State), u.tokens = s.tokens → s.ast.addStmt kind = (u.ast, id) →
      t.ast = u.ast ∧ Spells [.optional .semicolon] u.tokens t.tokens → Q id t) :
    Walks (addStmt kind >>= fun id => do let _ ← accept? .semicolon; return id)
    (addStmt kind >>= fun id => do let _ ← accept? .semicolon; return id) s Anywhere Q := by
  refine (addStmt_walks (Q := fun id u => u.tokens = s.tokens ∧ s.ast.addStmt kind = (u.ast, id))
    fun _ _ tokens added => ⟨tokens, added⟩).bind fun id u first _ =>
    (semicolon_walks (first.closed closed) id).imp ?_
  rintro _ t ⟨rfl, rest⟩ ⟨tokens, added⟩
  exact h _ t u tokens added rest

/-- The readers of statements with the bounds `n` and `m` on their depth, if `n` is large enough. -/
structure Runs (n m : Nat) : Prop where
  le : n ≤ m
  statement : ∀ {s}, Ready s (n + 3) → Walks (statement n) (statement m) s (Further s) (ReadEnded s.depth s)
  body : ∀ {s}, Ready s (n + 1) → Walks (body n) (body m) s Anywhere fun inner t =>
    ∃ y, ReadBody s.depth s y inner t
  statements : ∀ {s} inBody, Ready s (n + 2) → Walks (statements n inBody) (statements m inBody) s
    (fun _ t => t.current.kind = .eof ∨ inBody ∧ t.current.kind = .closeBrace) fun ids t =>
    ∃ ys, ReadStmts s.depth s ys ids t

section

variable (le : n ≤ m) (ready : Ready s (n + 4))

include le ready

lemma letStatement_walks : Walks (letStatement n) (letStatement m) s (Further s) fun id t =>
    ∃ y, ReadStmt s.depth s y id t := by
  refine (expect_walks ready.closed .letWord nofun).finds (fun _ _ => id) fun keyword s1 first _ => ?_
  have closed1 := first.closed ready.closed
  refine (expect_walks closed1 .identifier nofun).bind fun name s2 second _ => walks_currentKind ?_
  have closed2 := second.closed closed1
  refine Walks.ite_bind (R :=
    fun type t => t.ast = s2.ast ∧ Spells ((type.map ascriptionMarks).getD []) s2.tokens t.tokens)
    (Walks.ite (fun _ => ?_) fun _ => ?_) fun type s3 third _ => ?_
  · exact (ascription_walks closed2).map some fun _ _ => id
  · exact walks_pure ⟨rfl, .nil _⟩
  refine (expect_walks (third.closed closed2) .equals nofun).bind fun _ s4 fourth _ => ?_
  refine ((follows le).expression
    (ready.pass (first.trans (second.trans (third.trans fourth))) (by omega))).bind
    fun init s5 _ _ => ?_
  refine addStmt_walks fun id t tokens added ⟨x, read⟩ ⟨isEquals, took2⟩ ⟨same, typed⟩
    ⟨isName, took1⟩ ⟨isLet, took⟩ => ?_
  refine ⟨.letVar keyword.span name.span type x, read.ordered, trivial, ?_, ?_,
    current_congr tokens ▸ read.ends, fun _ => rfl⟩
  · rw [tokens]
    exact (took.kept isLet).append
      ((took1.kept isName).append (typed.append ((took2.sign isEquals).append read.spelled)))
  · rw [Stmt.addTo, ← took.ast, ← took1.ast, ← same, ← took2.ast, read.added]
    exact added

lemma returnStatement_walks : Walks (returnStatement n) (returnStatement m) s (Further s)
    fun id t => ∃ y, ReadStmt s.depth s y id t := by
  refine (expect_walks ready.closed .returnWord nofun).finds (fun _ _ => id)
    fun keyword s1 first _ => walks_currentKind (Walks.ite (fun last => ?_) fun _ => ?_)
  · refine addStmt_walks fun id t tokens added ⟨isReturn, took⟩ => ?_
    refine ⟨.ret keyword.span none, trivial, trivial, ?_, ?_, current_congr tokens ▸ last, fun _ => rfl⟩
    · rw [tokens]
      exact took.kept isReturn
    · rw [Stmt.addTo, ← took.ast]
      exact added
  · show Walks (do addStmt (.ret keyword.span (some (← expression n))))
      (do addStmt (.ret keyword.span (some (← expression m)))) s1 _ _
    refine ((follows le).expression (ready.pass first (by omega))).bind fun value s2 _ _ =>
      addStmt_walks fun id t tokens added ⟨x, read⟩ ⟨isReturn, took⟩ => ?_
    refine ⟨.ret keyword.span (some x), read.ordered, trivial, ?_, ?_,
      current_congr tokens ▸ read.ends, fun _ => rfl⟩
    · rw [tokens]
      exact (took.kept isReturn).append read.spelled
    · rw [Stmt.addTo, ← took.ast, read.added]
      exact added

lemma expr_walks :
    let reader (k : Nat) : Parse StmtId := do
      let e ← expression k
      addStmt (.expr e)
    Walks (reader n) (reader m) s (Further s) fun id t => ∃ y, ReadStmt s.depth s y id t := by
  refine ((follows le).expression ready).finds (fun _ _ => id) fun e s1 _ _ =>
    addStmt_walks fun id t tokens added ⟨x, read⟩ => ?_
  refine ⟨.expr x, read.ordered, trivial, ?_, ?_, current_congr tokens ▸ read.ends, fun _ => rfl⟩
  · rw [tokens]
    exact read.spelled
  · rw [Stmt.addTo, read.added]
    exact added

end

lemma ended_walks {act act' : Parse StmtId} (closed : Closed s)
    (h : Walks act act' s (Further s) fun id t => ∃ y, ReadStmt s.depth s y id t) :
    Walks (act >>= fun id => do let _ ← accept? .semicolon; return id) (act' >>= fun id =>
      do let _ ← accept? .semicolon; return id) s (Further s) (ReadEnded s.depth s) := by
  refine h.finds (fun _ _ => id) fun id t first _ => (semicolon_walks (first.closed closed) id).imp ?_
  rintro _ u ⟨rfl, rest⟩ ⟨y, read⟩
  exact ⟨y, t, read, rest⟩

section

variable (h : Runs n m) (ready : Ready s (n + 1 + 3)) {β : Type}

include h ready

lemma if_walks (isIf : s.current.kind = .ifWord) :
    let reader (k : Nat) : Parse StmtId := do
      let keyword ← expect .ifWord
      let condition ← expression k
      let thenBody ← body k
      let elseBody ← match ← accept? .elseWord with
        | some _ => some <$> body k
        | none => pure none
      let id ← addStmt (.ifElse keyword.span condition thenBody elseBody)
      let _ ← accept? .semicolon
      return id
    Walks (reader n) (reader m) s (Further s) (ReadEnded s.depth s) := by
  refine (expect_walks ready.closed .ifWord (by rintro ⟨⟩)).finds (fun _ _ => id)
    fun keyword s1 first further => ?_
  have ready1 : Ready s1 n := ready.next first (further (isIf ▸ by rintro ⟨⟩)) (by omega)
  refine ((follows h.le).expression (ready1.pass (.refl _) (by omega))).bind fun condition s2 second _ => ?_
  refine (h.body (ready1.pass second (by omega))).bind fun thenBody s3 third _ => ?_
  have ready3 : Ready s3 n := ready1.pass (second.trans third) (by omega)
  refine (accept?_walks ready3.closed .elseWord (by rintro ⟨⟩)).bind fun taken s4 fourth _ => ?_
  cases taken with
  | none =>
    refine addStmt_semicolon_walks (fourth.closed ready3.closed) ?_
    rintro id t u tokens added rest (⟨-, noElse, rfl⟩ | ⟨_, no, -⟩) ⟨y, own⟩ ⟨x, read⟩ ⟨isIf, took⟩
    · refine ⟨.ifThen keyword.span x y, u, ⟨⟨read.ordered, own.ordered⟩,
        (first.trans second).depth ▸ own.fits, ?_, ?_, current_congr tokens ▸ noElse,
        fun unended => own.parted (unended.behind ((took.kept isIf).append read.spelled))⟩, rest⟩
      · rw [tokens]
        exact (took.kept isIf).append (read.spelled.append own.spelled)
      · rw [Stmt.addTo, ← took.ast, read.added]
        dsimp only
        rw [own.added]
        exact added
    · cases no
  | some other =>
    refine Walks.bind ((h.body (ready3.pass fourth (by omega))).map some (Q :=
      fun b t => ∃ inner y, b = some inner ∧ ReadBody s4.depth s4 y inner t) fun inner _ h =>
      ⟨inner, h.choose, rfl, h.choose_spec⟩) fun elseBody s5 fifth _ => ?_
    refine addStmt_semicolon_walks ((fourth.trans fifth).closed ready3.closed) ?_
    rintro id t u tokens added rest ⟨inner, z, rfl, own'⟩ (⟨no, -⟩ | ⟨_, same, isElse, took1⟩) ⟨y,
      own⟩ ⟨x, read⟩ ⟨isIf, took⟩
    · cases no
    · cases same
      have before := (first.trans second).depth
      refine ⟨.ifElse keyword.span x y z, u, ⟨⟨read.ordered, own.ordered, own'.ordered⟩,
        ⟨before ▸ own.fits, (third.trans fourth).depth.trans before ▸ own'.fits⟩, ?_, ?_, trivial,
        fun unended => ?_⟩, rest⟩
      · rw [tokens]
        exact (took.kept isIf).append
          (read.spelled.append (own.spelled.append ((took1.sign isElse).append own'.spelled)))
      · rw [Stmt.addTo, ← took.ast, read.added]
        dsimp only
        rw [own.added]
        dsimp only
        rw [← took1.ast, own'.added]
        exact added
      · replace unended := unended.behind ((took.kept isIf).append read.spelled)
        exact Bool.and_eq_true_iff.2 ⟨own.parted unended,
          own'.parted (unended.behind (own.spelled.append (took1.sign isElse)))⟩

lemma while_walks (isWhile : s.current.kind = .whileWord) :
    let reader (k : Nat) : Parse StmtId := do
      let keyword ← expect .whileWord
      let condition ← expression k
      let loopBody ← body k
      addStmt (.whileLoop keyword.span condition loopBody)
    Walks (reader n) (reader m) s (Further s) fun id t => ∃ y, ReadStmt s.depth s y id t := by
  refine (expect_walks ready.closed .whileWord (by rintro ⟨⟩)).finds (fun _ _ => id)
    fun keyword s1 first further => ?_
  have ready1 : Ready s1 n := ready.next first (further (isWhile ▸ by rintro ⟨⟩)) (by omega)
  refine ((follows h.le).expression (ready1.pass (.refl _) (by omega))).bind fun condition s2 second _ => ?_
  refine (h.body (ready1.pass second (by omega))).bind fun loopBody s3 _ _ => addStmt_walks ?_
  rintro id t tokens added ⟨y, own⟩ ⟨x, read⟩ ⟨isWhile, took⟩
  refine ⟨.whileLoop keyword.span x y,
    ⟨read.ordered, own.ordered⟩, (first.trans second).depth ▸ own.fits, ?_, ?_, trivial,
    fun unended => own.parted (unended.behind ((took.kept isWhile).append read.spelled))⟩
  · rw [tokens]
    exact (took.kept isWhile).append (read.spelled.append own.spelled)
  · rw [Stmt.addTo, ← took.ast, read.added]
    dsimp only
    rw [own.added]
    exact added

omit h ready in
/-- A function inside another one is an error. -/
lemma nested_walks {next next' : Parse β} {U Q : β → State → Prop} (span : Span)
    (h : ∀ t, Passes s t → Walks next next' t U fun b u => t = s ∧ s.depth = 0 → Q b u) : Walks (do
      if 0 < (← get).depth then complain .nestedFunction span
      next) (do
      if 0 < (← get).depth then complain .nestedFunction span
      next') s U Q := by
  refine walks_get (Walks.ite (fun _ => ?_) fun outside => ?_)
  · exact (complain_walks rfl span).bind fun _ t passes _ => (h t passes).imp fun _ _ _ no => no.elim
  · exact (h s (.refl s)).imp fun _ _ read => read ⟨rfl, Nat.eq_zero_of_not_pos outside⟩

omit ready in
/-- The body of a function is read with one more function open. -/
lemma deeper_walks {next next' : EmLang.Body → Parse β} {U Q : β → State → Prop}
    (ready : Ready s (n + 1)) (h' : ∀ inner t, Passes s t → Walks (next inner) (next' inner) t U
      fun b u => (∃ y, ReadBody (s.depth + 1) s y inner t) → Q b u) : Walks (do
      modify fun s => { s with depth := s.depth + 1 }
      let inner ← body n
      modify fun s => { s with depth := s.depth - 1 }
      next inner) (do
      modify fun s => { s with depth := s.depth + 1 }
      let inner ← body m
      modify fun s => { s with depth := s.depth - 1 }
      next' inner) s U Q := by
  have inside : Ready { s with depth := s.depth + 1 } (n + 1) := ⟨ready.closed, ready.few⟩
  obtain ⟨agree, passes, -, read⟩ := h.body inside
  set r := (body n).run { s with depth := s.depth + 1 }
  have outside : Passes s { r.2 with depth := r.2.depth - 1 } := ⟨passes.tokens, passes.clean,
    passes.honest, congrArg (· - 1) passes.depth⟩
  obtain ⟨same, passes', there, read'⟩ := h' r.1 _ outside
  refine ⟨?_, outside.trans passes', there, fun clean => read' clean ?_⟩
  · refine Eq.trans ?_ same
    rw [← agree]
    rfl
  obtain ⟨y, read⟩ := read (passes'.clean clean)
  exact ⟨y, read.ordered, read.fits, read.spelled, read.added, read.parted⟩

lemma function_walks (isFunction : s.current.kind = .functionWord) :
    let reader (k : Nat) : Parse StmtId := do
      let keyword ← expect .functionWord
      let name ← expect .identifier
      if 0 < (← get).depth then complain .nestedFunction name.span
      let _ ← expect .leftParen
      let params ← parameters k
      let _ ← expect .rightParen
      let type ← returnType
      modify fun s => { s with depth := s.depth + 1 }
      let functionBody ← body k
      modify fun s => { s with depth := s.depth - 1 }
      let id ← addStmt (.function keyword.span name.span params type functionBody none)
      let _ ← accept? .semicolon
      return id
    Walks (reader n) (reader m) s (Further s) (ReadEnded s.depth s) := by
  refine (expect_walks ready.closed .functionWord nofun).finds (fun _ _ => id)
    fun keyword s1 first further => ?_
  have ready1 : Ready s1 n := ready.next first (further (isFunction ▸ nofun)) (by omega)
  refine (expect_walks ready1.closed .identifier nofun).bind fun name s2 second _ =>
    nested_walks name.span fun s3 third => ?_
  have ready3 : Ready s3 n := ready1.pass (second.trans third) (by omega)
  refine (expect_walks ready3.closed .leftParen nofun).bind fun _ s4 fourth _ => ?_
  have ready4 : Ready s4 n := ready3.pass fourth (by omega)
  have few := ready4.few
  refine (parameters_walks ready4.closed (by omega) h.le).bind fun params s5 fifth _ => ?_
  refine (expect_walks (fifth.closed ready4.closed) .rightParen nofun).bind fun _ s6 sixth _ => ?_
  have ready6 : Ready s6 n := ready4.pass (fifth.trans sixth) (by omega)
  refine (returnType_walks ready6.closed).bind fun type s7 seventh _ =>
    deeper_walks h (ready6.pass seventh (by omega)) fun functionBody s8 eighth => ?_
  refine addStmt_semicolon_walks ((seventh.trans eighth).closed ready6.closed) ?_
  rintro id t u tokens added rest ⟨y, own⟩ ⟨ast7, typed⟩ ⟨closes, took3⟩ ⟨ast5, listed⟩ ⟨opens,
    took2⟩ ⟨rfl, outside⟩ ⟨isName, took1⟩ ⟨isFunction, took⟩
  have start := (took1.kept isName).append
    ((took2.sign opens).append (listed.append ((took3.sign closes).append typed)))
  have deep : s7.depth = s.depth := (first.trans
    (second.trans (third.trans (fourth.trans (fifth.trans (sixth.trans seventh)))))).depth
  refine ⟨.function keyword.span name.span params type y,
    u, ⟨own.ordered, ⟨(first.trans second).depth ▸ outside, deep ▸ own.fits⟩, ?_, ?_, trivial,
    fun unended => own.parted ((unended.behind (took.kept isFunction)).behind start)⟩, rest⟩
  · rw [tokens]
    exact (took.kept isFunction).append ((took1.kept isName).append ((took2.sign opens).append
      (listed.append ((took3.sign closes).append (typed.append own.spelled)))))
  · have same : s7.ast = s.ast := by rw [ast7, took3.ast, ast5, took2.ast, took1.ast, took.ast]
    rw [Stmt.addTo, ← same, own.added]
    exact added

lemma statement_walks : Walks (statement (n + 1)) (statement (m + 1)) s (Further s) (ReadEnded s.depth s) := by
  refine walks_currentKind ?_
  split
  · exact ended_walks ready.closed (letStatement_walks h.le ready)
  · exact ended_walks ready.closed (returnStatement_walks h.le ready)
  · next isIf => exact if_walks h ready isIf
  · next isWhile => exact ended_walks ready.closed (while_walks h ready isWhile)
  · next isFunction => exact function_walks h ready isFunction
  · exact ended_walks ready.closed (expr_walks h.le ready)

omit ready in
lemma body_walks (ready : Ready s (n + 1 + 1)) : Walks (body (n + 1)) (body (m + 1)) s Anywhere
    fun inner t => ∃ y, ReadBody s.depth s y inner t := by
  refine (expect_walks ready.closed .openBrace nofun).bind fun openBrace s1 first _ =>
    (h.statements true (ready.pass first (by omega))).bind fun ids s2 second _ => ?_
  refine (expect_walks ((first.trans second).closed ready.closed) .closeBrace nofun).bind
    fun closeBrace s3 _ _ => walks_pure ?_
  rintro ⟨closes, took1⟩ ⟨ys, read⟩ ⟨opens, took⟩
  refine ⟨.mk openBrace.span ys closeBrace.span, read.ordered,
    first.depth ▸ read.fits, (took.kept opens).append (read.spelled.append (took1.kept closes)), ?_,
    fun unended => read.parted (unended.behind (took.kept opens))⟩
  rw [Body.addTo, ← took.ast, read.added, ← took1.ast]

omit ready in
lemma statements_turns (ready : Ready s (n + 1 + 2))
    (inBody : Bool) (other : ¬ (s.current.kind = .eof ∨ inBody ∧ s.current.kind = .closeBrace)) :
    Turns (statements (n + 1) inBody) (statements (m + 1) inBody) (statements n inBody)
    (statements m inBody) s (Further s) (ReadEnded s.depth s) := by
  refine turns_currentKind (Turns.ite (absurd · other) fun _ =>
    (h.statement ready).turns (fun _ _ => id) fun _ _ _ _ => turns_again id)

omit ready in
lemma statements_walks (ready : Ready s (n + 1 + 2)) (inBody : Bool) : Walks
    (statements (n + 1) inBody) (statements (m + 1) inBody) s (fun _ t => t.current.kind = .eof ∨
      inBody ∧ t.current.kind = .closeBrace) fun ids t => ∃ ys, ReadStmts s.depth s ys ids t := by
  by_cases stop : s.current.kind = .eof ∨ inBody ∧ s.current.kind = .closeBrace
  · refine walks_currentKind (Walks.ite (fun _ => ?_) (absurd stop))
    exact ⟨rfl, .refl s, stop, fun _ => ⟨[], trivial, trivial, .nil _, rfl, fun _ => rfl⟩⟩
  · refine (statements_turns h ready inBody stop).walks fun id s1 first further => ?_
    have less := further (not_or.1 stop).1
    refine (h.statements inBody (ready.next first less (by omega))).imp ?_
    rintro ids s2 ⟨ys, others⟩ ⟨y, u, read, same, semicolon⟩
    refine ⟨y :: ys, ⟨read.ordered, others.ordered⟩, ⟨read.fits, first.depth ▸ others.fits⟩,
      read.spelled.append (semicolon.append others.spelled), ?_, fun unended => ?_⟩
    · rw [addStmts, read.added, ← same]
      dsimp only
      rw [others.added]
    · have behind := unended.behind read.spelled
      have ends : ys.head?.all (fun z => decide (y.EndsBefore z.head)) = true := by
        cases ys with
        | nil => rfl
        | cons z zs =>
          have spelled := others.spelled
          rw [stmtsMarks, ← behind.absent semicolon] at spelled
          obtain ⟨mid, first, -⟩ := spelled.split
          obtain ⟨token, more, here, head, -⟩ := z.spells_head first
          obtain ⟨rfl, -⟩ := List.cons.inj here
          exact decide_eq_true (head ▸ read.ends)
      exact Bool.and_eq_true_iff.2 ⟨Bool.and_eq_true_iff.2 ⟨read.parted unended, ends⟩,
        others.parted (behind.behind semicolon)⟩

end

theorem runs (le : n ≤ m) : Runs n m := by
  induction n generalizing m with
  | zero => exact ⟨le, (·.absurd (by decide)), (·.absurd (by decide)), fun _ => (·.absurd (by decide))⟩
  | succ n ih =>
    obtain ⟨m, rfl⟩ := Nat.exists_eq_succ_of_ne_zero (Nat.ne_zero_of_lt le)
    have h : Runs n m := ih (Nat.le_of_succ_le_succ le)
    exact ⟨le, statement_walks h, body_walks h, fun inBody ready => statements_walks h ready inBody⟩

end EmLang.Parser

/-! ### Operators in the tables -/

namespace EmLang

variable {left right : ExprId} {op : BinaryOp}

namespace Ast

/-- The operands of an operator are in the table. An operator expression on the left binds at least
as tightly as the operator, and one on the right more tightly. -/
structure Joined (ast : Ast) (op : BinaryOp) (left right : ExprId) : Prop where
  left_lt : left < ast.expressions.size
  right_lt : right < ast.expressions.size
  left_le : ∀ inner sign l r, (ast.expr? left).map Expr.kind = some (.binary inner sign l r) →
    op.precedence ≤ inner.precedence
  right_gt : ∀ inner sign l r, (ast.expr? right).map Expr.kind = some (.binary inner sign l r) →
    op.precedence < inner.precedence

/-- Operators are joined with their operands from left to right. -/
def LeftAssociative (ast : Ast) : Prop :=
  ∀ e op sign left right, (ast.expr? e).map Expr.kind = some (.binary op sign left right) →
  ast.Joined op left right

variable {a b : Ast}

lemma Joined.extends (h : a.Joined op left right) (e : a.Extends b) : b.Joined op left right where
  left_lt := h.left_lt.trans_le e.exprs_le
  right_lt := h.right_lt.trans_le e.exprs_le
  left_le := by
    rw [e.exprs left h.left_lt]
    exact h.left_le
  right_gt := by
    rw [e.exprs right h.right_lt]
    exact h.right_gt

lemma leftAssociative_addExpr {kind : ExprKind} (h : a.LeftAssociative)
    (joined : ∀ op sign left right, kind = .binary op sign left right → a.Joined op left right) :
    (a.addExpr kind).1.LeftAssociative := by
  intro e op sign left right here
  have extended := Extends.addExpr a kind
  obtain lt | rfl | gt := lt_trichotomy e a.expressions.size
  · rw [extended.exprs e lt] at here
    exact (h e op sign left right here).extends extended
  · rw [show (a.addExpr kind).1.expr? a.expressions.size = _ from Array.getElem?_push_size] at here
    exact (joined op sign left right (Option.some.inj here)).extends extended
  · have none : (a.addExpr kind).1.expr? e = none := Array.getElem?_eq_none (by
      rw [show (a.addExpr kind).1.expressions.size = a.expressions.size + 1 from Array.size_push _]
      exact gt)
    rw [none] at here
    cases here

lemma leftAssociative_addStmt (h : a.LeftAssociative) (kind : StmtKind) : (a.addStmt kind).1.LeftAssociative :=
  fun e op sign left right here => (h e op sign left right here).extends (.addStmt a kind)

end Ast

namespace Tree

/-- The node of an operator expression is that of its operator. -/
lemma Expr.grade_of_kind {a : Ast} {sign : Text.Span} (x : Expr)
    (h : ((x.addTo a).1.expr? (x.addTo a).2).map EmLang.Expr.kind =
      some (.binary op sign left right)) : x.grade = op.precedence := by
  have last {a : Ast} {kind : ExprKind} :
    ((a.addExpr kind).1.expr? (a.addExpr kind).2).map EmLang.Expr.kind = some kind :=
    congrArg (Option.map EmLang.Expr.kind) Array.getElem?_push_size
  cases x with
  | binary =>
    cases last.symm.trans h
    rfl
  | _ => cases last.symm.trans h

mutual

lemma Expr.leftAssociative_addTo {a : Ast} (h : a.LeftAssociative) :
    ∀ x : Expr, x.Ordered → (x.addTo a).1.LeftAssociative
  | .number .., _ | .string .., _ | .bool .., _ | .var _, _ => Ast.leftAssociative_addExpr h nofun
  | .assign _ _ x, ordered | .paren _ x _,
      ordered => Ast.leftAssociative_addExpr (x.leftAssociative_addTo h ordered) nofun
  | .negate _ x, ordered => Ast.leftAssociative_addExpr (x.leftAssociative_addTo h ordered.2) nofun
  | .call _ _ xs _, ordered => Ast.leftAssociative_addExpr (leftAssociative_addExprs h xs ordered) nofun
  | .binary op _ x y, ordered => by
    refine Ast.leftAssociative_addExpr
      (y.leftAssociative_addTo (x.leftAssociative_addTo h ordered.2.2.1) ordered.2.2.2) ?_
    rintro _ _ _ _ ⟨⟩
    have extended := y.extends_addTo (x.addTo a).1
    refine ⟨(x.addTo_lt a).trans_le extended.exprs_le, y.addTo_lt _, fun inner sign l r here => ?_,
      fun inner sign l r here => ?_⟩
    · rw [extended.exprs _ (x.addTo_lt a)] at here
      exact ordered.1.trans_eq (x.grade_of_kind here)
    · exact ordered.2.1.trans_eq (y.grade_of_kind here)

lemma leftAssociative_addExprs {a : Ast} (h : a.LeftAssociative) :
    ∀ xs : List Expr, exprsOrdered xs → (addExprs a xs).1.LeftAssociative
  | [], _ => h
  | x :: xs, ordered => leftAssociative_addExprs (x.leftAssociative_addTo h ordered.1) xs ordered.2

end

mutual

lemma Stmt.leftAssociative_addTo {a : Ast} (h : a.LeftAssociative) :
    ∀ y : Stmt, y.Ordered → (y.addTo a).1.LeftAssociative
  | .expr x, ordered | .letVar _ _ _ x, ordered | .ret _ (some x), ordered =>
    Ast.leftAssociative_addStmt (x.leftAssociative_addTo h ordered) _
  | .ret _ none, _ => Ast.leftAssociative_addStmt h _
  | .ifThen _ x body, ordered | .whileLoop _ x body, ordered =>
    Ast.leftAssociative_addStmt (body.leftAssociative_addTo (x.leftAssociative_addTo h ordered.1) ordered.2) _
  | .ifElse _ x body other, ordered =>
    have first := body.leftAssociative_addTo (x.leftAssociative_addTo h ordered.1) ordered.2.1
    Ast.leftAssociative_addStmt (other.leftAssociative_addTo first ordered.2.2) _
  | .function _ _ _ _ body, ordered => Ast.leftAssociative_addStmt (body.leftAssociative_addTo h ordered) _

lemma Body.leftAssociative_addTo {a : Ast} (h : a.LeftAssociative) :
    ∀ y : Body, y.Ordered → (y.addTo a).1.LeftAssociative
  | .mk _ ys _, ordered => leftAssociative_addStmts h ys ordered

lemma leftAssociative_addStmts {a : Ast} (h : a.LeftAssociative) :
    ∀ ys : List Stmt, stmtsOrdered ys → (addStmts a ys).1.LeftAssociative
  | [], _ => h
  | y :: ys, ordered => leftAssociative_addStmts (y.leftAssociative_addTo h ordered.1) ys ordered.2

end

end Tree

namespace Parser

open Text EmLang.Tree

variable {tokens : List Token}

/-- The last token is the end mark, and no other is. -/
def Ended (tokens : List Token) : Prop :=
  ∃ before last, tokens = before ++ [last] ∧ last.kind = .eof ∧ ∀ token ∈ before, token.kind ≠ .eof

lemma Ended.eq_nil {token : Token} {front rest : List Token} (h : Ended (front ++ token :: rest))
    (isEnd : token.kind = .eof) : rest = [] := by
  obtain ⟨before, last, same, -, only⟩ := h
  obtain rfl | ⟨rest, other, rfl⟩ := rest.eq_nil_or_concat
  · rfl
  · rw [List.concat_eq_append, ← List.cons_append, ← List.append_assoc] at same
    obtain ⟨rfl, -⟩ := List.append_inj' same rfl
    exact absurd isEnd (only token (List.mem_append_right _ (.head _)))

/-- The state before tokens are read. -/
def start (tokens : List Token) : State := ⟨tokens.headD ⟨.eof, 0, 0, ""⟩, tokens.tail, .empty, .empty, 0⟩

lemma tokens_start (closed : ∃ token ∈ tokens, token.kind = .eof) : (start tokens).tokens = tokens := by
  obtain ⟨token, mem, -⟩ := closed
  obtain ⟨first, rest, rfl⟩ := List.exists_cons_of_ne_nil (List.ne_nil_of_mem mem)
  rfl

lemma start_walks {bound : Nat} (closed : ∃ token ∈ tokens, token.kind = .eof)
    (enough : depthFor tokens.length ≤ bound) : Walks (statements (depthFor tokens.length) false)
    (statements bound false) (start tokens) (fun _ t => t.current.kind = .eof) fun ids t =>
      ∃ ys, ReadStmts 0 (start tokens) ys ids t := by
  have whole := tokens_start closed
  obtain ⟨same, passes, last, read⟩ := (runs enough).statements (s := start tokens) false
    ⟨whole ▸ closed, by rw [whole, depthFor]; omega⟩
  exact ⟨same, passes, last.resolve_right nofun, read⟩

/-- The tokens of a program are read without errors as these trees. -/
structure ReadProgram (tokens : List Token) (xs : List Tree.Stmt) (eof : Token) : Prop where
  parsed : (parse tokens).1 = toAst xs
  ordered : stmtsOrdered xs
  fits : stmtsFit 0 xs
  isEnd : eof.kind = .eof
  spelled : Spells (stmtsMarks .free xs) tokens [eof]
  parted : Unended tokens → stmtsParted xs = true

lemma parse_back (ended : Ended tokens) (clean : (parse tokens).2.errors = []) :
    ∃ xs eof, ReadProgram tokens xs eof := by
  have closed : ∃ token ∈ tokens, token.kind = .eof := by
    obtain ⟨before, last, rfl, isEnd, -⟩ := ended
    exact ⟨last, List.mem_append_right _ (.head _), isEnd⟩
  obtain ⟨-, passes, atEnd, read⟩ := start_walks closed le_rfl
  obtain ⟨xs, read⟩ := read clean
  obtain ⟨front, same, -⟩ := passes.tokens
  have spelled := read.spelled
  have parted := read.parted
  rw [tokens_start closed] at same spelled parted
  rw [same] at ended
  rw [State.tokens, ended.eq_nil atEnd] at spelled
  refine ⟨xs, _, ?_, read.ordered, read.fits, atEnd, spelled, parted⟩
  rw [toAst, show addStmts .empty xs = _ from read.added]
  rfl

/-- What the parser accepts is what it read. Where the end mark is last and no error is reported,
the tree of what was read, written out again, gives the tokens that were there: all of them, in
their order and each once, but for semicolons behind statements and commas behind the last of
several parameters or arguments, which the tree does not tell. Operators were joined from left to
right. -/
theorem spells_of_parse {tokens : List Token} (ended : Ended tokens) (clean : (parse tokens).2.errors = []) :
    ∃ xs eof, (parse tokens).1 = toAst xs ∧ (parse tokens).1.trees? = some xs ∧
      eof.kind = .eof ∧ Spells (stmtsMarks .free xs) tokens [eof] ∧ (parse tokens).1.LeftAssociative := by
  obtain ⟨xs, eof, parsed, ordered, -, isEnd, spelled, -⟩ := parse_back ended clean
  have joined : (toAst xs).LeftAssociative := fun e op sign left right here => by
    have inner := leftAssociative_addStmts
      (nofun : Ast.empty.LeftAssociative) xs ordered e op sign left right here
    exact ⟨inner.left_lt, inner.right_lt, inner.left_le, inner.right_gt⟩
  rw [parsed]
  exact ⟨xs, eof, rfl, trees?_toAst xs, isEnd, spelled, joined⟩

/-- `fx f(a: int,) { return a - 1 - 2 } f(3,)`, without a semicolon and with a comma behind each
last part. -/
def unpunctuated : List Token :=
  let token (kind : TokenKind) : Token := ⟨kind, 0, 0, ""⟩
  [token .functionWord, token .identifier, token .leftParen, token .identifier, token .colon,
    token .identifier, token .comma, token .rightParen, token .openBrace, token .returnWord,
    token .identifier, token .minus, token (.number 1), token .minus, token (.number 2),
    token .closeBrace, token .identifier, token .leftParen, token (.number 3), token .comma,
    token .rightParen, token .eof]

theorem spells_of_parse_unpunctuated : (Ended unpunctuated ∧ (parse unpunctuated).2.errors = []) ∧
    ∃ xs eof, Spells (stmtsMarks .free xs) unpunctuated [eof] ∧ (parse unpunctuated).1.trees? = some xs := by
  have ended : Ended unpunctuated := ⟨unpunctuated.dropLast, ⟨.eof, 0, 0, ""⟩, rfl, rfl, by decide⟩
  have clean : (parse unpunctuated).2.errors = [] := by decide +kernel
  obtain ⟨xs, eof, -, trees, -, spelled, -⟩ := spells_of_parse ended clean
  exact ⟨⟨ended, clean⟩, xs, eof, spelled, trees⟩

/-- A turn of a loop reads an item and takes at least a token, and the loop goes on with what is
left. -/
def Advances {α : Type} (loop again : Parse (List α)) (s : State) : Prop :=
  ∃ a t, t.tokens <:+ s.tokens ∧ t.tokens.length < s.tokens.length ∧
  loop.run s = (a :: (again.run t).1, (again.run t).2)

lemma Turns.advances {s : State} {α : Type} {loop again : Parse (List α)} {Q : α → State → Prop}
    (h : Turns loop loop again again s (Further s) Q) (other : s.current.kind ≠ .eof) :
    Advances loop again s := by
  obtain ⟨a, t, passes, further, -, run, -⟩ := h
  obtain ⟨front, same, -⟩ := passes.tokens
  exact ⟨a, t, ⟨front, same.symm⟩, further other, run⟩

/-- **Reading comes to its end.** Whatever tokens there are, with an end mark among them, the parser
stops at the first end mark, and a larger bound on the depth of its readers would make no
difference. No turn of the loops that read statements, parameters and arguments leaves the tokens as
they are. And if no error is reported, there is no error node. -/
theorem parse_stops {tokens : List Token} (closed : ∃ token ∈ tokens, token.kind = .eof) :
    (∃ before ids t,
      (∀ bound ≥ depthFor tokens.length, (statements bound false).run (start tokens) = (ids, t)) ∧
      parse tokens = ({ t.ast with topLevel := ids }, t.report) ∧ tokens =
      before ++ t.current :: t.rest ∧ t.current.kind = .eof ∧ ∀ token ∈ before, token.kind ≠ .eof) ∧
    (∀ s n, (∃ token ∈ s.tokens, token.kind = .eof) → 8 * s.tokens.length ≤ n + 3 →
      s.current.kind ≠ .eof → Advances (statements (n + 1) false) (statements n false) s ∧
      (s.current.kind ≠ .closeBrace → Advances (statements (n + 1) true) (statements n true) s) ∧
      (s.current.kind ≠ .rightParen → Advances (parameters (n + 1)) (parameters n) s ∧
      Advances (arguments (n + 1)) (arguments n) s)) ∧ ((parse tokens).2.errors = [] →
      ∀ e node place, (parse tokens).1.expr? e = some node → node.kind ≠ .error place) := by
  refine ⟨?_, fun s n closed few other => ?_, ?_⟩
  · obtain ⟨-, passes, atEnd, -⟩ := start_walks closed le_rfl
    obtain ⟨front, same, others⟩ := passes.tokens
    rw [tokens_start closed] at same
    exact ⟨front, _, _, fun bound enough => (start_walks closed enough).1, rfl, same, atEnd, others⟩
  · have ready : Ready s (n + 3) := ⟨closed, few⟩
    refine ⟨?_, fun inside => ?_, fun more => ⟨?_, ?_⟩⟩
    · exact (statements_turns (runs le_rfl) ready false (not_or.2 ⟨other, nofun⟩)).advances other
    · exact (statements_turns (runs le_rfl) ready true (not_or.2 ⟨other,
        fun stop => inside stop.2⟩)).advances other
    · exact (parameters_turns closed ⟨more, other⟩).advances other
    · exact (arguments_turns (follows le_rfl) (ready.pass (.refl s) (by omega)) ⟨more, other⟩).advances other
  · exact (start_walks closed le_rfl).2.1.honest nofun

/-- `fx ( ,`, and words after a first end mark. -/
def unfinished : List Token :=
  let token (kind : TokenKind) : Token := ⟨kind, 0, 0, ""⟩
  [token .functionWord, token .leftParen, token .comma, token .eof, token .letWord, token .eof]

/-- The end is found, the statement there is taken in a turn of its loop, and so is the comma at
which the reader of parameters and that of arguments would be. -/
theorem parse_stops_unfinished : (∃ token ∈ unfinished, token.kind = .eof) ∧
    (∃ before ids, ∃ t : State, parse unfinished = ({ t.ast with topLevel := ids }, t.report) ∧
      unfinished = before ++ t.current :: t.rest ∧ t.current.kind = .eof) ∧
    Advances (statements 46 false) (statements 45 false) (start unfinished) ∧
    Advances (parameters 46) (parameters 45) (start (unfinished.drop 2)) ∧
    Advances (arguments 46) (arguments 45) (start (unfinished.drop 2)) := by
  have closed : ∃ token ∈ unfinished, token.kind = .eof := by decide
  obtain ⟨⟨before, ids, t, -, parsed, same, atEnd, -⟩, turns, -⟩ := parse_stops closed
  have first := turns (start unfinished) 45 (by decide) (by decide) (by decide)
  have comma := turns (start (unfinished.drop 2)) 45 (by decide) (by decide) (by decide)
  exact ⟨closed, ⟨before, ids, t, parsed, same, atEnd⟩, first.1, comma.2.2 (by decide)⟩

end Parser

end EmLang
