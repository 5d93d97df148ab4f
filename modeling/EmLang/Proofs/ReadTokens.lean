import EmLang.Proofs.Forest
import EmLang.Proofs.WrittenTrees

/-!
What readers do with any tokens at all. They take tokens from the front of what is left and do not
go past the first end mark, and once a bound on their depth suffices a larger one makes no
difference. Where no error is reported, what is read is what stands there: a reader leaves a tree
behind whose tokens are those that it took, each once and in their order.
-/

namespace EmLang.Parser

open EmLang.Tree List Text

variable {parts : List (List Mark)} {part : List Mark} {problem : Problem} {kind : TokenKind}
  {s t u : State} {n m b b' : Nat} {rest tokens : List Token} {token : Token}

/-! ### Steps of readers -/

/-- There is an end mark to come to. -/
def Closed (s : State) : Prop := ∃ token ∈ s.tokens, token.kind = .eof

/-- There is no error node without an error. -/
def Honest (s : State) : Prop :=
  s.report.errors = [] → ∀ e node place, s.ast.expr? e = some node → node.kind ≠ .error place

/-- From `s` to `t` tokens are taken, errors are not taken back, and as many functions are open
before as behind. -/
structure Passes (s t : State) : Prop where
  tokens : ∃ front, s.tokens = front ++ t.tokens ∧ ∀ token ∈ front, token.kind ≠ .eof
  clean : t.report.errors = [] → s.report.errors = []
  honest : Honest s → Honest t
  depth : t.depth = s.depth

namespace Passes

lemma refl (s : State) : Passes s s := ⟨⟨[], rfl, nofun⟩, id, id, rfl⟩

lemma trans (h : Passes s t) (h' : Passes t u) : Passes s u := by
  obtain ⟨front, same, others⟩ := h.tokens
  obtain ⟨front', same', others'⟩ := h'.tokens
  refine ⟨⟨front ++ front', ?_, forall_mem_append.2 ⟨others, others'⟩⟩, h.clean ∘ h'.clean,
    h'.honest ∘ h.honest, h'.depth.trans h.depth⟩
  rw [same, same', append_assoc]

lemma closed (h : Passes s t) (closed : Closed s) : Closed t := by
  obtain ⟨front, same, others⟩ := h.tokens
  obtain ⟨token, mem, isEnd⟩ := closed
  rw [same, mem_append] at mem
  exact ⟨token, mem.resolve_left fun mem => others token mem isEnd, isEnd⟩

lemma length_le (h : Passes s t) : t.tokens.length ≤ s.tokens.length := by
  obtain ⟨front, same, -⟩ := h.tokens
  rw [same, length_append]
  omega

end Passes

/-- There is an end mark to come to, and a bound suffices for the tokens that are left. -/
structure Ready (s : State) (b : Nat) : Prop where
  closed : Closed s
  few : 8 * s.tokens.length ≤ b

lemma Ready.pass (h : Ready s b) (passes : Passes s t) (le : b ≤ b') : Ready t b' :=
  ⟨passes.closed h.closed, (Nat.mul_le_mul_left 8 passes.length_le).trans (h.few.trans le)⟩

lemma Ready.next (h : Ready s b) (passes : Passes s t) (less : t.tokens.length < s.tokens.length)
    (le : b ≤ b' + 8) : Ready t b' :=
  ⟨passes.closed h.closed, by have few := h.few; omega⟩

/-- A bound that suffices is not used up. -/
lemma Ready.absurd {p : Prop} (h : Ready s b) (small : b ≤ 7) : p := by
  have few := h.few
  have pos := s.tokens_pos
  omega

/-- The current token is taken, and nothing else is done. -/
structure Took (s : State) (token : Token) (t : State) : Prop where
  ast : t.ast = s.ast
  tokens : s.tokens = token :: t.tokens

lemma Took.kept (h : Took s token t) (same : token.kind = kind) :
    Spells [.kept ⟨kind, token.span⟩] s.tokens t.tokens := by
  subst same
  rw [h.tokens]
  exact .kept token (.nil _)

lemma Took.sign (h : Took s token t) (same : token.kind = kind) : Spells [.sign kind] s.tokens t.tokens := by
  subst same
  rw [h.tokens]
  exact .sign token.kind token.span (.nil _)

lemma Took.less (h : Took s token t) : t.tokens.length < s.tokens.length := by
  rw [h.tokens]
  exact Nat.lt_succ_self _

/-! ### Two bounds -/

section

variable {α β : Type} {act act' other other' : Parse α} {next next' : α → Parse β}
  {U Q R : α → State → Prop} {c : Prop}

/-- Nothing is known. -/
def Anywhere (_ : α) (_ : State) : Prop := True

/-- A token is taken, unless the end is reached. -/
def Further (s : State) (_ : α) (t : State) : Prop := s.current.kind ≠ .eof → t.tokens.length < s.tokens.length

/-- Two readers do the same. `U` holds of what they end with, and `Q` if no error is reported. -/
def Walks (act act' : Parse α) (s : State) (U Q : α → State → Prop) : Prop :=
  act'.run s = act.run s ∧ Post act s fun a t => Passes s t ∧ U a t ∧ (t.report.errors = [] → Q a t)

section

variable (h : Walks act act' s U R)

include h

lemma Walks.imp (hi : ∀ a t, R a t → Q a t) : Walks act act' s U Q :=
  ⟨h.1, h.2.1, h.2.2.1, fun clean => hi _ _ (h.2.2.2 clean)⟩

lemma Walks.run_bind {b : β × State} (same : (next' (act.run s).1).run (act.run s).2 = b) :
    (act' >>= next').run s = b := by
  rw [← same, ← h.1]
  rfl

/-- Readers one after the other. What the first one ends with, if no error is reported, is known in
the end. -/
lemma Walks.bind {V Q : β → State → Prop}
    (h' : ∀ a t, Passes s t → U a t → Walks (next a) (next' a) t V fun b u => R a t → Q b u) :
    Walks (act >>= next) (act' >>= next') s V Q := by
  obtain ⟨passes, here, read⟩ := h.2
  obtain ⟨same, passes', there, read'⟩ := h' _ _ passes here
  exact ⟨h.run_bind same, passes.trans passes', there, fun clean => read' clean (read (passes'.clean clean))⟩

/-- The first of them takes a token, unless the end is reached. -/
lemma Walks.finds {Q : β → State → Prop} (further : ∀ a t, U a t → Further s a t)
    (h' : ∀ a t, Passes s t → U a t → Walks (next a) (next' a) t Anywhere fun b u => R a t → Q b u) :
    Walks (act >>= next) (act' >>= next') s (Further s) Q := by
  obtain ⟨same, passes, -, read⟩ := h.bind h'
  have later := (h' _ _ h.2.1 h.2.2.1).2.1.length_le
  exact ⟨same, passes, fun other => later.trans_lt (further _ _ h.2.2.1 other), read⟩

lemma Walks.map (f : α → β) {Q : β → State → Prop} (hi : ∀ a t, R a t → Q (f a) t) :
    Walks (f <$> act) (f <$> act') s Anywhere Q :=
  ⟨congrArg (fun r : α × State => (f r.1, r.2)) h.1, h.2.1, trivial, fun clean => hi _ _ (h.2.2.2 clean)⟩

end

lemma Walks.ite [Decidable c] (h : c → Walks act act' s U Q) (h' : ¬ c → Walks other other' s U Q) :
    Walks (if c then act else other) (if c then act' else other') s U Q := by
  split
  · exact h ‹c›
  · exact h' ‹¬ c›

/-- What follows a choice stands behind both of its sides. -/
lemma Walks.ite_bind [Decidable c] {V Q : β → State → Prop}
    (h : Walks (if c then act else other) (if c then act' else other') s Anywhere R) (h' : ∀ a t,
      Passes s t → Anywhere a t → Walks (next a) (next' a) t V fun b u => R a t → Q b u) :
    Walks (if c then act >>= next else other >>= next)
    (if c then act' >>= next' else other' >>= next') s V Q := by
  split_ifs at h ⊢
  · exact h.bind h'
  · exact h.bind h'

lemma walks_get {next next' : State → Parse α} (h : Walks (next s) (next' s) s U Q) :
    Walks (get >>= next) (get >>= next') s U Q := h

lemma walks_currentKind {next next' : TokenKind → Parse α}
    (h : Walks (next s.current.kind) (next' s.current.kind) s U Q) :
    Walks (currentKind >>= next) (currentKind >>= next') s U Q := h

lemma walks_nextKind {next next' : TokenKind → Parse α}
    (h : Walks (next (s.rest.headD s.current).kind) (next' (s.rest.headD s.current).kind) s U Q) :
    Walks (nextKind >>= next) (nextKind >>= next') s U Q := h

lemma walks_pure {a : α} (h : Q a s) : Walks (pure a) (pure a) s Anywhere Q :=
    ⟨rfl, .refl s, trivial, fun _ => h⟩

/-- Two loops take the same turn: a first item is read, and others after it. -/
def Turns (loop loop' again again' : Parse (List α)) (s : State) (U Q : α → State → Prop) : Prop :=
  ∃ a t, Passes s t ∧ U a t ∧ (t.report.errors = [] → Q a t) ∧ loop.run s = (a :: (again.run t).1,
    (again.run t).2) ∧ loop'.run s = (a :: (again'.run t).1, (again'.run t).2)

variable {loop loop' again again' : Parse (List α)} {first : α}

lemma turns_again (h : Q first s) : Turns (do return first :: (← again))
    (do return first :: (← again')) again again' s Anywhere Q :=
  ⟨first, s, .refl s, trivial, fun _ => h, rfl, rfl⟩

lemma turns_currentKind {next next' : TokenKind → Parse (List α)}
    (h : Turns (next s.current.kind) (next' s.current.kind) again again' s U Q) :
    Turns (currentKind >>= next) (currentKind >>= next') again again' s U Q := h

lemma Turns.ite [Decidable c] {stop stop' : Parse (List α)}
    (h : c → Turns stop stop' again again' s U Q) (h' : ¬ c → Turns loop loop' again again' s U Q) :
    Turns (if c then stop else loop) (if c then stop' else loop') again again' s U Q := by
  split
  · exact h ‹c›
  · exact h' ‹¬ c›

lemma Turns.anywhere (h : Turns loop loop' again again' s U Q) : Turns loop loop' again again' s Anywhere Q :=
  h.imp fun _ => .imp fun _ => .imp_right (.imp_left fun _ => trivial)

lemma Walks.turns {act act' : Parse β} {next next' : β → Parse (List α)} {V R : β → State → Prop}
    (h : Walks act act' s V R) (further : ∀ b t, V b t → Further s b t) (h' : ∀ b t, Passes s t →
      V b t → Turns (next b) (next' b) again again' t Anywhere fun a u => R b t → Q a u) :
    Turns (act >>= next) (act' >>= next') again again' s (Further s) Q := by
  obtain ⟨passes, here, read⟩ := h.2
  obtain ⟨a, u, passes', -, read', same, same'⟩ := h' _ _ passes here
  exact ⟨a, u, passes.trans passes', fun other => passes'.length_le.trans_lt (further _ _ here other),
    fun clean => read' clean (read (passes'.clean clean)), same, h.run_bind same'⟩

lemma Turns.walks {V : State → Prop} {Q : List α → State → Prop}
    (h : Turns loop loop' again again' s U R) (h' : ∀ a t, Passes s t → U a t → Walks again again' t
      (fun _ => V) fun as u => R a t → Q (a :: as) u) : Walks loop loop' s (fun _ => V) Q := by
  obtain ⟨a, t, passes, here, read, same, same'⟩ := h
  obtain ⟨agree, passes', there, read'⟩ := h' a t passes here
  refine ⟨by rw [same, same', agree], ?_⟩
  rw [Post, same]
  exact ⟨passes.trans passes', there, fun clean => read' clean (read (passes'.clean clean))⟩

end

/-! ### Tokens -/

/-- The current token is given, and taken unless it is the end mark. -/
def Takes (s : State) (token : Token) (t : State) : Prop :=
  token = s.current ∧ (s.current.kind ≠ .eof → Took s token t)

lemma Takes.further (token : Token) (t : State) (h : Takes s token t) : Further s token t :=
  fun other => (h.2 other).less

lemma take_walks (closed : Closed s) : Walks take take s (Takes s) Anywhere := by
  refine ⟨rfl, ?_⟩
  simp only [take, post_bind, post_get, post_ite, post_set, post_pure]
  refine ⟨fun isEnd => ⟨.refl s, ⟨rfl, absurd isEnd⟩, fun _ => trivial⟩, fun other => ?_⟩
  unfold State.advance
  split
  · next last =>
    obtain ⟨token, mem, isEnd⟩ := closed
    rw [State.tokens, last] at mem
    exact absurd (mem_singleton.1 mem ▸ isEnd) other
  · next token rest more =>
    have tokens : s.tokens = s.current :: token :: rest := by rw [State.tokens, more]
    exact ⟨⟨⟨[s.current], tokens, forall_mem_singleton.2 other⟩, id, id, rfl⟩,
      ⟨rfl, fun _ => ⟨rfl, tokens⟩⟩, fun _ => trivial⟩

lemma complain_walks (severe : problem.severity = .error) (span : Span) :
    Walks (complain problem span) (complain problem span) s
    (fun _ t => t.report.errors ≠ [] ∧ t.tokens = s.tokens) fun _ _ => False :=
  have failed : (s.report.add ⟨problem, span⟩).errors ≠ [] := add_errors_ne severe
  ⟨rfl, ⟨⟨[], rfl, nofun⟩, fun clean => absurd clean failed, fun _ clean => absurd clean failed,
  rfl⟩, ⟨failed, rfl⟩, failed⟩

lemma expect_walks (closed : Closed s) (kind : TokenKind) (other : kind ≠ .eof) :
    Walks (expect kind) (expect kind) s (Further s) fun token t => token.kind = kind ∧ Took s token t := by
  refine (take_walks closed).finds Takes.further fun token t passes ⟨current, took⟩ =>
    Walks.ite (fun same => ?_) fun _ => ?_
  · exact walks_pure fun _ => ⟨same, took (current ▸ same ▸ other)⟩
  · exact (complain_walks rfl _).bind fun _ u _ _ => walks_pure fun no => no.elim

/-- A token of this kind is taken if it comes next. -/
def Accepts (kind : TokenKind) (s : State) (taken : Option Token) (t : State) : Prop :=
  (taken = none ∧ s.current.kind ≠ kind ∧ t = s) ∨ ∃ token, taken = some token ∧ token.kind = kind ∧
  Took s token t

lemma accept?_walks (closed : Closed s) (kind : TokenKind) (other : kind ≠ .eof) :
    Walks (accept? kind) (accept? kind) s Anywhere (Accepts kind s) := by
  refine walks_currentKind (Walks.ite (fun same => ?_) fun differs => walks_pure (.inl ⟨rfl, differs, rfl⟩))
  refine (take_walks closed).bind fun token t _ ⟨current, took⟩ => walks_pure fun _ => .inr ⟨token,
    rfl, current ▸ same, took (same ▸ other)⟩

lemma addExpr_walks {kind : ExprKind}
    {Q : ExprId → State → Prop} (honest : ∀ place, kind = .error place → s.report.errors ≠ [])
    (h : ∀ e t, t.tokens = s.tokens → s.ast.addExpr kind = (t.ast, e) → Q e t) :
    Walks (addExpr kind) (addExpr kind) s Anywhere Q := by
  refine ⟨rfl, ⟨⟨[], rfl, nofun⟩, id, fun old clean e node place found => ?_, rfl⟩, trivial,
    fun _ => h _ _ rfl rfl⟩
  replace found : (s.ast.expressions.push _)[e]? = some node := found
  rw [Array.getElem?_push] at found
  split_ifs at found
  · cases found
    exact fun same => honest place same clean
  · exact old clean e node place found

lemma addStmt_walks {kind : StmtKind} {Q : StmtId → State → Prop}
    (h : ∀ id t, t.tokens = s.tokens → s.ast.addStmt kind = (t.ast, id) → Q id t) :
    Walks (addStmt kind) (addStmt kind) s Anywhere Q :=
  ⟨rfl, ⟨⟨[], rfl, nofun⟩, id, id, rfl⟩, trivial, fun _ => h _ _ rfl rfl⟩

lemma errorExpr_walks {Q : ExprId → State → Prop} (severe : problem.severity = .error) (span : Span) :
    Walks (errorExpr problem span) (errorExpr problem span) s Anywhere Q :=
  (complain_walks severe span).bind fun _ _ _ ⟨failed, _⟩ =>
  addExpr_walks (fun _ _ => failed) fun _ _ _ _ no => no.elim

/-! ### Expressions -/

/-- Between two states an expression is read: its tokens are gone and its nodes are there. A name
that it ends in is not called. -/
structure ReadExpr (s : State) (x : Tree.Expr) (e : ExprId) (t : State) : Prop where
  ordered : x.Ordered
  spelled : Spells (x.marks .free) s.tokens t.tokens
  added : x.addTo s.ast = (t.ast, e)
  uncalled : x.Uncalled t.current.kind

/-- The expression that is read is whole: nothing behind it could be joined with it. -/
structure ReadWhole (s : State) (x : Tree.Expr) (e : ExprId) (t : State) : Prop extends ReadExpr s x e t where
  ends : x.EndsBefore t.current.kind

lemma current_congr (tokens : t.tokens = s.tokens) : t.current = s.current := (cons.inj tokens).1

/-- An operator that comes next binds less tightly than `m`. -/
def Weaker (m : Nat) (t : State) : Prop := ∀ op, BinaryOp.ofToken? t.current.kind = some op → op.precedence < m

/-- The readers of expressions with the bounds `n` and `m` on their depth, if `n` is large
enough. -/
structure Follows (n m : Nat) : Prop where
  expression : ∀ {s}, Ready s (n + 4) → Walks (expression n) (expression m) s (Further s) fun e t =>
    ∃ x, ReadWhole s x e t
  binary : ∀ {s least}, least ≤ 20 → Ready s (n + 5) → Walks (binary n least) (binary m least) s
    (Further s) fun e t => ∃ x, ReadExpr s x e t ∧ least ≤ x.grade ∧ Weaker least t
  operators : ∀ {s} least left, Ready s (n + 7) →
    Walks (operators n least left) (operators m least left) s Anywhere fun e t =>
    ∀ {s₀ y}, ReadExpr s₀ y left s → least ≤ y.grade → Weaker (y.grade + 1) s →
    ∃ x, ReadExpr s₀ x e t ∧ least ≤ x.grade ∧ Weaker least t
  unary : ∀ {s}, Ready s (n + 6) → Walks (unary n) (unary m) s (Further s) fun e t =>
    ∃ x, ReadExpr s x e t ∧ x.grade = 20
  primary : ∀ {s}, Ready s (n + 7) → Walks (primary n) (primary m) s (Further s) fun e t =>
    ∃ x, ReadExpr s x e t ∧ x.grade = 20
  arguments : ∀ {s}, Ready s (n + 3) → Walks (arguments n) (arguments m) s Anywhere fun es t =>
    ∃ xs, exprsOrdered xs ∧ Spells (commas .free (exprsMarks .free xs)) s.tokens t.tokens ∧
    addExprs s.ast xs = (t.ast, es)

section

variable (h : Follows n m)

include h

lemma expression_walks (ready : Ready s (n + 1 + 4)) :
    Walks (expression (n + 1)) (expression (m + 1)) s (Further s) fun e t => ∃ x, ReadWhole s x e t := by
  refine walks_currentKind (walks_nextKind (Walks.ite (fun ⟨isName, isEquals⟩ => ?_) fun _ => ?_))
  · refine (take_walks ready.closed).finds Takes.further fun name s1 first ⟨current, took⟩ => ?_
    replace took := took (isName ▸ nofun)
    have ready1 : Ready s1 n := ready.next first took.less (by omega)
    refine (take_walks ready1.closed).bind fun equals s2 second ⟨current1, took1⟩ => ?_
    have assigns : s1.current.kind = .equals := by
      have rest : s.rest = s1.tokens := (cons.inj took.tokens).2
      rw [rest] at isEquals
      exact isEquals
    replace took1 := took1 (assigns ▸ nofun)
    refine (h.expression (ready1.pass second (by omega))).bind fun value s3 _ _ =>
      addExpr_walks nofun fun e t tokens added ⟨x, read⟩ _ _ => ?_
    have ends : (Tree.Expr.assign name.span equals.span x).EndsBefore t.current.kind := by
      rw [current_congr tokens]
      exact read.ends
    refine ⟨.assign name.span equals.span x, ⟨read.ordered, ?_, ?_, ends.1⟩, ends⟩
    · rw [tokens]
      exact (took.kept (current ▸ isName)).append ((took1.kept (current1 ▸ assigns)).append read.spelled)
    · rw [Expr.addTo, ← took.ast, ← took1.ast, read.added]
      exact added
  · refine (h.binary (Nat.zero_le _) ready).finds (fun _ _ => id) fun e s1 first _ =>
      walks_currentKind (Walks.ite (fun isEquals => ?_) fun other => ?_)
    · refine walks_get ((complain_walks rfl _).bind fun _ s2 second ⟨_, same⟩ => ?_)
      have ready2 : Ready s2 (n + 5) := ready.pass (first.trans second) (by omega)
      refine (take_walks ready2.closed).bind fun _ s3 third ⟨_, took⟩ => ?_
      have less := (took (current_congr same ▸ isEquals ▸ nofun)).less
      exact (h.expression (ready2.next third less (by omega))).bind fun _ s4 _ _ =>
        walks_pure fun _ _ no => no.elim
    · refine walks_pure fun ⟨x, read, _, weaker⟩ => ⟨x, read, read.uncalled, other, ?_⟩
      exact Option.eq_none_iff_forall_ne_some.2 fun op here => absurd (weaker op here) (Nat.not_lt_zero _)

lemma binary_walks {least : Nat} (le : least ≤ 20) (ready : Ready s (n + 1 + 5)) :
    Walks (binary (n + 1) least) (binary (m + 1) least) s (Further s) fun e t =>
    ∃ x, ReadExpr s x e t ∧ least ≤ x.grade ∧ Weaker least t := by
  refine (h.unary ready).finds (fun _ _ => id) fun left s1 first _ =>
    (h.operators least left (ready.pass first (by omega))).imp fun e t rest ⟨x, read, tight⟩ => ?_
  refine rest read ?_ fun op _ => ?_
  · rw [tight]
    exact le
  · rw [tight]
    exact op.precedence_lt.2.trans (by decide)

lemma operators_walks (least : Nat) (left : ExprId) (ready : Ready s (n + 1 + 7)) :
    Walks (operators (n + 1) least left) (operators (m + 1) least left) s Anywhere fun e t =>
      ∀ {s₀ y}, ReadExpr s₀ y left s → least ≤ y.grade → Weaker (y.grade + 1) s →
      ∃ x, ReadExpr s₀ x e t ∧ least ≤ x.grade ∧ Weaker least t := by
  refine walks_currentKind ?_
  split
  · next none =>
    refine walks_pure fun read le _ => ⟨_, read, le, fun op some => ?_⟩
    rw [none] at some
    cases some
  · next op isOp =>
    refine Walks.ite (fun weak => ?_) fun strong => ?_
    · refine walks_pure fun read le _ => ⟨_, read, le, fun op' some => ?_⟩
      rw [isOp] at some
      cases some
      exact weak
    · have signed : s.current.kind = op.token := BinaryOp.token_of_ofToken? isOp
      refine (take_walks ready.closed).bind ?_
      rintro sign s1 first ⟨current, took⟩
      replace took := took (signed ▸ op.token_ne rfl)
      have ready1 : Ready s1 n := ready.next first took.less (by omega)
      refine (h.binary op.precedence_lt.2 (ready1.pass (.refl _) (by omega))).bind fun right s2 second _ => ?_
      refine (addExpr_walks (Q := fun joint s3 => s3.tokens = s2.tokens ∧ s2.ast.addExpr _ =
        (s3.ast, joint)) (by rintro _ ⟨⟩) fun _ _ tokens added => ⟨tokens, added⟩).bind
        fun joint s3 third _ => ?_
      refine (h.operators least joint (ready1.pass (second.trans third) (by omega))).imp ?_
      rintro e t rest ⟨tokens, added⟩ ⟨x, read, lt, weaker1⟩ - s0 y left le weaker
      have joined : ReadExpr s0 (.binary op sign.span y x) joint s3 := by
        refine ⟨⟨Nat.le_of_lt_succ (weaker op isOp), lt, left.ordered, read.ordered⟩, ?_, ?_,
          current_congr tokens ▸ read.uncalled⟩
        · rw [tokens]
          exact left.spelled.append ((took.kept (current ▸ signed)).append read.spelled)
        · rw [Expr.addTo, left.added]
          dsimp only
          rw [← took.ast, read.added]
          exact added
      refine rest joined (not_lt.1 strong) ?_
      unfold Weaker
      rw [current_congr tokens]
      exact weaker1

lemma unary_walks (ready : Ready s (n + 1 + 6)) :
    Walks (unary (n + 1)) (unary (m + 1)) s (Further s) fun e t => ∃ x, ReadExpr s x e t ∧ x.grade = 20 := by
  refine walks_currentKind (Walks.ite (fun isMinus => ?_) fun _ => h.primary ready)
  refine (take_walks ready.closed).finds Takes.further fun sign s1 first ⟨current, took⟩ => ?_
  replace took := took (isMinus ▸ nofun)
  refine (h.unary (ready.next first took.less (by omega))).bind fun operand s2 _ _ =>
    addExpr_walks nofun fun e t tokens added ⟨x, read, tight⟩ _ => ?_
  refine ⟨.negate sign.span x, ⟨⟨tight, read.ordered⟩, ?_, ?_, current_congr tokens ▸ read.uncalled⟩, rfl⟩
  · rw [tokens]
    exact (took.kept (current ▸ isMinus)).append read.spelled
  · rw [Expr.addTo, ← took.ast, read.added]
    exact added

omit h in
lemma leaf_walks {kind : ExprKind} (took : Took s token t) (x : Tree.Expr)
    (lone : x.marks .free = [.kept token]) (adds : ∀ ast : Ast, x.addTo ast = ast.addExpr kind)
    (ordered : x.Ordered) (tight : x.grade = 20) (uncalled : x.Uncalled t.current.kind)
    (honest : ∀ place, kind ≠ .error place) : Walks (addExpr kind) (addExpr kind) t Anywhere
    fun e u => ∃ x, ReadExpr s x e u ∧ x.grade = 20 := by
  refine addExpr_walks (fun place same => absurd same (honest place)) fun e u tokens added => ?_
  refine ⟨x, ⟨ordered, ?_, ?_, current_congr tokens ▸ uncalled⟩, tight⟩
  · rw [tokens, lone]
    exact took.kept rfl
  · rw [adds, ← took.ast]
    exact added

lemma paren_walks (took : Took s token t) (isParen : token.kind = .leftParen) (ready : Ready t n) :
    let reader (k : Nat) : Parse ExprId := do
      let inner ← expression k
      let rightParen ← expect .rightParen
      addExpr (.paren token.span inner rightParen.span)
    Walks (reader n) (reader m) t Anywhere fun e u => ∃ x, ReadExpr s x e u ∧ x.grade = 20 := by
  refine (h.expression (ready.pass (.refl _) (by omega))).bind fun inner s1 first _ => ?_
  refine (expect_walks (first.closed ready.closed) .rightParen nofun).bind fun rightParen s2 _ _ => ?_
  refine addExpr_walks nofun fun e u tokens added ⟨closes, took1⟩ ⟨x, read⟩ =>
    ⟨.paren token.span x rightParen.span, ⟨read.ordered, ?_, ?_, nofun⟩, rfl⟩
  · rw [tokens]
    exact (took.kept isParen).append (read.spelled.append (took1.kept closes))
  · rw [Expr.addTo, ← took.ast, read.added, ← took1.ast]
    exact added

lemma call_walks (took : Took s token t) (isName : token.kind = .identifier) (ready : Ready t n) :
    let reader (k : Nat) : Parse ExprId := do
      let leftParen ← expect .leftParen
      let args ← arguments k
      let rightParen ← expect .rightParen
      addExpr (.call token.span leftParen.span args rightParen.span .unresolved)
    Walks (reader n) (reader m) t Anywhere fun e u => ∃ x, ReadExpr s x e u ∧ x.grade = 20 := by
  refine (expect_walks ready.closed .leftParen nofun).bind fun leftParen s1 first _ => ?_
  refine (h.arguments (ready.pass first (by omega))).bind fun args s2 second _ => ?_
  refine (expect_walks ((first.trans second).closed ready.closed) .rightParen nofun).bind
    fun rightParen s3 _ _ => ?_
  refine addExpr_walks nofun
    fun e u tokens added ⟨closes, took2⟩ ⟨xs, ordered, spelled, all⟩ ⟨opens, took1⟩ => ?_
  refine ⟨.call token.span leftParen.span xs rightParen.span, ⟨ordered, ?_, ?_, nofun⟩, rfl⟩
  · rw [tokens]
    exact (took.kept isName).append ((took1.kept opens).append (spelled.append (took2.kept closes)))
  · rw [Expr.addTo, ← took.ast, ← took1.ast, all, ← took2.ast]
    exact added

lemma primary_walks (ready : Ready s (n + 1 + 7)) : Walks (primary (n + 1)) (primary (m + 1)) s
    (Further s) fun e t => ∃ x, ReadExpr s x e t ∧ x.grade = 20 := by
  refine (take_walks ready.closed).finds Takes.further fun token s1 first ⟨current, took⟩ => ?_
  refine Walks.imp (R := fun e t => ∃ x, ReadExpr s x e t ∧ x.grade = 20) ?_ fun _ _ read _ => read
  replace took (other : token.kind ≠ .eof) : Took s token s1 := took (current ▸ other)
  have ready1 (other : token.kind ≠ .eof) : Ready s1 n := ready.next first (took other).less (by omega)
  obtain ⟨kind, span⟩ := token
  cases kind with
  | number value =>
      exact leaf_walks (took nofun) (.number span value) rfl (fun _ => rfl) trivial rfl nofun nofun
  | string value =>
      exact leaf_walks (took nofun) (.string span value) rfl (fun _ => rfl) trivial rfl nofun nofun
  | trueWord => exact leaf_walks (took nofun) (.bool span true) rfl (fun _ => rfl) trivial rfl nofun nofun
  | falseWord => exact leaf_walks (took nofun) (.bool span false) rfl (fun _ => rfl) trivial rfl nofun nofun
  | leftParen => exact paren_walks h (took nofun) rfl (ready1 nofun)
  | identifier =>
    refine walks_currentKind (Walks.ite (fun _ => call_walks h (took nofun) rfl (ready1 nofun)) fun plain => ?_)
    exact leaf_walks (took nofun) (.var span) rfl (fun _ => rfl) trivial rfl (fun _ => plain) nofun
  | _ => exact errorExpr_walks rfl span

end

/-- A part of a list is done with: the closing parenthesis comes next, or a comma was taken. -/
def Separated (s t : State) : Prop :=
  t = s ∧ s.current.kind = .rightParen ∨ ∃ span, t.ast = s.ast ∧ s.tokens = ⟨.comma, span⟩ :: t.tokens

lemma Separated.ast (h : Separated s t) : t.ast = s.ast := by
  obtain ⟨rfl, -⟩ | ⟨-, same, -⟩ := h
  · rfl
  · exact same

lemma Separated.spelled (h : Separated s t) : Spells [.optional .comma] s.tokens t.tokens := by
  obtain ⟨rfl, -⟩ | ⟨span, -, here⟩ := h
  · exact .absent .comma (.nil _)
  · rw [here]
    exact .present .comma span (.nil _)

/-- A list with commas, from its first part on. -/
lemma Separated.commas (h : Separated s t) (first : Spells part tokens s.tokens)
    (others : Spells (commas .free parts) t.tokens rest) (last : t.current.kind = .rightParen →
      parts = []) : Spells (Tree.commas .free (part :: parts)) tokens rest := by
  cases parts with
  | nil =>
    rw [← Spells.of_nil others]
    exact first.append h.spelled
  | cons second parts =>
    obtain ⟨rfl, closes⟩ | ⟨span, -, here⟩ := h
    · cases last closes
    · rw [here] at first
      exact first.append (.sign .comma span others)

lemma spells_part (h : Spells (commas .free (part :: parts)) tokens rest) : ∃ mid, Spells part tokens mid := by
  cases parts <;> exact h.split.imp fun _ => And.left

/-- A comma is read, unless the closing parenthesis comes next. -/
lemma separator_turns {α : Type} {first : α} {again again' : Parse (List α)} {Q : α → State → Prop}
    (closed : Closed s) (h : ∀ t, Separated s t → Q first t) : Turns (do
      unless (← currentKind) = .rightParen do let _ ← expect .comma
      return first :: (← again)) (do
      unless (← currentKind) = .rightParen do let _ ← expect .comma
      return first :: (← again')) again again' s Anywhere Q := by
  refine turns_currentKind (Turns.ite (fun closes => turns_again (h s (.inl ⟨rfl, closes⟩))) fun _ => ?_)
  refine ((expect_walks closed .comma nofun).turns (fun _ _ => id) fun comma t _ _ =>
    turns_again fun ⟨isComma, took⟩ => ?_).anywhere
  exact h t (.inr ⟨comma.span, took.ast, isComma ▸ took.tokens⟩)

lemma arguments_turns (h : Follows n m)
    (ready : Ready s (n + 1 + 3)) (other : s.current.kind ≠ .rightParen ∧ s.current.kind ≠ .eof) :
    Turns (arguments (n + 1)) (arguments (m + 1)) (arguments n) (arguments m) s (Further s)
    fun e t => ∃ x mid, ReadWhole s x e mid ∧ Separated mid t := by
  refine turns_currentKind (Turns.ite (fun stop => absurd stop (not_or.2 other)) fun _ => ?_)
  refine (h.expression ready).turns (fun _ _ => id) fun e s1 first _ => ?_
  exact separator_turns (first.closed ready.closed) fun t separated ⟨x, read⟩ => ⟨x, s1, read, separated⟩

lemma arguments_walks (h : Follows n m) (ready : Ready s (n + 1 + 3)) :
    Walks (arguments (n + 1)) (arguments (m + 1)) s Anywhere fun es t =>
    ∃ xs, exprsOrdered xs ∧ Spells (commas .free (exprsMarks .free xs)) s.tokens t.tokens ∧
    addExprs s.ast xs = (t.ast, es) := by
  by_cases stop : s.current.kind = .rightParen ∨ s.current.kind = .eof
  · rw [arguments, arguments]
    refine walks_currentKind (walks_currentKind ?_)
    rw [if_pos stop, if_pos stop]
    exact walks_pure ⟨[], trivial, .nil _, rfl⟩
  · have other := not_or.1 stop
    refine (arguments_turns h ready other).walks fun e s2 first further => ?_
    refine (h.arguments (ready.next first (further other.2) (by omega))).imp ?_
    rintro es u ⟨xs, ordered, spelled, added⟩ ⟨x, mid, read, separated⟩
    refine ⟨x :: xs, ⟨read.ordered, ordered⟩, separated.commas read.spelled spelled fun closes => ?_, ?_⟩
    · cases xs with
      | nil => rfl
      | cons y ys =>
        obtain ⟨mid, first⟩ := spells_part spelled
        obtain ⟨token, more, here, begun, -⟩ := y.first first
        obtain ⟨rfl, -⟩ := cons.inj here
        exact absurd closes (ne_of_begins begun rfl)
    · rw [addExprs, read.added, ← separated.ast]
      dsimp only
      rw [added]

theorem follows : n ≤ m → Follows n m := by
  intro le
  induction n generalizing m with
  | zero => exact ⟨(·.absurd (by decide)), fun _ => (·.absurd (by decide)), fun _ _ => (·.absurd
      (by decide)), (·.absurd (by decide)), (·.absurd (by decide)), (·.absurd (by decide))⟩
  | succ n ih =>
    obtain ⟨m, rfl⟩ := Nat.exists_eq_succ_of_ne_zero (Nat.ne_zero_of_lt le)
    have h := ih (Nat.le_of_succ_le_succ le)
    exact ⟨expression_walks h, binary_walks h, operators_walks h, unary_walks h, primary_walks h,
      arguments_walks h⟩

end EmLang.Parser
