import EmLang.Proofs.TreeTokens

/-!
A tree that is written out is read again. Readers are followed over the tokens of a tree, with the
tokens behind it left open but for what the first of them must not be: an operator that binds too
tightly, say, would be joined with the tree.
-/

namespace EmLang.Parser

open EmLang.Tree List Text

variable {sign : Span} {α β : Type} {act : Parse α} {s t : State} {a : α} {b : β}
  {rest rest' : List Token} {ast ast' : Ast}

/-- The tokens from the current one on. -/
def State.tokens (s : State) : List Token := s.current :: s.rest

/-- From `s` to `t` tokens were taken and nodes added, and nothing was reported. -/
structure Moved (s t : State) (rest : List Token) (ast : Ast) : Prop where
  tokens : t.tokens = rest
  ast : t.ast = ast
  report : t.report = s.report
  depth : t.depth = s.depth

lemma Moved.refl (s : State) : Moved s s s.tokens s.ast := ⟨rfl, rfl, rfl, rfl⟩

lemma Moved.trans {rest rest' : List Token} {s t u : State} {ast ast' : Ast}
    (h : Moved s t rest ast) (h' : Moved t u rest' ast') : Moved s u rest' ast' :=
  ⟨h'.tokens, h'.ast, h'.report.trans h.report, h'.depth.trans h.depth⟩

/-- A reader gives `a`, and leaves the tokens `rest` and the nodes of `ast`. -/
def Gives {α : Type} (act : Parse α) (s : State) (a : α) (rest : List Token) (ast : Ast) : Prop :=
  Post act s fun b t => b = a ∧ Moved s t rest ast

lemma Gives.bind (h : Gives act s a rest ast) {next : α → Parse β} (h' : ∀ t, Moved s t rest ast →
      Gives (next a) t b rest' ast') : Gives (act >>= next) s b rest' ast' := by
  show Post (act >>= next) s _
  rw [post_bind]
  refine h.imp ?_
  rintro _ t ⟨rfl, moved⟩
  exact (h' t moved).imp fun _ u ⟨same, moved'⟩ => ⟨same, moved.trans moved'⟩

lemma gives_pure (a : α) (s : State) : Gives (pure a) s a s.tokens s.ast := ⟨rfl, .refl s⟩

lemma Gives.map (h : Gives act s a rest ast) (f : α → β) : Gives (f <$> act) s (f a) rest ast := by
  show Post (f <$> act) s _
  rw [post_map]
  exact h.imp fun _ _ ⟨same, moved⟩ => ⟨congrArg f same, moved⟩

lemma Gives.post (h : Gives act s a rest ast) {Q : α → State → Prop}
    (h' : ∀ t, Moved s t rest ast → Q a t) : Post act s Q := by
  refine h.imp ?_
  rintro _ t ⟨rfl, moved⟩
  exact h' t moved

lemma Gives.run (h : Gives act s a rest ast) : ∃ t, act.run s = (a, t) ∧ Moved s t rest ast :=
  ⟨_, Prod.ext h.1 rfl, h.2⟩

/-! ### Tokens -/

section

variable {s : State} {token : Token} {rest : List Token}

variable (here : s.tokens = token :: rest) (more : rest ≠ []) (other : token.kind ≠ .eof)

include here more other

lemma take_gives : Gives take s token rest s.ast := by
  cases here
  simp only [Gives, take, post_bind, post_get, post_ite, post_set, post_pure, true_and]
  refine ⟨fun last => absurd last other, fun _ => ?_⟩
  unfold State.advance
  split
  · exact absurd ‹s.rest = []› more
  · rename_i next following
    exact ⟨following.symm, rfl, rfl, rfl⟩

lemma expect_gives :
    Gives (expect token.kind) s token rest s.ast := by
  refine (take_gives here more other).bind fun t moved => ?_
  rw [if_pos rfl, ← moved.tokens, ← moved.ast]
  exact gives_pure token t

lemma accept?_gives :
    Gives (accept? token.kind) s (some token) rest s.ast := by
  cases here
  simp only [Gives, accept?, currentKind, post_bind, post_get, post_pure, if_true]
  exact (take_gives rfl more other).imp fun _ _ ⟨same, moved⟩ => ⟨congrArg some same, moved⟩

end

lemma addExpr_gives (kind : ExprKind) (s : State) :
    Gives (addExpr kind) s (s.ast.addExpr kind).2 s.tokens (s.ast.addExpr kind).1 :=
  ⟨rfl, rfl, rfl, rfl, rfl⟩

lemma addStmt_gives (kind : StmtKind) (s : State) :
    Gives (addStmt kind) s (s.ast.addStmt kind).2 s.tokens (s.ast.addStmt kind).1 :=
  ⟨rfl, rfl, rfl, rfl, rfl⟩

/-! ### What is behind -/

/-- The first of the tokens is of a kind that fits. -/
def Next (P : TokenKind → Prop) (tokens : List Token) : Prop :=
  ∃ token more, tokens = token :: more ∧ P token.kind

variable {tokens : List Token} {x inner : Tree.Expr} {n : Nat} {op : BinaryOp}
  {marks marks' : List Mark} {add : Ast → Ast × List ExprId}

lemma Next.ne_nil {P : TokenKind → Prop} (h : Next P tokens) : tokens ≠ [] := by
  obtain ⟨token, more, rfl, -⟩ := h
  exact cons_ne_nil token more

lemma Next.of_ne_nil (h : tokens ≠ []) : Next (fun _ => True) tokens := by
  obtain ⟨token, more, same⟩ := exists_cons_of_ne_nil h
  exact ⟨token, more, same, trivial⟩

lemma Next.imp {P Q : TokenKind → Prop} (h : Next P tokens) (hi : ∀ kind, P kind → Q kind) : Next Q tokens := by
  obtain ⟨token, more, rfl, fits⟩ := h
  exact ⟨token, more, rfl, hi _ fits⟩

/-- A reader with a bound that is large enough gives what is written, where a token that fits is
behind it. -/
def Rereads {α : Type} (reader : Nat → Parse α) (k : Nat) (P : TokenKind → Prop) (marks : List Mark)
    (add : Ast → Ast × α) : Prop :=
  ∀ ⦃n s rest⦄, Spells marks s.tokens rest → Next P rest → 8 * s.tokens.length ≤ n + k →
    Gives (reader n) s (add s.ast).2 rest (add s.ast).1

/-- The same where `d` functions are open. -/
def RereadsAt {α : Type} (d : Nat) (reader : Nat → Parse α) (k : Nat) (P : TokenKind → Prop)
    (marks : List Mark) (add : Ast → Ast × α) : Prop :=
  ∀ ⦃n s rest⦄, s.depth = d → Spells marks s.tokens rest → Next P rest → 8 * s.tokens.length ≤ n + k →
    Gives (reader n) s (add s.ast).2 rest (add s.ast).1

lemma State.tokens_pos (s : State) : 0 < s.tokens.length := Nat.succ_pos _

/-- A bound that is large enough is used up only behind the last token. -/
lemma State.exists_bound (s : State) {n k : Nat} (deep : 8 * s.tokens.length ≤ n + k)
    (small : k ≤ 7) : ∃ m, n = m + 1 := by
  have pos := s.tokens_pos
  exact ⟨n - 1, by omega⟩

section

variable {α β : Type} {s : State} {token : Token} {kind : TokenKind} {span : Span}
  {marks : List Mark} {rest rest' : List Token} {b : β} {ast : Ast} {P : TokenKind → Prop}

lemma Next.of_kept {mid : List Token} (fits : P token.kind)
    (h : Spells (.kept token :: marks) mid rest) : Next P mid := by
  obtain ⟨more, rfl, -⟩ := h.of_kept
  exact ⟨token, more, rfl, fits⟩

lemma Next.of_sign (fits : P kind) {mid : List Token} (h : Spells (.sign kind :: marks) mid rest) :
    Next P mid := by
  obtain ⟨span, more, rfl, -⟩ := h.of_sign
  exact ⟨_, more, rfl, fits⟩

variable {f : Token → Parse β}

lemma take_bind (written : Spells (.kept token :: marks) s.tokens rest) (filled : rest ≠ [])
    (other : token.kind ≠ .eof) (next : ∀ t, Moved s t t.tokens s.ast → t.tokens.length <
      s.tokens.length → Spells marks t.tokens rest → Gives (f token) t b rest' ast) :
    Gives (take >>= f) s b rest' ast := by
  obtain ⟨more, here, written⟩ := written.of_kept
  refine (take_gives here (written.ne_nil filled) other).bind fun t moved => ?_
  have tokens := moved.tokens
  subst tokens
  exact next t moved (by rw [here]; exact Nat.lt_succ_self _) written

lemma expect_bind (written : Spells (.kept ⟨kind, span⟩ :: marks) s.tokens rest) (filled : rest ≠
      []) (other : kind ≠ .eof) (next : ∀ t, Moved s t t.tokens s.ast → t.tokens.length <
      s.tokens.length → Spells marks t.tokens rest → Gives (f ⟨kind, span⟩) t b rest' ast) :
    Gives (expect kind >>= f) s b rest' ast := by
  obtain ⟨more, here, written⟩ := written.of_kept
  refine (expect_gives here (written.ne_nil filled) other).bind fun t moved => ?_
  have tokens := moved.tokens
  subst tokens
  exact next t moved (by rw [here]; exact Nat.lt_succ_self _) written

section

variable (written : Spells (.sign kind :: marks) s.tokens rest) (filled : rest ≠ []) (other : kind ≠ .eof)

include written filled other

lemma expect_sign_bind (next : ∀ span t, Moved s t t.tokens s.ast → t.tokens.length <
      s.tokens.length → Spells marks t.tokens rest → Gives (f ⟨kind, span⟩) t b rest' ast) :
    Gives (expect kind >>= f) s b rest' ast := by
  obtain ⟨span, more, here, written⟩ := written.of_sign
  exact expect_bind (here ▸ .kept ⟨kind, span⟩ written) filled other (next span)

lemma accept?_sign_bind {f : Option Token → Parse β} (next : ∀ span t, Moved s t t.tokens s.ast →
      t.tokens.length < s.tokens.length → Spells marks t.tokens rest →
      Gives (f (some ⟨kind, span⟩)) t b rest' ast) : Gives (accept? kind >>= f) s b rest' ast := by
  obtain ⟨span, more, here, written⟩ := written.of_sign
  refine (accept?_gives here (written.ne_nil filled) other).bind fun t moved => ?_
  have tokens := moved.tokens
  subst tokens
  exact next span t moved (by rw [here]; exact Nat.lt_succ_self _) written

end

lemma accept?_none_bind {f : Option Token → Parse β} (other : s.current.kind ≠ kind)
    (more : Gives (f none) s b rest' ast) : Gives (accept? kind >>= f) s b rest' ast := by
  simp only [Gives, accept?, currentKind, post_bind, post_get, post_pure, if_neg other]
  exact more

section

variable {d k n : Nat} {reader : Nat → Parse α} {add : Ast → Ast × α} {marks' : List Mark} {f : α → Parse β}

lemma Rereads.at (h : Rereads reader k P marks add) (d : Nat) : RereadsAt d reader k P marks add :=
  fun _ _ _ _ written next deep => h written next deep

lemma RereadsAt.map (h : RereadsAt d reader k P marks add) (f : α → β) :
    RereadsAt d (fun n => f <$> reader n) k P marks fun ast => ((add ast).1, f (add ast).2) :=
  fun _ _ _ opened written next deep => (h opened written next deep).map f

lemma RereadsAt.bind (h : RereadsAt d reader k P marks add) (opened : s.depth = d)
    (written : Spells (marks ++ marks') s.tokens rest)
    (next : ∀ {mid}, Spells marks' mid rest → Next P mid) (deep : 8 * s.tokens.length ≤ n + k)
    (more : ∀ t, Moved s t t.tokens (add s.ast).1 → Spells marks s.tokens t.tokens →
      Spells marks' t.tokens rest → Gives (f (add s.ast).2) t b rest' ast) :
    Gives (reader n >>= f) s b rest' ast := by
  obtain ⟨mid, first, second⟩ := written.split
  refine (h opened first (next second) deep).bind fun t moved => ?_
  have tokens := moved.tokens
  subst tokens
  exact more t moved first second

lemma Rereads.bind (h : Rereads reader k P marks add)
    (written : Spells (marks ++ marks') s.tokens rest)
    (next : ∀ {mid}, Spells marks' mid rest → Next P mid) (deep : 8 * s.tokens.length ≤ n + k)
    (more : ∀ t, Moved s t t.tokens (add s.ast).1 → Spells marks s.tokens t.tokens →
      Spells marks' t.tokens rest → Gives (f (add s.ast).2) t b rest' ast) :
    Gives (reader n >>= f) s b rest' ast :=
  (h.at s.depth).bind rfl written next deep more

end

lemma kind_of_sign (written : Spells (.sign kind :: marks) s.tokens rest) : s.current.kind = kind := by
  obtain ⟨span, more, here, -⟩ := written.of_sign
  exact congrArg Token.kind (cons.inj here).1

lemma current_of_kept (written : Spells (.kept token :: marks) s.tokens rest) : s.current = token := by
  obtain ⟨more, here, -⟩ := written.of_kept
  exact (cons.inj here).1

lemma current_begins {p : Punctuation} {x : Tree.Expr}
    (written : Spells (x.marks p ++ marks) s.tokens rest) : begins s.current.kind = true := by
  obtain ⟨mid, first, -⟩ := written.split
  obtain ⟨token, more, here, begun, -⟩ := x.first first
  obtain ⟨rfl, -⟩ := cons.inj here
  exact begun

lemma ne_of_begins {kind' : TokenKind} (begun : begins kind = true) (other : begins kind' = false) :
    kind ≠ kind' := by
  rintro rfl
  cases begun.symm.trans other

lemma gives_get {f : State → Parse β} (h : Gives (f s) s b rest ast) : Gives (get >>= f) s b rest ast := h

lemma gives_currentKind {f : TokenKind → Parse β} (h : Gives (f s.current.kind) s b rest ast) :
    Gives (currentKind >>= f) s b rest ast :=
  h

lemma gives_nextKind {f : TokenKind → Parse β} (h : Gives
      (f (s.rest.headD s.current).kind) s b rest ast) : Gives (nextKind >>= f) s b rest ast :=
  h

variable (written : Spells [] s.tokens rest) (same : s.ast = ast)

include written same

lemma addExpr_last (kind : ExprKind) :
    Gives (addExpr kind) s (ast.addExpr kind).2 rest (ast.addExpr kind).1 := by
  rw [← same, ← written.of_nil]
  exact addExpr_gives kind s

lemma addStmt_last (kind : StmtKind) :
    Gives (addStmt kind) s (ast.addStmt kind).2 rest (ast.addStmt kind).1 := by
  rw [← same, ← written.of_nil]
  exact addStmt_gives kind s

end

/-! ### Operators -/

/-- The reader of operator expressions gets as far as the expression that is written, and then goes
on with what is behind it. -/
def Chains (x : Tree.Expr) : Prop :=
  ∀ ⦃n least s rest⦄, least ≤ x.grade → Spells (x.marks .full) s.tokens rest →
    Next (fun kind => x.Uncalled kind ∧ ∀ op, BinaryOp.ofToken? kind = some op → op.precedence ≤ x.grade) rest →
    8 * s.tokens.length ≤ n + 5 → ∃ m t, Moved s t rest (x.addTo s.ast).1 ∧ 8 * t.tokens.length ≤ m + 7 ∧
      (binary n least).run s = (operators m least (x.addTo s.ast).2).run t

/-- An expression is read from its tokens as a primary one, behind minus signs, or anywhere. -/
def RereadsPrimary (x : Tree.Expr) : Prop := Rereads primary 7 x.Uncalled (x.marks .full) (x.addTo ·)

def RereadsUnary (x : Tree.Expr) : Prop := Rereads unary 6 x.Uncalled (x.marks .full) (x.addTo ·)

def RereadsExpr (p : Punctuation) (x : Tree.Expr) : Prop :=
  Rereads expression 4 x.EndsBefore (x.marks p) (x.addTo ·)

/-- An expression is read from its tokens, by itself and as an operand. -/
structure Rereading (x : Tree.Expr) : Prop where
  unary : x.grade = 20 → Rereads unary 6 x.Uncalled (x.marks .full) (x.addTo ·)
  chains : x.grade ≠ 0 → Chains x
  expression : Rereads expression 4 x.EndsBefore (x.marks .full) (x.addTo ·)

lemma unary_of_primary (h : RereadsPrimary x) (other : ∀ token more rest,
      Spells (x.marks .full) (token :: more) rest → token.kind ≠ .minus) : RereadsUnary x := by
  intro n s rest written next deep
  obtain ⟨n, rfl⟩ := s.exists_bound deep (by decide)
  simp only [Gives, unary, currentKind, post_bind, post_get, post_pure, if_neg (other _ _ _ written)]
  exact h written next (by omega)

lemma chains_of_unary (h : RereadsUnary x) : Chains x := by
  intro n least s rest _ written next deep
  obtain ⟨n, rfl⟩ := s.exists_bound deep (by decide)
  obtain ⟨t, run, moved⟩ := (h written (next.imp fun _ => And.left) (by omega : _ ≤ n + 6)).run
  obtain ⟨_, _, whole, -, le⟩ := x.first written
  refine ⟨n, t, moved, ?_, ?_⟩
  · have shorter := congrArg List.length whole
    rw [length_cons] at shorter
    rw [moved.tokens]
    omega
  · show ((Parser.unary n >>= fun left => operators n least left).run s) = _
    rw [StateT.run_bind, run]
    rfl

/-- Where no operator follows that binds as tightly as asked, the expression is all that is read. -/
lemma Chains.gives {least : Nat} {rest : List Token}
    (h : Chains x) (le : least ≤ x.grade) (written : Spells (x.marks .full) s.tokens rest)
    (next : Next (fun kind => x.Uncalled kind ∧ ∀ op, BinaryOp.ofToken? kind = some op →
      op.precedence < least) rest) (deep : 8 * s.tokens.length ≤ n + 5) :
    Gives (binary n least) s (x.addTo s.ast).2 rest (x.addTo s.ast).1 := by
  obtain ⟨m, t, moved, deep', run⟩ :=
    h le written (next.imp fun _ ⟨paren, weak⟩ => ⟨paren, fun op here => ((weak op here).le.trans le)⟩) deep
  have pos := t.tokens_pos
  obtain ⟨m, rfl⟩ : ∃ k, m = k + 1 := ⟨m - 1, by omega⟩
  obtain ⟨token, more, rfl, -, weak⟩ := next
  obtain ⟨rfl, -⟩ := cons.inj moved.tokens
  have stays : Post (operators (m + 1) least (x.addTo s.ast).2) t fun e u => e = (x.addTo s.ast).2 ∧ u = t := by
    simp only [operators, currentKind, post_bind, post_get, post_pure]
    split
    · exact ⟨rfl, rfl⟩
    · next op here =>
      rw [if_pos (weak op here)]
      exact ⟨rfl, rfl⟩
  obtain ⟨value, state⟩ := stays
  unfold Gives Post
  rw [run, value, state]
  exact ⟨rfl, moved⟩

/-- Behind a name that such an expression begins with, there is no `=`. -/
lemma next_ne_equals {rest : List Token} (next : Next (· ≠ .equals) rest) :
    ∀ (x : Tree.Expr), x.grade ≠ 0 → x.Ordered → ∀ {token : Token} {more : List Token},
    Spells (x.marks .full) (token :: more) rest → token.kind = .identifier → Next (· ≠ .equals) more
  | .number .., _, _, _, _, h, named | .string .., _, _, _, _, h, named | .negate .., _, _, _, _, h, named
  | .paren .., _, _, _, _, h, named => by
    cases h
    cases named
  | .bool _ value, _, _, _, _, h, named => by
    cases h
    cases value <;> cases named
  | .var _, _, _, _, _, h, _ => by
    cases h with
    | kept _ more =>
      cases more
      exact next
  | .assign .., loose, _, _, _, _, _ => absurd rfl loose
  | .call .., _, _, _, _, h, _ => by
    cases h with
    | kept _ more =>
      cases more
      exact ⟨_, _, rfl, nofun⟩
  | .binary op sign left right, _, ⟨le, _, ordered, _⟩, _, _, h, named => by
    obtain ⟨mid, first, second⟩ := h.split
    have behind : Next (· ≠ .equals) mid := by
      cases second
      exact ⟨_, _, rfl, op.token_ne rfl⟩
    exact next_ne_equals behind left (Nat.ne_of_gt (op.precedence_lt.1.trans_le le)) ordered first named

lemma expression_of_chains (loose : x.grade ≠ 0) (ordered : x.Ordered) (h : Chains x) :
    RereadsExpr .full x := by
  intro n s rest written next deep
  obtain ⟨n, rfl⟩ := s.exists_bound deep (by decide)
  have plain : ¬ (s.current.kind = .identifier ∧ (s.rest.headD s.current).kind = .equals) := by
    rintro ⟨named, assigns⟩
    obtain ⟨token, more, behind, other⟩ :=
      next_ne_equals (next.imp fun _ h => h.2.1) x loose ordered written named
    rw [behind] at assigns
    exact other assigns
  simp only [Gives, expression, currentKind, nextKind, post_bind, post_get, post_pure, if_neg plain]
  have whole : Next (fun kind => x.Uncalled kind ∧ ∀ op, BinaryOp.ofToken? kind = some op →
    op.precedence < 0) rest :=
    next.imp fun kind ⟨paren, _, stops⟩ => ⟨paren, fun op here => nomatch stops.symm.trans here⟩
  refine (h.gives (Nat.zero_le _) written whole (by omega)).post fun t moved => ?_
  have stops : t.current.kind ≠ .equals := by
    obtain ⟨token, more, rfl, -, other, -⟩ := next
    obtain ⟨rfl, -⟩ := cons.inj moved.tokens
    exact other
  rw [if_neg stops]
  exact ⟨rfl, moved⟩

/-- Reads an operator and the operand to its right. -/
def joined (n : Nat) (op : BinaryOp) (left : ExprId) : Parse ExprId := do
  let sign ← take
  let right ← binary n (op.precedence + 1)
  addExpr (.binary op sign.span left right)

lemma operators_run {least : Nat} {left : ExprId}
    (here : BinaryOp.ofToken? s.current.kind = some op) (le : least ≤ op.precedence) :
    (operators (n + 1) least left).run s = (joined n op left >>= operators n least).run s := by
  have weak : ¬ op.precedence < least := not_lt.2 le
  simp only [operators, currentKind, joined, bind_assoc, StateT.run_bind, StateT.run_get, pure_bind,
    here, if_neg weak]

lemma joined_gives {more rest : List Token} (left : ExprId)
    (h : Chains x) (tight : op.precedence < x.grade) (here : s.tokens = ⟨op.token, sign⟩ :: more)
    (written : Spells (x.marks .full) more rest)
    (next : Next (fun kind => x.Uncalled kind ∧ ∀ o, BinaryOp.ofToken? kind = some o →
      o.precedence ≤ op.precedence) rest) (deep : 8 * more.length ≤ n + 5) : Gives
    (joined n op left) s ((x.addTo s.ast).1.addExpr (.binary op sign left (x.addTo s.ast).2)).2 rest
    ((x.addTo s.ast).1.addExpr (.binary op sign left (x.addTo s.ast).2)).1 := by
  have filled : more ≠ [] := by
    obtain ⟨token, more, rfl, -⟩ := x.first written
    exact cons_ne_nil token more
  refine (take_gives here filled (op.token_ne rfl)).bind fun t moved => ?_
  rw [← moved.tokens] at written deep
  rw [← moved.ast]
  refine (h.gives tight written (next.imp fun _ ⟨paren, weak⟩ =>
    ⟨paren, fun o here => Nat.lt_succ_of_le (weak o here)⟩) deep).bind fun u moved => ?_
  have added := addExpr_gives (.binary op sign left (x.addTo t.ast).2) u
  rw [moved.tokens, moved.ast] at added
  exact added

/-- An operator expression is read from its operands. -/
lemma chains_binary {left right : Tree.Expr} (le : op.precedence ≤ left.grade)
    (lt : op.precedence < right.grade) (hl : Chains left) (hr : Chains right) :
    Chains (.binary op sign left right) := by
  intro n least s rest least_le written next deep
  obtain ⟨mid, first, second⟩ := written.split
  cases second with
  | kept _ second =>
    obtain ⟨m, t, moved, deep, run⟩ := hl (least_le.trans le) first
      ⟨_, _, rfl, fun _ => op.token_ne rfl, fun o here => by
        cases op.ofToken?_token.symm.trans here
        exact le⟩ deep
    obtain ⟨current, more⟩ := cons.inj moved.tokens
    obtain ⟨m, rfl⟩ : ∃ k, m = k + 1 := ⟨m - 1, by have pos := t.tokens_pos; omega⟩
    have shorter := congrArg List.length moved.tokens
    rw [length_cons] at shorter
    have fewer := second.length_le
    obtain ⟨u, step, moved'⟩ :=
      (joined_gives (n := m) (left.addTo s.ast).2 hr lt moved.tokens second next (by omega)).run
    rw [moved.ast] at moved'
    refine ⟨m, u, moved.trans moved', by rw [moved'.tokens]; omega, ?_⟩
    rw [run, operators_run (by rw [current]; exact op.ofToken?_token) least_le, StateT.run_bind,
      step, moved.ast]
    rfl

/-- An expression that holds together by itself is read wherever an expression is. -/
lemma Rereading.of_unary (tight : x.grade = 20) (ordered : x.Ordered)
    (h : RereadsUnary x) : Rereading x :=
  have loose : x.grade ≠ 0 := fun zero => nomatch tight.symm.trans zero
  ⟨fun _ => h, fun _ => chains_of_unary h, expression_of_chains loose ordered (chains_of_unary h)⟩

lemma Rereading.of_primary (tight : x.grade = 20) (ordered : x.Ordered) (h : RereadsPrimary x)
    (other : ∀ {token more rest}, Spells (x.marks .full) (token :: more) rest →
      token.kind ≠ .minus) : Rereading x :=
  .of_unary tight ordered (unary_of_primary h fun _ _ _ => other)

/-! ### Expressions -/

lemma primary_literal (literal : (∃ span value, x = .number span value) ∨
      (∃ span value, x = .string span value) ∨ ∃ span value, x = .bool span value) :
    RereadsPrimary x := by
  intro n s rest written next deep
  obtain ⟨n, rfl⟩ := s.exists_bound deep (by decide)
  obtain ⟨span, value, rfl⟩ | ⟨span, value, rfl⟩ | ⟨span, _ | _, rfl⟩ := literal
  all_goals
    exact take_bind written next.ne_nil nofun fun t moved _ written => addExpr_last written moved.ast _

lemma primary_var {name : Span} : RereadsPrimary (.var name) := by
  intro n s rest written next deep
  obtain ⟨n, rfl⟩ := s.exists_bound deep (by decide)
  refine take_bind written next.ne_nil nofun fun t moved _ written => gives_currentKind ?_
  have plain : t.current.kind ≠ .leftParen := by
    obtain ⟨token, more, behind, other⟩ := next
    obtain ⟨rfl, -⟩ := cons.inj (written.of_nil.trans behind)
    exact other rfl
  rw [if_neg plain]
  exact addExpr_last written moved.ast _

lemma primary_paren {leftParen rightParen : Span} (h : RereadsExpr .full inner) :
    RereadsPrimary (.paren leftParen inner rightParen) := by
  intro n s rest written next deep
  obtain ⟨n, rfl⟩ := s.exists_bound deep (by decide)
  refine take_bind written next.ne_nil nofun fun t moved less written => ?_
  refine h.bind written (.of_kept ⟨nofun, nofun, rfl⟩) (by omega) fun u moved1 _ written => ?_
  refine expect_bind written next.ne_nil nofun fun v moved2 _ written => ?_
  rw [← moved.ast]
  exact addExpr_last written (moved2.ast.trans moved1.ast) _

lemma primary_call {xs : List Tree.Expr} {callee leftParen rightParen : Span}
    (h : Rereads arguments 3 (· = .rightParen) (commas .full (exprsMarks .full xs)) (addExprs · xs)) :
    RereadsPrimary (.call callee leftParen xs rightParen) := by
  intro n s rest written next deep
  obtain ⟨n, rfl⟩ := s.exists_bound deep (by decide)
  refine take_bind written next.ne_nil nofun fun t moved less written => gives_currentKind ?_
  rw [if_pos (congrArg Token.kind (current_of_kept written))]
  refine expect_bind written next.ne_nil nofun fun u moved1 less1 written => ?_
  refine h.bind written (.of_kept (P := (· = .rightParen)) rfl) (by omega) fun v moved2 _ written => ?_
  refine expect_bind written next.ne_nil nofun fun w moved3 _ written => ?_
  rw [← moved.ast, ← moved1.ast]
  exact addExpr_last written (moved3.ast.trans moved2.ast) _

lemma unary_negate (h : RereadsUnary x) : RereadsUnary (.negate sign x) := by
  intro n s rest written next deep
  obtain ⟨n, rfl⟩ := s.exists_bound deep (by decide)
  refine gives_currentKind ?_
  rw [if_pos (congrArg Token.kind (current_of_kept written))]
  refine take_bind written next.ne_nil nofun fun t moved less written => ?_
  refine (h written next (by omega)).bind fun u moved1 => ?_
  rw [← moved.ast]
  exact addExpr_last (moved1.tokens ▸ .nil _) moved1.ast _

lemma expression_assign {name equals : Span} (h : RereadsExpr .full x) :
    RereadsExpr .full (.assign name equals x) := by
  intro n s rest written next deep
  obtain ⟨n, rfl⟩ := s.exists_bound deep (by decide)
  have assigns : s.current.kind = .identifier ∧ (s.rest.headD s.current).kind = .equals := by
    obtain ⟨more, here, written⟩ := written.of_kept
    obtain ⟨more, rfl, -⟩ := written.of_kept
    obtain ⟨current, rest⟩ := cons.inj here
    rw [rest, current]
    exact ⟨rfl, rfl⟩
  refine gives_currentKind (gives_nextKind ?_)
  rw [if_pos assigns]
  refine take_bind written next.ne_nil nofun fun t moved less written => ?_
  refine take_bind written next.ne_nil nofun fun u moved1 less1 written => ?_
  refine (h written next (by omega)).bind fun v moved2 => ?_
  rw [← moved.ast, ← moved1.ast]
  exact addExpr_last (moved2.tokens ▸ .nil _) moved2.ast _

/-! ### Lists in parentheses -/

/-- The readers of lists stop at the closing parenthesis. -/
lemma rereads_nil {k : Nat} {α : Type} {reader more : Nat → Parse (List α)} (le : k ≤ 7)
    (step : ∀ n, reader (n + 1) = do
      if (← currentKind) = .rightParen ∨ (← currentKind) = .eof then return [] else more n) :
    Rereads reader k (· = .rightParen) [] fun ast => (ast, []) := by
  intro n s rest written next deep
  obtain ⟨n, rfl⟩ := s.exists_bound deep le
  obtain ⟨token, more, rfl, closes⟩ := next
  obtain ⟨rfl, -⟩ := cons.inj written.of_nil
  rw [step]
  refine gives_currentKind (gives_currentKind ?_)
  rw [if_pos (.inl closes), ← written.of_nil]
  exact gives_pure _ s

lemma arguments_nil : Rereads arguments 3 (· = .rightParen) [] fun ast => (ast, []) :=
  rereads_nil (by decide) fun _ => rfl

/-- Behind a part there is a comma, unless it is the last one. -/
lemma separator_gives {k n : Nat} {rest : List Token} {s : State} {α β : Type} {reader : Nat →
      Parse α} {add : Ast → Ast × α} (f : α → β) (h : Rereads reader k (· = .rightParen) marks add)
    (behind : marks' = .sign .comma :: marks ∨ marks' = [] ∧ marks = [])
    (written : Spells marks' s.tokens rest) (next : Next (· = .rightParen) rest)
    (deep : 8 * s.tokens.length ≤ n + k) : Gives (do
      unless (← currentKind) = .rightParen do let _ ← expect .comma
      let a ← reader n
      return f a) s (f (add s.ast).2) rest (add s.ast).1 := by
  refine gives_currentKind ?_
  obtain rfl | ⟨rfl, rfl⟩ := behind
  · rw [kind_of_sign written, if_neg nofun]
    refine expect_sign_bind written next.ne_nil nofun fun span t moved less written => ?_
    rw [← moved.ast]
    exact (h written next (by omega)).map f
  · have last : s.current.kind = .rightParen := by
      obtain ⟨token, more, rfl, closes⟩ := next
      obtain ⟨rfl, -⟩ := cons.inj written.of_nil
      exact closes
    rw [if_pos last]
    exact (h written next deep).map f

lemma arguments_cons
    (hx : RereadsExpr .full x) (hxs : Rereads arguments 3 (· = .rightParen) marks add)
    (behind : marks' = .sign .comma :: marks ∨ marks' = [] ∧ marks = []) :
    Rereads arguments 3 (· = .rightParen) (x.marks .full ++ marks') fun ast =>
    ((add (x.addTo ast).1).1, (x.addTo ast).2 :: (add (x.addTo ast).1).2) := by
  intro n s rest written next deep
  obtain ⟨n, rfl⟩ := s.exists_bound deep (by decide)
  have begun := current_begins written
  have closing {mid : List Token} (h : Spells marks' mid rest) : Next x.EndsBefore mid := by
    obtain rfl | ⟨rfl, -⟩ := behind
    · exact .of_sign ⟨nofun, nofun, rfl⟩ h
    · rw [h.of_nil]
      exact next.imp fun kind closes => closes ▸ ⟨nofun, nofun, rfl⟩
  refine gives_currentKind (gives_currentKind ?_)
  rw [if_neg (not_or.2 ⟨ne_of_begins begun rfl, ne_of_begins begun rfl⟩)]
  refine hx.bind written closing (by omega) fun t moved first written => ?_
  have less := x.fewer first
  have others := separator_gives ((x.addTo s.ast).2 :: ·) hxs behind written next (by omega : _ ≤ n + 3)
  rw [moved.ast] at others
  exact others

mutual

/-- Every expression whose operands hold together is read again. -/
theorem rereading : ∀ x : Tree.Expr, x.Ordered → Rereading x
  | .number span value,
      ordered => .of_primary rfl ordered (primary_literal (.inl ⟨span, value, rfl⟩)) fun h => by
    cases h
    exact nofun
  | .string span value, ordered =>
      .of_primary rfl ordered (primary_literal (.inr (.inl ⟨span, value, rfl⟩))) fun h => by
    cases h
    exact nofun
  | .bool span value, ordered =>
      .of_primary rfl ordered (primary_literal (.inr (.inr ⟨span, value, rfl⟩))) fun h => by
    cases h
    cases value <;> exact nofun
  | .var _, ordered => .of_primary rfl ordered primary_var fun h => by
    cases h
    exact nofun
  | .paren _ inner _, ordered =>
      .of_primary rfl ordered (primary_paren (rereading inner ordered).expression) fun h => by
    cases h
    exact nofun
  | .call _ _ xs _, ordered => .of_primary rfl ordered (primary_call (rereadsAll xs ordered)) fun h => by
    cases h
    exact nofun
  | .negate _ x, ordered => .of_unary rfl ordered (unary_negate ((rereading x ordered.2).unary ordered.1))
  | .assign _ _ x, ordered => ⟨nofun, fun loose => absurd rfl loose,
      expression_assign (rereading x ordered).expression⟩
  | .binary op sign left right, ordered =>
    have ⟨le, lt, first, second⟩ := ordered
    have pos := op.precedence_lt
    have chains : Chains (.binary op sign left right) :=
      chains_binary le lt ((rereading left first).chains (Nat.ne_of_gt (pos.1.trans_le le)))
      ((rereading right second).chains (Nat.ne_of_gt (pos.1.trans lt)))
    have loose : (Tree.Expr.binary op sign left right).grade ≠ 0 := Nat.ne_of_gt pos.1
    ⟨fun tight => absurd tight (Nat.ne_of_lt pos.2), fun _ => chains, expression_of_chains loose ordered chains⟩

theorem rereadsAll : ∀ xs : List Tree.Expr, exprsOrdered xs →
    Rereads arguments 3 (· = .rightParen) (commas .full (exprsMarks .full xs)) (addExprs · xs)
  | [], _ => arguments_nil
  | [x], ordered => arguments_cons (rereading x ordered.1).expression arguments_nil (.inr ⟨rfl, rfl⟩)
  | x :: y :: ys, ordered =>
      arguments_cons (rereading x ordered.1).expression (rereadsAll (y :: ys) ordered.2) (.inl rfl)

end

end EmLang.Parser
