import EmLang.Proofs.Effects
import EmLang.Proofs.SyntaxTrees

/-!
Trees written out as tokens. Between parts stand commas, and behind a statement a semicolon; how
much of this punctuation is there is left open. Only some trees can be read from their tokens: the
operators of the others would join other operands.
-/

namespace EmLang

open List

/-- The token that an operator is written with. -/
def BinaryOp.token : BinaryOp → TokenKind
  | add => .plus
  | sub => .minus
  | mul => .asterisk
  | div => .slash
  | rem => .percent
  | eq => .equalsEquals
  | ne => .notEquals
  | lt => .lessThan
  | gt => .greaterThan
  | le => .lessOrEqual
  | ge => .greaterOrEqual

@[simp] lemma BinaryOp.ofToken?_token (op : BinaryOp) : ofToken? op.token = some op := by
  cases op <;> rfl

lemma BinaryOp.token_of_ofToken? {kind : TokenKind} {op : BinaryOp} (h : ofToken? kind = some op) :
    kind = op.token := by
  cases kind <;> cases h <;> rfl

/-- The token of an operator is no token that stands for something else. -/
lemma BinaryOp.token_ne {kind : TokenKind} (op : BinaryOp) (h : ofToken? kind = none) : op.token ≠ kind := by
  rintro rfl
  cases op.ofToken?_token.symm.trans h

lemma BinaryOp.precedence_lt (op : BinaryOp) : 0 < op.precedence ∧ op.precedence < 20 := by
  cases op <;> decide

namespace Tree

open Text

/-! ### Marks -/

/-- A token of a tree that is written out. -/
inductive Mark where
  /-- A token that a node keeps. -/
  | kept (token : Token)
  /-- A token that no node keeps, so that only its kind is known. -/
  | sign (kind : TokenKind)
  /-- A token of this kind, which may be left out. -/
  | optional (kind : TokenKind)

/-- The tokens begin with those that the marks stand for, and `rest` is behind them. -/
inductive Spells : List Mark → List Token → List Token → Prop where
  | nil (rest : List Token) : Spells [] rest rest
  | kept (token : Token) {marks : List Mark} {tokens rest : List Token} (more : Spells marks tokens rest) :
      Spells (.kept token :: marks) (token :: tokens) rest
  | sign (kind : TokenKind) (span : Span) {marks : List Mark} {tokens rest : List Token}
      (more : Spells marks tokens rest) : Spells (.sign kind :: marks) (⟨kind, span⟩ :: tokens) rest
  | present (kind : TokenKind) (span : Span)
      {marks : List Mark} {tokens rest : List Token} (more : Spells marks tokens rest) :
      Spells (.optional kind :: marks) (⟨kind, span⟩ :: tokens) rest
  | absent (kind : TokenKind) {marks : List Mark} {tokens rest : List Token} (more : Spells marks tokens rest) :
      Spells (.optional kind :: marks) tokens rest

section

variable {marks marks' : List Mark} {tokens rest rest' : List Token}

lemma Spells.append (h : Spells marks tokens rest) (h' : Spells marks' rest rest') :
    Spells (marks ++ marks') tokens rest' := by
  induction h with
  | nil => exact h'
  | kept token _ ih => exact .kept token (ih h')
  | sign kind span _ ih => exact .sign kind span (ih h')
  | present kind span _ ih => exact .present kind span (ih h')
  | absent kind _ ih => exact .absent kind (ih h')

lemma Spells.split (h : Spells (marks ++ marks') tokens rest) :
    ∃ mid, Spells marks tokens mid ∧ Spells marks' mid rest := by
  induction marks generalizing tokens with
  | nil => exact ⟨tokens, .nil tokens, h⟩
  | cons mark marks ih =>
    cases h with
    | kept token more =>
      obtain ⟨mid, first, second⟩ := ih more
      exact ⟨mid, .kept token first, second⟩
    | sign kind span more =>
      obtain ⟨mid, first, second⟩ := ih more
      exact ⟨mid, .sign kind span first, second⟩
    | present kind span more =>
      obtain ⟨mid, first, second⟩ := ih more
      exact ⟨mid, .present kind span first, second⟩
    | absent kind more =>
      obtain ⟨mid, first, second⟩ := ih more
      exact ⟨mid, .absent kind first, second⟩

/-- All marks can be spelled. -/
lemma Spells.exists : ∀ (marks : List Mark) (rest : List Token), ∃ tokens, Spells marks tokens rest
  | [], rest => ⟨rest, .nil rest⟩
  | .kept token :: marks, rest =>
    have ⟨tokens, h⟩ := Spells.exists marks rest
    ⟨token :: tokens, .kept token h⟩
  | .sign kind :: marks, rest =>
    have ⟨tokens, h⟩ := Spells.exists marks rest
    ⟨⟨kind, 0, 0, ""⟩ :: tokens, .sign kind _ h⟩
  | .optional kind :: marks, rest =>
    have ⟨tokens, h⟩ := Spells.exists marks rest
    ⟨tokens, .absent kind h⟩

lemma Spells.of_nil (h : Spells [] tokens rest) : tokens = rest := by
  cases h
  rfl

lemma Spells.of_kept {token : Token} (h : Spells (.kept token :: marks) tokens rest) :
    ∃ more, tokens = token :: more ∧ Spells marks more rest := by
  cases h with
  | kept _ more => exact ⟨_, rfl, more⟩

lemma Spells.of_sign {kind : TokenKind} (h : Spells (.sign kind :: marks) tokens rest) :
    ∃ span more, tokens = ⟨kind, span⟩ :: more ∧ Spells marks more rest := by
  cases h with
  | sign _ span more => exact ⟨span, _, rfl, more⟩

variable (h : Spells marks tokens rest)

include h

lemma Spells.suffix : rest <:+ tokens := by
  induction h with
  | nil => exact suffix_rfl
  | kept _ _ ih | sign _ _ _ ih | present _ _ _ ih => exact ih.trans (suffix_cons _ _)
  | absent _ _ ih => exact ih

lemma Spells.length_le : rest.length ≤ tokens.length := h.suffix.length_le

lemma Spells.ne_nil (filled : rest ≠ []) : tokens ≠ [] :=
  length_pos_iff.1 ((length_pos_iff.2 filled).trans_le h.length_le)

/-- Tokens that nodes keep stand in front of what is left. -/
lemma Spells.front : ∃ front, tokens = front ++ rest ∧ ∀ token, .kept token ∈ marks → token ∈ front := by
  induction h with
  | nil => exact ⟨[], rfl, nofun⟩
  | kept token _ ih =>
    obtain ⟨front, rfl, kept⟩ := ih
    refine ⟨token :: front, rfl, fun other mem => ?_⟩
    obtain mem | mem := mem_cons.1 mem
    · exact Mark.kept.inj mem ▸ .head _
    · exact .tail _ (kept other mem)
  | sign kind span _ ih | present kind span _ ih =>
    obtain ⟨front, rfl, kept⟩ := ih
    exact ⟨⟨kind, span⟩ :: front, rfl, fun other mem =>
      .tail _ (kept other ((mem_cons.1 mem).resolve_left nofun))⟩
  | absent kind _ ih =>
    obtain ⟨front, rfl, kept⟩ := ih
    exact ⟨front, rfl, fun other mem => kept other ((mem_cons.1 mem).resolve_left nofun)⟩

end

/-! ### Trees written out -/

/-- How much punctuation is written. -/
structure Punctuation where
  /-- What stands behind a statement. -/
  afterStmt : List Mark
  /-- What stands behind the last part of a list in parentheses. -/
  afterLast : List Mark

/-- A semicolon behind every statement, and commas only between parts. -/
def Punctuation.full : Punctuation := ⟨[.sign .semicolon], []⟩

/-- Nothing but commas between parts. -/
def Punctuation.bare : Punctuation := ⟨[], []⟩

/-- Semicolons behind statements may be left out, and a comma may stand behind the last part. -/
def Punctuation.free : Punctuation := ⟨[.optional .semicolon], [.optional .comma]⟩

variable (p : Punctuation)

/-- Parts with commas between them. -/
def commas : List (List Mark) → List Mark
  | [] => []
  | [part] => part ++ p.afterLast
  | part :: parts => part ++ .sign .comma :: commas parts

def ascriptionMarks : Ascription → List Mark
  | ⟨colon, typeName⟩ => [.kept ⟨.colon, colon⟩, .kept ⟨.identifier, typeName⟩]

def parameterMarks : Parameter → List Mark
  | ⟨name, ascription⟩ => .kept ⟨.identifier, name⟩ :: ascriptionMarks ascription

def returnTypeMarks : ReturnType → List Mark
  | ⟨arrow, typeName⟩ => [.kept ⟨.arrow, arrow⟩, .kept ⟨.identifier, typeName⟩]

mutual

def Expr.marks : Expr → List Mark
  | .number literal value => [.kept ⟨.number value, literal⟩]
  | .string literal value => [.kept ⟨.string value, literal⟩]
  | .bool literal value => [.kept ⟨if value then .trueWord else .falseWord, literal⟩]
  | .var name => [.kept ⟨.identifier, name⟩]
  | .assign name equals value => .kept ⟨.identifier, name⟩ :: .kept ⟨.equals, equals⟩ :: value.marks
  | .binary op sign left right => left.marks ++ .kept ⟨op.token, sign⟩ :: right.marks
  | .negate sign operand => .kept ⟨.minus, sign⟩ :: operand.marks
  | .paren leftParen inner rightParen =>
    .kept ⟨.leftParen, leftParen⟩ :: (inner.marks ++ [.kept ⟨.rightParen, rightParen⟩])
  | .call callee leftParen arguments rightParen =>
    .kept ⟨.identifier, callee⟩ :: .kept ⟨.leftParen, leftParen⟩ ::
      (commas p (exprsMarks arguments) ++ [.kept ⟨.rightParen, rightParen⟩])

def exprsMarks : List Expr → List (List Mark)
  | [] => []
  | x :: xs => x.marks :: exprsMarks xs

end

mutual

def Stmt.marks : Stmt → List Mark
  | .expr e => e.marks p
  | .letVar keyword name ascription init =>
    .kept ⟨.letWord, keyword⟩ :: .kept ⟨.identifier, name⟩ ::
      ((ascription.map ascriptionMarks).getD [] ++ .sign .equals :: init.marks p)
  | .ret keyword value => .kept ⟨.returnWord, keyword⟩ :: (value.map (Expr.marks p)).getD []
  | .ifThen keyword condition thenBody => .kept ⟨.ifWord, keyword⟩ :: (condition.marks p ++ thenBody.marks)
  | .ifElse keyword condition thenBody elseBody =>
    .kept ⟨.ifWord, keyword⟩ :: (condition.marks p ++ (thenBody.marks ++ .sign .elseWord :: elseBody.marks))
  | .whileLoop keyword condition body => .kept ⟨.whileWord, keyword⟩ :: (condition.marks p ++ body.marks)
  | .function keyword name parameters returnType body =>
    .kept ⟨.functionWord, keyword⟩ :: .kept ⟨.identifier, name⟩ :: .sign .leftParen ::
      (commas p (parameters.map parameterMarks) ++ .sign .rightParen ::
        ((returnType.map returnTypeMarks).getD [] ++ body.marks))

def Body.marks : Body → List Mark
  | .mk openBrace statements closeBrace =>
    .kept ⟨.openBrace, openBrace⟩ :: (stmtsMarks statements ++ [.kept ⟨.closeBrace, closeBrace⟩])

def stmtsMarks : List Stmt → List Mark
  | [] => []
  | x :: xs => x.marks ++ (p.afterStmt ++ stmtsMarks xs)

end

lemma commas_congr {p q : Punctuation} (same : p.afterLast = q.afterLast) :
    ∀ parts : List (List Mark), commas p parts = commas q parts
  | [] => rfl
  | [part] => congrArg (part ++ ·) same
  | part :: second :: parts => congrArg (part ++ .sign .comma :: ·) (commas_congr same (second :: parts))

mutual

/-- In an expression there is no punctuation but that of lists in parentheses. -/
lemma Expr.marks_congr {p q : Punctuation} (same : p.afterLast = q.afterLast) :
    ∀ x : Expr, x.marks p = x.marks q
  | .number .. | .string .. | .bool .. | .var _ => rfl
  | .assign _ _ x | .negate _ x | .paren _ x _ => by rw [Expr.marks, Expr.marks, x.marks_congr same]
  | .binary _ _ x y => by rw [Expr.marks, Expr.marks, x.marks_congr same, y.marks_congr same]
  | .call _ _ xs _ => by rw [Expr.marks, Expr.marks, exprsMarks_congr same xs, commas_congr same]

lemma exprsMarks_congr {p q : Punctuation} (same : p.afterLast = q.afterLast) :
    ∀ xs : List Expr, exprsMarks p xs = exprsMarks q xs
  | [] => rfl
  | x :: xs => by rw [exprsMarks, exprsMarks, x.marks_congr same, exprsMarks_congr same xs]

end

/-- Whether an expression can begin with a token of this kind. -/
def begins : TokenKind → Bool
  | .number _ | .string _ | .trueWord | .falseWord | .identifier | .minus | .leftParen => true
  | _ => false

/-- The kind of the token that an expression begins with. -/
def Expr.head : Expr → TokenKind
  | .number _ value => .number value
  | .string _ value => .string value
  | .bool _ value => if value then .trueWord else .falseWord
  | .var _ | .assign .. | .call .. => .identifier
  | .negate .. => .minus
  | .paren .. => .leftParen
  | .binary _ _ left _ => left.head

lemma Expr.begins_head : ∀ x : Expr, begins x.head = true
  | .number .. | .string .. | .var _ | .assign .. | .negate .. | .paren .. | .call .. => rfl
  | .bool _ value => by cases value <;> rfl
  | .binary _ _ left _ => left.begins_head

def Stmt.head : Stmt → TokenKind
  | .expr e => e.head
  | .letVar .. => .letWord
  | .ret .. => .returnWord
  | .ifThen .. | .ifElse .. => .ifWord
  | .whileLoop .. => .whileWord
  | .function .. => .functionWord

variable {p} in
lemma Expr.spells_head {rest : List Token} :
    ∀ (x : Expr) {tokens : List Token}, Spells (x.marks p) tokens rest →
    ∃ token more, tokens = token :: more ∧ token.kind = x.head ∧ rest.length ≤ more.length
  | .number .., _, h | .string .., _, h | .bool .., _, h | .var _, _, h | .assign .., _,
      h | .negate .., _, h | .paren .., _, h
  | .call .., _, h => by
    cases h with
    | kept _ more => exact ⟨_, _, rfl, rfl, more.length_le⟩
  | .binary _ _ left _, _, h => by
    obtain ⟨mid, first, second⟩ := h.split
    obtain ⟨token, more, rfl, same, le⟩ := left.spells_head first
    exact ⟨token, more, rfl, same, second.length_le.trans le⟩

variable {p} in
/-- The first token of an expression shows that it begins. -/
lemma Expr.first {tokens rest : List Token} (x : Expr) (h : Spells (x.marks p) tokens rest) :
    ∃ token more, tokens = token :: more ∧ begins token.kind = true ∧ rest.length ≤ more.length := by
  obtain ⟨token, more, rfl, same, le⟩ := x.spells_head h
  exact ⟨token, more, rfl, same ▸ x.begins_head, le⟩

variable {p} in
lemma Expr.fewer {tokens rest : List Token} (x : Expr) (h : Spells (x.marks p) tokens rest) :
    rest.length < tokens.length := by
  obtain ⟨token, more, rfl, -, le⟩ := x.first h
  exact Nat.lt_succ_of_le le

variable {p} in
lemma Stmt.spells_head {tokens rest : List Token} (x : Stmt) (h : Spells (x.marks p) tokens rest) :
    ∃ token more, tokens = token :: more ∧ token.kind = x.head ∧ rest.length ≤ more.length := by
  cases x with
  | expr e =>
    exact e.spells_head h
  | _ =>
    obtain ⟨more, rfl, behind⟩ := h.of_kept
    exact ⟨_, more, rfl, rfl, behind.length_le⟩

lemma Stmt.head_ne {kind : TokenKind} (none : begins kind = false) (word : kind ≠ .letWord ∧
      kind ≠ .returnWord ∧ kind ≠ .ifWord ∧ kind ≠ .whileWord ∧ kind ≠ .functionWord) (x : Stmt) :
    x.head ≠ kind := by
  obtain ⟨letWord, returnWord, ifWord, whileWord, functionWord⟩ := word
  cases x with
  | expr e =>
    rintro rfl
    cases e.begins_head.symm.trans none
  | letVar => exact letWord.symm
  | ret => exact returnWord.symm
  | ifThen | ifElse => exact ifWord.symm
  | whileLoop => exact whileWord.symm
  | function => exact functionWord.symm

variable {p} in
/-- The first token of a statement is neither the end nor a closing brace. -/
lemma Stmt.first {tokens rest : List Token} (x : Stmt) (h : Spells (x.marks p) tokens rest) :
    ∃ token more, tokens = token :: more ∧ token.kind ≠ .eof ∧ token.kind ≠ .closeBrace ∧
    rest.length ≤ more.length := by
  obtain ⟨token, more, rfl, same, le⟩ := x.spells_head h
  exact ⟨token, more, rfl, same ▸ x.head_ne rfl (by decide), same ▸ x.head_ne rfl (by decide), le⟩

/-! ### Trees that can be read -/

/-- How tightly an expression holds together: an operator expression as tightly as its operator, an
assignment not at all, and everything else more tightly than any operator. -/
def Expr.grade : Expr → Nat
  | .assign .. => 0
  | .binary op _ _ _ => op.precedence
  | _ => 20

/-- Whether the last token of an expression is the name of a variable. -/
def Expr.endsInName : Expr → Bool
  | .var _ => true
  | .number .. | .string .. | .bool .. | .paren .. | .call .. => false
  | .assign _ _ x | .negate _ x | .binary _ _ _ x => x.endsInName

/-- A token of this kind does not make a call of a name that the expression ends in. -/
def Expr.Uncalled (x : Expr) (kind : TokenKind) : Prop := x.endsInName = true → kind ≠ .leftParen

/-- The expression is whole before a token of this kind: no call, no assignment and no operator
follows. -/
def Expr.EndsBefore (x : Expr) (kind : TokenKind) : Prop :=
  x.Uncalled kind ∧ kind ≠ .equals ∧ BinaryOp.ofToken? kind = none

instance (x : Expr) (kind : TokenKind) : Decidable (x.EndsBefore kind) :=
  inferInstanceAs (Decidable ((_ → _ ≠ _) ∧ _ ≠ _ ∧ _ = none))

/-- The statement is whole before a token of this kind. A `return` takes whatever follows for its
value. -/
def Stmt.EndsBefore : Stmt → TokenKind → Prop
  | .expr x, kind | .letVar _ _ _ x, kind | .ret _ (some x), kind => x.EndsBefore kind
  | .ret _ none, kind => kind = .semicolon ∨ kind = .closeBrace ∨ kind = .eof
  | .ifThen .., kind => kind ≠ .elseWord
  | .ifElse .., _ | .whileLoop .., _ | .function .., _ => True

instance : ∀ (x : Stmt) (kind : TokenKind), Decidable (x.EndsBefore kind)
  | .expr x, kind | .letVar _ _ _ x, kind | .ret _ (some x),
      kind => inferInstanceAs (Decidable (x.EndsBefore kind))
  | .ret _ none, _ => inferInstanceAs (Decidable (_ = _ ∨ _ = _ ∨ _ = _))
  | .ifThen .., _ => inferInstanceAs (Decidable (_ ≠ _))
  | .ifElse .., _ | .whileLoop .., _ | .function .., _ => inferInstanceAs (Decidable True)

/-- Every statement is whole before a semicolon, and where no other statement follows. -/
lemma Stmt.endsBefore_of {kind : TokenKind} (last : kind = .semicolon ∨ kind = .closeBrace ∨
      kind = .eof) (x : Stmt) : x.EndsBefore kind := by
  have whole (e : Expr) : e.EndsBefore kind := by
    obtain rfl | rfl | rfl := last <;> exact ⟨fun _ => nofun, nofun, rfl⟩
  cases x with
  | expr e | letVar _ _ _ e => exact whole e
  | ret _ value =>
    cases value with
    | none => exact last
    | some e => exact whole e
  | ifThen => obtain rfl | rfl | rfl := last <;> exact nofun
  | ifElse | whileLoop | function => trivial

mutual

/-- Without semicolons, the statements in the bodies of a statement are still apart. -/
def Stmt.parted : Stmt → Bool
  | .ifThen _ _ body | .whileLoop _ _ body | .function _ _ _ _ body => body.parted
  | .ifElse _ _ thenBody elseBody => thenBody.parted && elseBody.parted
  | .expr _ | .letVar .. | .ret .. => true

def Body.parted : Body → Bool
  | .mk _ statements _ => stmtsParted statements

/-- Each statement is whole before the one that follows it. -/
def stmtsParted : List Stmt → Bool
  | [] => true
  | x :: xs => x.parted && (xs.head?.all fun y => decide (x.EndsBefore y.head)) && stmtsParted xs

end

mutual

/-- Every operand holds together at least as tightly as its operator: an operand on the right more
tightly, and that of a minus sign more tightly than any operator. -/
def Expr.Ordered : Expr → Prop
  | .number .. | .string .. | .bool .. | .var _ => True
  | .assign _ _ value => value.Ordered
  | .binary op _ left right => op.precedence ≤ left.grade ∧ op.precedence < right.grade ∧
      left.Ordered ∧ right.Ordered
  | .negate _ operand => operand.grade = 20 ∧ operand.Ordered
  | .paren _ inner _ => inner.Ordered
  | .call _ _ arguments _ => exprsOrdered arguments

def exprsOrdered : List Expr → Prop
  | [] => True
  | x :: xs => x.Ordered ∧ exprsOrdered xs

end

mutual

def Stmt.Ordered : Stmt → Prop
  | .expr e | .letVar _ _ _ e | .ret _ (some e) => e.Ordered
  | .ret _ none => True
  | .ifThen _ condition body | .whileLoop _ condition body => condition.Ordered ∧ body.Ordered
  | .ifElse _ condition thenBody elseBody => condition.Ordered ∧ thenBody.Ordered ∧ elseBody.Ordered
  | .function _ _ _ _ body => body.Ordered

def Body.Ordered : Body → Prop
  | .mk _ statements _ => stmtsOrdered statements

def stmtsOrdered : List Stmt → Prop
  | [] => True
  | x :: xs => x.Ordered ∧ stmtsOrdered xs

end

end Tree

end EmLang
