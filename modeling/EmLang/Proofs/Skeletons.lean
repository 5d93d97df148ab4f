import EmLang.Proofs.PrintedTokens
import EmLang.Proofs.WrittenPrograms

/-!
Programs apart from where their tokens stand. The skeleton of a tree holds its nodes with their
operators, numbers and names, but neither places nor the contents of strings nor the types written
in `let`. Tokens that a tree's own tokens are like belong to a tree with the same skeleton, and
whether a tree can be read from its tokens shows in its skeleton.
-/

namespace EmLang

open List Text

namespace Tree

/-! ### Skeletons -/

/-- A text that stands nowhere. -/
def unplaced (text : String) : Span := ⟨0, 0, text⟩

mutual

def Expr.skeleton : Expr → Expr
  | .number _ value => .number (unplaced "") value
  | .string _ _ => .string (unplaced "") ""
  | .bool _ value => .bool (unplaced "") value
  | .var name => .var (unplaced name.literal)
  | .assign name _ value => .assign (unplaced name.literal) (unplaced "") value.skeleton
  | .binary op _ left right => .binary op (unplaced "") left.skeleton right.skeleton
  | .negate _ operand => .negate (unplaced "") operand.skeleton
  | .paren _ inner _ => .paren (unplaced "") inner.skeleton (unplaced "")
  | .call callee _ arguments _ =>
      .call (unplaced callee.literal) (unplaced "") (exprsSkeleton arguments) (unplaced "")

def exprsSkeleton : List Expr → List Expr
  | [] => []
  | x :: xs => x.skeleton :: exprsSkeleton xs

end

def parameterSkeleton : Parameter → Parameter
  | ⟨name, _, typeName⟩ => ⟨unplaced name.literal, unplaced "", unplaced typeName.literal⟩

def returnTypeSkeleton : ReturnType → ReturnType
  | ⟨_, typeName⟩ => ⟨unplaced "", unplaced typeName.literal⟩

mutual

def Stmt.skeleton : Stmt → Stmt
  | .expr e => .expr e.skeleton
  | .letVar _ name _ init => .letVar (unplaced "") (unplaced name.literal) none init.skeleton
  | .ret _ value => .ret (unplaced "") (value.map Expr.skeleton)
  | .ifThen _ condition thenBody => .ifThen (unplaced "") condition.skeleton thenBody.skeleton
  | .ifElse _ condition thenBody elseBody =>
      .ifElse (unplaced "") condition.skeleton thenBody.skeleton elseBody.skeleton
  | .whileLoop _ condition body => .whileLoop (unplaced "") condition.skeleton body.skeleton
  | .function _ name parameters returnType body =>
    .function (unplaced "") (unplaced name.literal) (parameters.map parameterSkeleton)
    (returnType.map returnTypeSkeleton) body.skeleton

def Body.skeleton : Body → Body
  | .mk _ statements _ => .mk (unplaced "") (stmtsSkeleton statements) (unplaced "")

def stmtsSkeleton : List Stmt → List Stmt
  | [] => []
  | x :: xs => x.skeleton :: stmtsSkeleton xs

end

end Tree

/-- The skeleton of a program, if it has a tree. -/
def Ast.skeleton? (ast : Ast) : Option (List Tree.Stmt) := ast.trees?.map Tree.stmtsSkeleton

namespace Tree

/-! ### Trees of other tokens -/

lemma forall₂_append {α β : Type} {R : α → β → Prop} : ∀ {l l' : List α} {m : List β}, Forall₂ R (l ++ l') m →
    ∃ k k', m = k ++ k' ∧ Forall₂ R l k ∧ Forall₂ R l' k'
  | [], _, m, h => ⟨[], m, rfl, .nil, h⟩
  | _ :: _, _, _, .cons first others =>
    have ⟨k, k', same, left, right⟩ := forall₂_append others
    ⟨_ :: k, k', congrArg _ same, .cons first left, right⟩

variable {marks marks' : List Mark} {tokens : List Token}

/-- The tokens of the tree, and nothing else, are there. -/
def Writes (marks : List Mark) (tokens : List Token) : Prop := ∀ rest, Spells marks (tokens ++ rest) rest

lemma Writes.nil : Writes [] [] := fun rest => .nil rest

lemma Writes.append {tokens' : List Token} (h : Writes marks tokens) (h' : Writes marks' tokens') :
    Writes (marks ++ marks') (tokens ++ tokens') := by
  intro rest
  rw [append_assoc]
  exact (h _).append (h' rest)

lemma Writes.kept {kind : TokenKind} {token : Token} (same : token.kind = kind) :
    Writes [.kept ⟨kind, token.span⟩] [token] := by
  subst same
  exact fun rest => .kept token (.nil rest)

lemma Writes.sign {kind : TokenKind} {token : Token} (same : token.kind = kind) :
    Writes [.sign kind] [token] := by
  subst same
  exact fun rest => .sign token.kind token.span (.nil rest)

lemma exprsSkeleton_eq_map (xs : List Expr) : exprsSkeleton xs = xs.map Expr.skeleton := by
  induction xs with
  | nil => rfl
  | cons x xs ih => rw [exprsSkeleton, ih, map_cons]

lemma exprsMarks_eq_map (p : Punctuation) (xs : List Expr) : exprsMarks p xs = xs.map (Expr.marks p) := by
  induction xs with
  | nil => rfl
  | cons x xs ih => rw [exprsMarks, ih, map_cons]

/-- Tokens like those of `x` belong to something of the same shape. -/
abbrev Regained {α : Type} (marks : α → List Mark) (shape : α → α) (x : α) : Prop :=
  ∀ tokens, Forall₂ Mark.Met (marks x) tokens → ∃ y, shape y = shape x ∧ Writes (marks y) tokens

lemma commas_regained {α : Type} {shape : α → α} {marks : α → List Mark} :
    ∀ {xs : List α} {tokens : List Token}, (∀ x ∈ xs, Regained marks shape x) →
    Forall₂ Mark.Met (commas .bare (xs.map marks)) tokens →
    ∃ ys : List α, ys.map shape = xs.map shape ∧ Writes (commas .bare (ys.map marks)) tokens
  | [], _, _, h => by
    cases h
    exact ⟨[], rfl, .nil⟩
  | [x], _, all, h => by
    obtain ⟨_, _, rfl, first, _ | _⟩ := forall₂_append (show Forall₂ _ (marks x ++ []) _ from h)
    obtain ⟨y, same, written⟩ := all x mem_cons_self _ first
    exact ⟨[y], congrArg (· :: []) same, written.append .nil⟩
  | x :: x' :: xs, _, all, h => by
    obtain ⟨_, _, rfl, first, _ | ⟨comma, others⟩⟩ :=
      forall₂_append (show Forall₂ _ (marks x ++ .sign .comma :: commas .bare ((x' :: xs).map marks)) _ from h)
    obtain ⟨here, all⟩ := forall_mem_cons.1 all
    obtain ⟨y, same, written⟩ := here _ first
    obtain ⟨_ | ⟨y', ys⟩, same', written'⟩ := commas_regained all others
    · cases same'
    · exact ⟨y :: y' :: ys, congrArg₂ cons same same', written.append ((Writes.sign comma).append written')⟩

mutual

/-- Tokens that an expression's own tokens are like belong to an expression of the same shape. -/
lemma Expr.exists_of_met : ∀ x : Expr, Regained (Expr.marks .bare) Expr.skeleton x
  | .number _ value, _, h => by
    obtain _ | ⟨met, _ | _⟩ := h
    exact ⟨.number _ value, by rfl, .kept met⟩
  | .string _ _, _, h => by
    obtain _ | ⟨⟨value, met⟩, _ | _⟩ := h
    exact ⟨.string _ value, by rfl, .kept met⟩
  | .bool _ value, _, h => by
    obtain _ | ⟨met, _ | _⟩ := h
    cases value
    · exact ⟨.bool _ false, by rfl, .kept met⟩
    · exact ⟨.bool _ true, by rfl, .kept met⟩
  | .var _, _, h => by
    obtain _ | ⟨⟨met, named⟩, _ | _⟩ := h
    exact ⟨.var _, by rw [Expr.skeleton, Expr.skeleton, named], .kept met⟩
  | .assign _ _ x, _, h => by
    obtain _ | ⟨⟨met, named⟩, _ | ⟨equals, h⟩⟩ := h
    obtain ⟨y, same, written⟩ := x.exists_of_met _ h
    exact ⟨.assign _ _ y, by rw [Expr.skeleton, Expr.skeleton, named,
      same], (Writes.kept met).append ((Writes.kept equals).append written)⟩
  | .binary op _ left right, _, h => by
    obtain ⟨_, _, rfl, first, _ | @⟨_, token, _, _, met, second⟩⟩ := forall₂_append h
    obtain ⟨left', same, written⟩ := left.exists_of_met _ first
    obtain ⟨right', same', written'⟩ := right.exists_of_met _ second
    have kind : token.kind = op.token := by cases op <;> exact met
    have sign := Writes.kept kind
    exact ⟨.binary op _ left' right', by rw [Expr.skeleton, Expr.skeleton, same,
      same'], written.append (sign.append written')⟩
  | .negate _ x, _, h => by
    obtain _ | ⟨met, h⟩ := h
    obtain ⟨y, same, written⟩ := x.exists_of_met _ h
    exact ⟨.negate _ y, by rw [Expr.skeleton, Expr.skeleton, same], (Writes.kept met).append written⟩
  | .paren _ x _, _, h => by
    obtain _ | ⟨met, h⟩ := h
    obtain ⟨_, _, rfl, first, _ | ⟨met', _ | _⟩⟩ := forall₂_append h
    obtain ⟨y, same, written⟩ := x.exists_of_met _ first
    exact ⟨.paren _ y _, by rw [Expr.skeleton, Expr.skeleton,
      same], (Writes.kept met).append (written.append (.kept met'))⟩
  | .call _ _ xs _, _, h => by
    obtain _ | ⟨⟨met, named⟩, _ | ⟨opens, h⟩⟩ := h
    obtain ⟨_, _, rfl, first, _ | ⟨closes, _ | _⟩⟩ := forall₂_append h
    rw [exprsMarks_eq_map] at first
    obtain ⟨ys, same, written⟩ := commas_regained (exprs_regained xs) first
    rw [← exprsMarks_eq_map] at written
    exact ⟨.call _ _ ys _, by rw [Expr.skeleton, Expr.skeleton, named, exprsSkeleton_eq_map, same,
      exprsSkeleton_eq_map], (Writes.kept met).append ((Writes.kept opens).append
      (written.append (.kept closes)))⟩

lemma exprs_regained : ∀ xs : List Expr, ∀ x ∈ xs, Regained (Expr.marks .bare) Expr.skeleton x
  | [] => nofun
  | x :: xs => forall_mem_cons.2 ⟨x.exists_of_met, exprs_regained xs⟩

end

lemma ascription_exists_of_met
    (type : Ascription) (h : Forall₂ Mark.Met (ascriptionMarks type) tokens) : ∃ type' : Ascription,
    type'.typeName.literal = type.typeName.literal ∧ Writes (ascriptionMarks type') tokens := by
  obtain _ | ⟨colon, _ | ⟨⟨met, named⟩, _ | _⟩⟩ := h
  exact ⟨⟨_, _⟩, named, (Writes.kept colon).append (.kept met)⟩

lemma type?_exists_of_met
    (type : Option Ascription) (h : Forall₂ Mark.Met ((type.map ascriptionMarks).getD []) tokens) :
    ∃ type' : Option Ascription, Writes ((type'.map ascriptionMarks).getD []) tokens := by
  cases type with
  | none =>
    cases h
    exact ⟨none, .nil⟩
  | some type =>
    obtain ⟨type', -, written⟩ := ascription_exists_of_met type h
    exact ⟨some type', written⟩

lemma returnType_exists_of_met
    (type : Option ReturnType) (h : Forall₂ Mark.Met ((type.map returnTypeMarks).getD []) tokens) :
    ∃ type' : Option ReturnType, type'.map returnTypeSkeleton = type.map returnTypeSkeleton ∧
    Writes ((type'.map returnTypeMarks).getD []) tokens := by
  cases type with
  | none =>
    cases h
    exact ⟨none, rfl, .nil⟩
  | some type =>
    obtain _ | ⟨arrow, _ | ⟨⟨met, named⟩, _ | _⟩⟩ := h
    exact ⟨some ⟨_, _⟩, congrArg (fun text => some (ReturnType.mk _ (unplaced text))) named,
      (Writes.kept arrow).append (.kept met)⟩

lemma parameter_exists_of_met (parameter : Parameter) :
    Regained parameterMarks parameterSkeleton parameter := by
  intro tokens h
  obtain _ | ⟨⟨met, named⟩, h⟩ := h
  obtain ⟨type, named', written⟩ := ascription_exists_of_met parameter.ascription h
  exact ⟨⟨_, type⟩, congrArg₂ (fun text text' => Parameter.mk (unplaced text) ⟨_,
    unplaced text'⟩) named named', (Writes.kept met).append written⟩

mutual

/-- Tokens that a statement's own tokens are like belong to a statement of the same shape. -/
lemma Stmt.exists_of_met : ∀ x : Stmt, Regained (Stmt.marks .bare) Stmt.skeleton x
  | .expr e, _, h => by
    obtain ⟨e', same, written⟩ := e.exists_of_met _ h
    exact ⟨.expr e', congrArg Stmt.expr same, written⟩
  | .letVar _ _ type e, _, h => by
    obtain _ | ⟨keyword, _ | ⟨⟨met, named⟩, h⟩⟩ := h
    obtain ⟨_, _, rfl, first, _ | ⟨equals, second⟩⟩ := forall₂_append h
    obtain ⟨type', typed⟩ := type?_exists_of_met type first
    obtain ⟨e', same, written⟩ := e.exists_of_met _ second
    exact ⟨.letVar _ _ type' e', by rw [Stmt.skeleton,
      Stmt.skeleton, named, same], (Writes.kept keyword).append ((Writes.kept met).append
      (typed.append ((Writes.sign equals).append written)))⟩
  | .ret _ none, _, h => by
    obtain _ | ⟨keyword, _ | _⟩ := h
    exact ⟨.ret _ none, by rfl, .kept keyword⟩
  | .ret _ (some e), _, h => by
    obtain _ | ⟨keyword, h⟩ := h
    obtain ⟨e', same, written⟩ := e.exists_of_met _ h
    exact ⟨.ret _ (some e'), congrArg (Stmt.ret _ ∘ some) same, (Writes.kept keyword).append written⟩
  | .ifThen _ e body, _, h => by
    obtain _ | ⟨keyword, h⟩ := h
    obtain ⟨_, _, rfl, first, second⟩ := forall₂_append h
    obtain ⟨e', same, written⟩ := e.exists_of_met _ first
    obtain ⟨body', same', written'⟩ := body.exists_of_met _ second
    exact ⟨.ifThen _ e' body', congrArg₂ (Stmt.ifThen _) same same',
      (Writes.kept keyword).append (written.append written')⟩
  | .ifElse _ e body other, _, h => by
    obtain _ | ⟨keyword, h⟩ := h
    obtain ⟨_, _, rfl, first, h⟩ := forall₂_append h
    obtain ⟨_, _, rfl, second, _ | ⟨otherwise, third⟩⟩ := forall₂_append h
    obtain ⟨e', same, written⟩ := e.exists_of_met _ first
    obtain ⟨body', same1, written1⟩ := body.exists_of_met _ second
    obtain ⟨other', same2, written2⟩ := other.exists_of_met _ third
    exact ⟨.ifElse _ e' body' other', by rw [Stmt.skeleton, Stmt.skeleton, same, same1, same2],
      (Writes.kept keyword).append (written.append (written1.append ((Writes.sign otherwise).append written2)))⟩
  | .whileLoop _ e body, _, h => by
    obtain _ | ⟨keyword, h⟩ := h
    obtain ⟨_, _, rfl, first, second⟩ := forall₂_append h
    obtain ⟨e', same, written⟩ := e.exists_of_met _ first
    obtain ⟨body', same', written'⟩ := body.exists_of_met _ second
    exact ⟨.whileLoop _ e' body', congrArg₂ (Stmt.whileLoop _) same same',
      (Writes.kept keyword).append (written.append written')⟩
  | .function _ _ ps type body, _, h => by
    obtain _ | ⟨keyword, _ | ⟨⟨met, named⟩, _ | ⟨opens, h⟩⟩⟩ := h
    obtain ⟨_, _, rfl, first, _ | ⟨closes, behind⟩⟩ := forall₂_append h
    obtain ⟨_, _, rfl, second, third⟩ := forall₂_append behind
    obtain ⟨ps', same, written⟩ := commas_regained (fun p _ => parameter_exists_of_met p) first
    obtain ⟨type', same1, written1⟩ := returnType_exists_of_met type second
    obtain ⟨body', same2, written2⟩ := body.exists_of_met _ third
    exact ⟨.function _ _ ps' type' body', by rw [Stmt.skeleton, Stmt.skeleton, named, same, same1, same2],
      (Writes.kept keyword).append ((Writes.kept met).append ((Writes.sign opens).append
        (written.append ((Writes.sign closes).append (written1.append written2)))))⟩

lemma Body.exists_of_met : ∀ x : Body, Regained (Body.marks .bare) Body.skeleton x
  | .mk _ xs _, _, h => by
    obtain _ | ⟨opens, h⟩ := h
    obtain ⟨_, _, rfl, first, _ | ⟨closes, _ | _⟩⟩ := forall₂_append h
    obtain ⟨ys, same, written⟩ := stmts_exist_of_met xs first
    exact ⟨.mk _ ys _, by rw [Body.skeleton, Body.skeleton,
      same], (Writes.kept opens).append (written.append (.kept closes))⟩

lemma stmts_exist_of_met :
    ∀ (xs : List Stmt) {tokens : List Token}, Forall₂ Mark.Met (stmtsMarks .bare xs) tokens →
    ∃ ys, stmtsSkeleton ys = stmtsSkeleton xs ∧ Writes (stmtsMarks .bare ys) tokens
  | [], _, h => by
    cases h
    exact ⟨[], rfl, .nil⟩
  | x :: xs, _, h => by
    obtain ⟨_, _, rfl, first, others⟩ :=
      forall₂_append (show Forall₂ _ (x.marks .bare ++ stmtsMarks .bare xs) _ from h)
    obtain ⟨y, same, written⟩ := x.exists_of_met _ first
    obtain ⟨ys, same', written'⟩ := stmts_exist_of_met xs others
    exact ⟨y :: ys, congrArg₂ cons same same', written.append written'⟩

end

/-! ### What shows in the skeleton -/

lemma Expr.grade_skeleton (x : Expr) : x.skeleton.grade = x.grade := by cases x <;> rfl

lemma Expr.endsInName_skeleton : ∀ x : Expr, x.skeleton.endsInName = x.endsInName
  | .number .. | .string .. | .bool .. | .var _ | .paren .. | .call .. => rfl
  | .assign _ _ x | .negate _ x | .binary _ _ _ x => x.endsInName_skeleton

mutual

lemma Expr.ordered_skeleton : ∀ x : Expr, x.skeleton.Ordered ↔ x.Ordered
  | .number .. | .string .. | .bool .. | .var _ => Iff.rfl
  | .assign _ _ x | .paren _ x _ => x.ordered_skeleton
  | .binary op _ x y => by
    rw [Expr.skeleton, Expr.Ordered, Expr.Ordered, x.grade_skeleton, y.grade_skeleton,
      x.ordered_skeleton, y.ordered_skeleton]
  | .negate _ x => by rw [Expr.skeleton, Expr.Ordered, Expr.Ordered, x.grade_skeleton, x.ordered_skeleton]
  | .call _ _ xs _ => exprsOrdered_skeleton xs

lemma exprsOrdered_skeleton : ∀ xs : List Expr, exprsOrdered (exprsSkeleton xs) ↔ exprsOrdered xs
  | [] => Iff.rfl
  | x :: xs => and_congr x.ordered_skeleton (exprsOrdered_skeleton xs)

end

mutual

lemma Stmt.ordered_skeleton : ∀ x : Stmt, x.skeleton.Ordered ↔ x.Ordered
  | .expr e | .letVar _ _ _ e | .ret _ (some e) => e.ordered_skeleton
  | .ret _ none => Iff.rfl
  | .ifThen _ e body | .whileLoop _ e body => and_congr e.ordered_skeleton body.ordered_skeleton
  | .ifElse _ e body other =>
      and_congr e.ordered_skeleton (and_congr body.ordered_skeleton other.ordered_skeleton)
  | .function _ _ _ _ body => body.ordered_skeleton

lemma Body.ordered_skeleton : ∀ x : Body, x.skeleton.Ordered ↔ x.Ordered
  | .mk _ xs _ => stmtsOrdered_skeleton xs

lemma stmtsOrdered_skeleton : ∀ xs : List Stmt, stmtsOrdered (stmtsSkeleton xs) ↔ stmtsOrdered xs
  | [] => Iff.rfl
  | x :: xs => and_congr x.ordered_skeleton (stmtsOrdered_skeleton xs)

end

mutual

lemma Stmt.fits_skeleton (d : Nat) : ∀ x : Stmt, x.skeleton.Fits d ↔ x.Fits d
  | .expr _ | .letVar .. | .ret .. => Iff.rfl
  | .ifThen _ _ body | .whileLoop _ _ body => body.fits_skeleton d
  | .ifElse _ _ body other => and_congr (body.fits_skeleton d) (other.fits_skeleton d)
  | .function _ _ _ _ body => and_congr_right fun _ => body.fits_skeleton (d + 1)

lemma Body.fits_skeleton (d : Nat) : ∀ x : Body, x.skeleton.Fits d ↔ x.Fits d
  | .mk _ xs _ => stmtsFit_skeleton d xs

lemma stmtsFit_skeleton (d : Nat) : ∀ xs : List Stmt, stmtsFit d (stmtsSkeleton xs) ↔ stmtsFit d xs
  | [] => Iff.rfl
  | x :: xs => and_congr (x.fits_skeleton d) (stmtsFit_skeleton d xs)

end

/-- The kind of a token, whatever a string holds. -/
def plainKind : TokenKind → TokenKind
  | .string _ => .string ""
  | kind => kind

lemma Expr.head_skeleton : ∀ x : Expr, x.skeleton.head = plainKind x.head
  | .number .. | .string .. | .var _ | .assign .. | .negate .. | .paren .. | .call .. => rfl
  | .bool _ value => by cases value <;> rfl
  | .binary _ _ x _ => x.head_skeleton

lemma Stmt.head_skeleton (x : Stmt) : x.skeleton.head = plainKind x.head := by
  cases x with
  | expr e => exact e.head_skeleton
  | _ => rfl

lemma Expr.endsBefore_skeleton (x : Expr) (kind : TokenKind) :
    x.skeleton.EndsBefore (plainKind kind) ↔ x.EndsBefore kind := by
  unfold Expr.EndsBefore Expr.Uncalled
  rw [x.endsInName_skeleton]
  cases kind with
  | string => simp [plainKind, BinaryOp.ofToken?]
  | _ => rfl

lemma Stmt.endsBefore_skeleton (x : Stmt) (kind : TokenKind) :
    x.skeleton.EndsBefore (plainKind kind) ↔ x.EndsBefore kind := by
  cases x with
  | expr e | letVar _ _ _ e => exact e.endsBefore_skeleton kind
  | ret _ value =>
    cases value with
    | some e => exact e.endsBefore_skeleton kind
    | none => cases kind <;> simp [plainKind, Stmt.skeleton, Stmt.EndsBefore]
  | ifThen => cases kind <;> simp [plainKind, Stmt.skeleton, Stmt.EndsBefore]
  | ifElse | whileLoop | function => rfl

mutual

lemma Stmt.parted_skeleton : ∀ x : Stmt, x.skeleton.parted = x.parted
  | .expr _ | .letVar .. | .ret .. => rfl
  | .ifThen _ _ body | .whileLoop _ _ body | .function _ _ _ _ body => body.parted_skeleton
  | .ifElse _ _ body other => congrArg₂ (· && ·) body.parted_skeleton other.parted_skeleton

lemma Body.parted_skeleton : ∀ x : Body, x.skeleton.parted = x.parted
  | .mk _ xs _ => stmtsParted_skeleton xs

lemma stmtsParted_skeleton : ∀ xs : List Stmt, stmtsParted (stmtsSkeleton xs) = stmtsParted xs
  | [] => rfl
  | [x] => by
    simp only [stmtsSkeleton, stmtsParted, x.parted_skeleton, head?_nil, Option.all_none]
  | x :: y :: ys => by
    have first : decide (x.skeleton.EndsBefore y.skeleton.head) = decide (x.EndsBefore y.head) := by
      rw [y.head_skeleton]
      exact decide_eq_decide.2 (x.endsBefore_skeleton y.head)
    have others := stmtsParted_skeleton (y :: ys)
    rw [stmtsSkeleton, stmtsParted, stmtsParted, x.parted_skeleton, others]
    simp only [stmtsSkeleton, head?_cons, Option.all_some, first]

end

end Tree

end EmLang
