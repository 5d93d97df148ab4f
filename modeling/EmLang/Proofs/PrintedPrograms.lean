import EmLang.Ast.Printer
import EmLang.Proofs.Skeletons

/-!
Printed programs are read again. The text of every node is read as the tokens of its tree, without
semicolons and with the types of values written in `let`.
-/

namespace EmLang

open List Option Text Token EmLang.Tree

/-! ### Words and signs -/

variable {text text' : String} {marks marks' : List Mark} {name : Span}

/-- A name is read behind which no part of a name stands. -/
lemma lexes_name {name : Span} (legible : Legible ⟨.identifier, name⟩) :
    Lexes name.literal Apart [.kept ⟨.identifier, name⟩] :=
  IsWord.lexes legible nofun nofun fun _ _ => ⟨rfl, rfl⟩

lemma lexes_bool (literal : Span) (value : Bool) :
    Lexes (toString value) Apart [.kept ⟨if value then .trueWord else .falseWord, literal⟩] := by
  have yes : IsWord "true" .trueWord := ⟨⟨'t', "rue".toList, rfl, by decide⟩, by decide⟩
  have no : IsWord "false" .falseWord := ⟨⟨'f', "alse".toList, rfl, by decide⟩, by decide⟩
  cases value with
  | true => exact yes.lexes nofun nofun fun _ _ => rfl
  | false => exact no.lexes nofun nofun fun _ _ => rfl

lemma lexes_between (op : BinaryOp) (span : Span) :
    Lexes (" " ++ op.symbol ++ " ") (fun _ => True) [.kept ⟨op.token, span⟩] :=
  Lexes.blank ((lexes_blanks (by decide)).andThen (lexes_operator op span)) rfl

lemma lexes_leftParen {mark : Mark} (met : ∀ start stop, mark.Met ⟨.leftParen, start, stop, "("⟩) :
    Lexes "(" (fun _ => True) [mark] :=
  lexes_sign rfl (fun _ => rfl) nofun nofun met

lemma lexes_rightParen {mark : Mark} (met : ∀ start stop, mark.Met ⟨.rightParen, start, stop,
      ")"⟩) : Lexes ")" (fun _ => True) [mark] :=
  lexes_sign rfl (fun _ => rfl) nofun nofun met

lemma lexes_equals {mark : Mark} (met : ∀ start stop, mark.Met ⟨.equals, start, stop, "="⟩) :
    Lexes " = " (fun _ => True) [mark] := by
  have sign : Lexes "=" (· = ' ') [mark] := lexes_spaced rfl rfl (fun _ => rfl) nofun nofun met
  have blank : Lexes " " (fun _ => True) [] := lexes_blanks (by decide)
  exact (blank.andThen sign).blank rfl

/-- A minus sign is one of its own unless an arrow is made of it. -/
lemma lexes_minus (sign : Span) : Lexes "-" (· ≠ '>') [.kept ⟨.minus, sign⟩] := by
  refine lexes_token rfl fun rest other => ⟨.minus, ?_, nofun, nofun, fun _ _ => rfl⟩
  match rest with
  | [] => rfl
  | c :: cs => exact if_neg (other c rfl)

lemma lexes_commas : ∀ {texts : List String} {parts : List (List Mark)},
    List.Forall₂ (fun text part => Lexes text Apart part) texts parts →
    Lexes (", ".intercalate texts) Apart (commas .bare parts)
  | [], _, .nil => lexes_nil.imp fun _ _ => trivial
  | [text], _, .cons first .nil => by
    show Lexes text Apart (_ ++ [])
    rw [append_nil]
    exact first
  | text :: text' :: texts, part :: part' :: parts, .cons first others => by
    have sign : Lexes "," (fun _ => True) [.sign .comma] :=
      lexes_sign rfl (fun _ => rfl) nofun nofun fun _ _ => rfl
    have comma : Lexes ", " (fun _ => True) [.sign .comma] := sign.blank trivial
    rw [String.intercalate_cons_cons, String.append_assoc]
    exact first.before (comma.andThen (lexes_commas others)) (.append ⟨',', rfl, by decide⟩ _)

/-! ### Expressions -/

/-- The text is read as the marks say where no part of a name follows, and it makes no arrow of a
minus sign. -/
structure Printed (text : String) (marks : List Mark) : Prop where
  lexes : Lexes text Apart marks
  opens : Opens text (· ≠ '>')

lemma printed_number {value : Int64} {literal : Span} (legible : Legible ⟨.number value, literal⟩) :
    Printed (toString value) [.kept ⟨.number value, literal⟩] := by
  obtain ⟨c, cs, same, digits, -⟩ := digits_of_nonneg legible
  refine ⟨lexes_number legible literal, c, by rw [same]; rfl, ?_⟩
  rintro rfl
  cases digits _ (.head _)

lemma printed_string (literal : Span) (value : String) :
    Printed (quoted value) [.kept ⟨.string value, literal⟩] :=
  ⟨(lexes_quoted value value literal).imp fun _ _ => trivial, '"',
  by rw [quoted, String.toList_ofList]; rfl, by decide⟩

/-- The printed text of a string is one token and the end mark. The token has the value of the
string just if no character of it is written by its code point: the lexer knows no such escape and
leaves it as it stands. -/
theorem printed_string_reread {ast : Ast} {e : ExprId} {node : Expr} {literal : Span}
    {value : String} (here : ast.expr? e = some node) (string : node.kind = .string literal value)
    (bound : Nat) : ∃ text again start stop, ast.printExpr ⟨false⟩ (bound + 1) e = some text ∧
    tokenize text.toList = [⟨.string again, start, stop, text⟩, ⟨.eof, stop, stop, ""⟩] ∧
    again.toList = value.toList.flatMap reread ∧
    (again = value ↔ ∀ c ∈ value.toList, quoteChar c ≠ codePointEscape c) := by
  have whole : (quoted value).toList = '"' :: (value.toList.flatMap quoteChar ++ ['"']) := String.toList_ofList
  have read := scan_quoted value.toList []
  rw [append_nil] at read
  obtain ⟨start, stop, first⟩ := words_token read nofun 0
  rw [take_length, drop_length, words_nil, ← whole, String.ofList_toList] at first
  have same : String.ofList (value.toList.flatMap reread) = value ↔
      value.toList.flatMap reread = value.toList := by
    rw [← String.toList_inj, String.toList_ofList]
  refine ⟨quoted value, _, start, stop, ?_, first, String.toList_ofList,
    same.trans (flatMap_reread_eq_iff value.toList)⟩
  simp only [Ast.printExpr, here, string, Option.bind_eq_bind, Option.bind_some]
  rfl

/-- A string of a quote, a backslash and a line feed is read back. -/
theorem printed_string_reread_escapes : ∃ text start stop,
    Ast.printExpr ⟨#[], #[⟨0, .string default "\"\\\n", .string, default⟩], []⟩ ⟨false⟩ 1 0 = some text ∧
    tokenize text.toList = [⟨.string "\"\\\n", start, stop, text⟩, ⟨.eof, stop, stop, ""⟩] := by
  have here : Ast.expr? ⟨#[], #[⟨0, .string default "\"\\\n", .string, default⟩], []⟩ 0 = some ⟨0,
    .string default "\"\\\n", .string, default⟩ := rfl
  obtain ⟨text, again, start, stop, printed, read, -, back⟩ := printed_string_reread here rfl 0
  have kept : ∀ c ∈ ['"', '\\', '\n'], quoteChar c ≠ codePointEscape c := by
    rw [forall_mem_cons, forall_mem_cons, forall_mem_singleton]
    decide +kernel
  obtain rfl := back.2 kept
  exact ⟨text, start, stop, printed, read⟩

/-- The string of the character with code point 1 is printed as an escape that is read as five
characters. -/
theorem control_string_kept :
    ∃ text, Ast.printExpr ⟨#[], #[⟨0, .string default "\x01", .string, default⟩], []⟩ ⟨false⟩ 1 0 =
    some text ∧ (tokenize text.toList).map (·.kind) = [.string "\\u\x7b1\x7d", .eof] :=
  ⟨quoted "\x01", rfl, by decide +kernel⟩

lemma printed_bool (literal : Span) (value : Bool) :
    Printed (toString value) [.kept ⟨if value then .trueWord else .falseWord, literal⟩] := by
  refine ⟨lexes_bool literal value, ?_⟩
  cases value with
  | true => exact ⟨'t', rfl, by decide⟩
  | false => exact ⟨'f', rfl, by decide⟩

lemma printed_name (legible : Legible ⟨.identifier, name⟩) :
    Printed name.literal [.kept ⟨.identifier, name⟩] := by
  obtain ⟨c, cs, same, -, -, -, start, -⟩ := IsWord.word legible
  refine ⟨lexes_name legible, c, by rw [same]; rfl, ?_⟩
  rintro rfl
  revert start
  decide

section

variable (h : Printed text marks)

include h

lemma Printed.assign (legible : Legible ⟨.identifier, name⟩) (equals : Span) :
    Printed (name.literal ++ " = " ++ text)
    (.kept ⟨.identifier, name⟩ :: .kept ⟨.equals, equals⟩ :: marks) := by
  have target := printed_name legible
  have sign : Lexes " = " (fun _ => True) [.kept ⟨.equals, equals⟩] := lexes_equals fun _ _ => rfl
  exact ⟨(target.lexes.before sign ⟨' ', rfl, by decide⟩).andThen h.lexes, (target.opens.append _).append _⟩

lemma Printed.binary (h' : Printed text' marks') (op : BinaryOp) (sign : Span) :
    Printed (text ++ (" " ++ op.symbol ++ " ") ++ text') (marks ++ .kept ⟨op.token, sign⟩ :: marks') := by
  have opens : Opens (" " ++ op.symbol ++ " ") Apart := (Opens.append ⟨' ', rfl, by decide⟩ _).append _
  rw [append_cons]
  exact ⟨(h.lexes.before (lexes_between op sign) opens).andThen h'.lexes, (h.opens.append _).append _⟩

lemma Printed.negate (sign : Span) : Printed ("-" ++ text) (.kept ⟨.minus, sign⟩ :: marks) :=
  ⟨(lexes_minus sign).before h.lexes h.opens, .append ⟨'-', rfl, by decide⟩ _⟩

lemma Printed.paren (leftParen rightParen : Span) : Printed ("(" ++ text ++ ")")
    (.kept ⟨.leftParen, leftParen⟩ :: (marks ++ [.kept ⟨.rightParen, rightParen⟩])) := by
  have opening : Lexes "(" (fun _ => True) [.kept ⟨.leftParen, leftParen⟩] := lexes_leftParen fun _ _ => rfl
  have closing : Lexes ")" (fun _ => True) [.kept ⟨.rightParen, rightParen⟩] := lexes_rightParen fun _ _ => rfl
  have whole := (opening.andThen h.lexes).before closing ⟨')', rfl, by decide⟩
  exact ⟨whole.imp fun _ _ => trivial, (Opens.append ⟨'(', rfl, by decide⟩ _).append _⟩

end

lemma printed_call (h : Lexes text Apart marks)
    (legible : Legible ⟨.identifier, name⟩) (leftParen rightParen : Span) :
    Printed (name.literal ++ "(" ++ text ++ ")") (.kept ⟨.identifier, name⟩ ::
      .kept ⟨.leftParen, leftParen⟩ :: (marks ++ [.kept ⟨.rightParen, rightParen⟩])) := by
  have callee := printed_name legible
  have opening : Lexes "(" (fun _ => True) [.kept ⟨.leftParen, leftParen⟩] := lexes_leftParen fun _ _ => rfl
  have closing : Lexes ")" (fun _ => True) [.kept ⟨.rightParen, rightParen⟩] := lexes_rightParen fun _ _ => rfl
  have whole := ((callee.lexes.before opening ⟨'(', rfl, by decide⟩).andThen h).before closing ⟨')',
    rfl, by decide⟩
  exact ⟨whole.imp fun _ _ => trivial, ((callee.opens.append _).append _).append _⟩

namespace Ast

/-- The text of an expression is read as its tokens. -/
def PrintsExpr (print : ExprId → Option String) (tree : ExprId → Option Tree.Expr) : Prop :=
  ∀ e x, tree e = some x → AllLegible (x.marks .free) → ∃ text, print e = some text ∧
  Printed text (x.marks .bare)

variable {ast : Ast} {print : ExprId → Option String} {tree : ExprId → Option Tree.Expr}

lemma PrintsExpr.all (h : PrintsExpr print tree) :
    ∀ {es : List ExprId} {xs : List Tree.Expr}, es.mapM tree = some xs →
    (∀ part ∈ exprsMarks .free xs, AllLegible part) → ∃ texts, es.mapM print = some texts ∧
    List.Forall₂ (fun text part => Lexes text Apart part) texts (exprsMarks .bare xs)
  | [], xs, trees, _ => by
    cases trees
    exact ⟨[], rfl, .nil⟩
  | e :: es, xs, trees, legible => by
    rw [mapM_cons] at trees
    obtain ⟨y, first, trees⟩ := bind_eq_some_iff.1 trees
    obtain ⟨ys, others, ⟨⟩⟩ := bind_eq_some_iff.1 trees
    obtain ⟨text, printed, read⟩ := h e y first (legible _ (.head _))
    obtain ⟨texts, printeds, reads⟩ := h.all others fun part mem => legible part (.tail _ mem)
    refine ⟨text :: texts, ?_, .cons read.lexes reads⟩
    rw [mapM_cons, printed, printeds]
    rfl

lemma printExpr_prints (ast : Ast) : ∀ n, PrintsExpr (ast.printExpr ⟨false⟩ n) (ast.exprTree? n)
  | 0, _, _, tree, _ => nomatch tree
  | n + 1, e, x, tree, legible => by
    have ih := ast.printExpr_prints n
    obtain ⟨node, found, tree⟩ := bind_eq_some_iff.1 tree
    rw [printExpr]
    simp only [found, bind_eq_bind, bind_some]
    generalize node.kind = kind at tree ⊢
    cases kind with
    | number literal value =>
      cases tree
      exact ⟨_, rfl, printed_number legible.first⟩
    | string literal value =>
      cases tree
      exact ⟨_, rfl, printed_string literal value⟩
    | bool literal value =>
      cases tree
      exact ⟨_, rfl, printed_bool literal value⟩
    | var name _ =>
      cases tree
      exact ⟨_, rfl, printed_name legible.first⟩
    | assign name equals value _ =>
      obtain ⟨y, first, ⟨⟩⟩ := bind_eq_some_iff.1 tree
      obtain ⟨text, printed, read⟩ := ih value y first legible.tail.tail
      simp only [printed]
      exact ⟨_, rfl, read.assign legible.first equals⟩
    | binary op sign left right =>
      obtain ⟨y, first, tree⟩ := bind_eq_some_iff.1 tree
      obtain ⟨z, second, ⟨⟩⟩ := bind_eq_some_iff.1 tree
      obtain ⟨text, printed, read⟩ := ih left y first legible.left
      obtain ⟨text', printed', read'⟩ := ih right z second legible.right.tail
      simp only [printed, printed']
      exact ⟨_, rfl, read.binary read' op sign⟩
    | negate sign operand =>
      obtain ⟨y, first, ⟨⟩⟩ := bind_eq_some_iff.1 tree
      obtain ⟨text, printed, read⟩ := ih operand y first legible.tail
      simp only [printed]
      exact ⟨_, rfl, read.negate sign⟩
    | paren leftParen inner rightParen =>
      obtain ⟨y, first, ⟨⟩⟩ := bind_eq_some_iff.1 tree
      obtain ⟨text, printed, read⟩ := ih inner y first legible.tail.left
      simp only [printed]
      exact ⟨_, rfl, read.paren leftParen rightParen⟩
    | call callee leftParen arguments rightParen _ =>
      obtain ⟨ys, parts, ⟨⟩⟩ := bind_eq_some_iff.1 tree
      obtain ⟨texts, printed, read⟩ := ih.all parts legible.tail.tail.left.parts
      simp only [printed]
      exact ⟨_, rfl, printed_call (lexes_commas read) legible.first leftParen rightParen⟩
    | error place =>
      cases tree

/-! ### Statements -/

lemma lexes_keyword {text : String} {mark : Mark} {kind : TokenKind} (word : IsWord text kind)
    (other : kind ≠ .blank) (unended : kind ≠ .semicolon) (met : ∀ start stop,
      mark.Met ⟨kind, start, stop, text⟩) : Lexes (text ++ " ") (fun _ => True) [mark] :=
  (word.lexes other unended met).blank (by decide)

lemma lexes_colon {mark : Mark} (met : ∀ start stop, mark.Met ⟨.colon, start, stop, ":"⟩) :
    Lexes ": " (fun _ => True) [mark] := by
  have sign : Lexes ":" (fun _ => True) [mark] := lexes_sign rfl (fun _ => rfl) nofun nofun met
  exact sign.blank trivial

lemma lexes_parameter (p : Parameter) (legible : AllLegible (parameterMarks p)) :
    Lexes (Style.parameter ⟨false⟩ p) Apart (parameterMarks p) := by
  obtain ⟨name, colon, typeName⟩ := p
  have sign : Lexes ": " (fun _ => True) [.kept ⟨.colon, colon⟩] := lexes_colon fun _ _ => rfl
  exact ((lexes_name legible.first).before sign ⟨':', rfl, by decide⟩).andThen
    (lexes_name legible.tail.tail.first)

lemma lexes_returnType : ∀ type : Option ReturnType, AllLegible ((type.map returnTypeMarks).getD []) →
    Lexes (Style.returnType ⟨false⟩ type) (fun _ => True) ((type.map returnTypeMarks).getD [])
  | none, _ => lexes_nil
  | some ⟨arrow, typeName⟩, legible => by
    have sign : Lexes "->" (fun _ => True) [.kept ⟨.arrow, arrow⟩] :=
      lexes_sign rfl (fun _ => rfl) nofun nofun fun _ _ => rfl
    have start : Lexes "-> " (fun _ => True) [.kept ⟨.arrow, arrow⟩] := sign.blank trivial
    exact (start.andThen (lexes_name legible.tail.first)).blank (by decide)

/-- The name of every type but that of errors is read as a name. -/
lemma isWord_name {ty : Ty} (other : ty ≠ .error) : IsWord ty.name .identifier := by
  cases ty with
  | int => exact ⟨⟨'i', "nt".toList, rfl, by decide⟩, by decide⟩
  | bool => exact ⟨⟨'b', "ool".toList, rfl, by decide⟩, by decide⟩
  | string => exact ⟨⟨'s', "tring".toList, rfl, by decide⟩, by decide⟩
  | void => exact ⟨⟨'v', "oid".toList, rfl, by decide⟩, by decide⟩
  | unresolved => exact ⟨⟨'u', "nresolved".toList, rfl, by decide⟩, by decide⟩
  | error => exact absurd rfl other

lemma lexes_padding (indent : Nat) : Lexes (padding indent) (fun _ => True) [] := by
  refine lexes_blanks (List.all_eq_true.2 fun c mem => ?_)
  rw [padding, String.toList_join, mem_flatMap] at mem
  obtain ⟨text, repeated, mem⟩ := mem
  obtain rfl := eq_of_mem_replicate repeated
  exact List.all_eq_true.1 (by decide) c mem

/-- The text of a body is read as the tokens of a body with the same skeleton. -/
def PrintsBody (body : Body → Option String) (tree : StmtId → Option Tree.Stmt) : Prop :=
  ∀ b y, b.tree? tree = some y → AllLegible (y.marks .free) → ∃ (text : String) (y' : Tree.Body),
    body b = some text ∧ y'.skeleton = y.skeleton ∧ Lexes text (fun _ => True) (y'.marks .bare)

section

variable {text text' text'' : String} {name : Span} {x : Tree.Expr} {body body' : Tree.Body}

lemma lexes_let {ty : Ty} (legible : Legible ⟨.identifier, name⟩)
    (named : ty ≠ .error) (read : Lexes text Apart (x.marks .bare)) (keyword : Span) :
    Lexes ("let" ++ " " ++ name.literal ++ ": " ++ ty.name ++ " = " ++ text) Apart
    ((Stmt.letVar keyword name (some ⟨unplaced ":", unplaced ty.name⟩) x).marks .bare) := by
  have word : IsWord "let" .letWord := ⟨⟨'l', "et".toList, rfl, by decide⟩, by decide⟩
  have start : Lexes ("let" ++ " ") (fun _ => True) [.kept ⟨.letWord, keyword⟩] :=
    lexes_keyword word nofun nofun fun _ _ => rfl
  have colon : Lexes ": " (fun _ => True) [.kept ⟨.colon, unplaced ":"⟩] := lexes_colon fun _ _ => rfl
  have type : Lexes ty.name Apart [.kept ⟨.identifier, unplaced ty.name⟩] :=
    (isWord_name named).lexes nofun nofun fun _ _ => ⟨rfl, rfl⟩
  have equals : Lexes " = " (fun _ => True) [.sign .equals] := lexes_equals fun _ _ => rfl
  have declared := (start.andThen (lexes_name legible)).before colon ⟨':', rfl, by decide⟩
  exact ((declared.andThen type).before equals ⟨' ', rfl, by decide⟩).andThen read

lemma lexes_ret (keyword : Span) : Lexes "return" Apart ((Stmt.ret keyword none).marks .bare) := by
  have word : IsWord "return" .returnWord := ⟨⟨'r', "eturn".toList, rfl, by decide⟩, by decide⟩
  exact word.lexes nofun nofun fun _ _ => rfl

section

variable (read : Lexes text Apart (x.marks .bare))

include read

lemma lexes_retValue (keyword : Span) :
    Lexes ("return" ++ " " ++ text) Apart ((Stmt.ret keyword (some x)).marks .bare) :=
  ((lexes_ret keyword).blank (by decide)).andThen read

variable (inner : Lexes text' (fun _ => True) (body.marks .bare))

include inner

lemma lexes_ifThen (keyword : Span) :
    Lexes ("if" ++ " " ++ text ++ " " ++ text') (fun _ => True) ((Stmt.ifThen keyword x body).marks .bare) := by
  have word : IsWord "if" .ifWord := ⟨⟨'i', "f".toList, rfl, by decide⟩, by decide⟩
  have start : Lexes ("if" ++ " ") (fun _ => True) [.kept ⟨.ifWord, keyword⟩] :=
    lexes_keyword word nofun nofun fun _ _ => rfl
  exact ((start.andThen read).blank (by decide)).andThen inner

lemma lexes_ifElse
    (other : Lexes text'' (fun _ => True) (body'.marks .bare)) (keyword : Span) :
    Lexes ("if" ++ " " ++ text ++ " " ++ text' ++ " " ++ "else" ++ " " ++ text'') (fun _ => True)
      ((Stmt.ifElse keyword x body body').marks .bare) := by
  have word : IsWord "else" .elseWord := ⟨⟨'e', "lse".toList, rfl, by decide⟩, by decide⟩
  have second : Lexes "else" Apart [.sign .elseWord] := word.lexes nofun nofun fun _ _ => rfl
  have whole := ((((lexes_ifThen read inner keyword).blank trivial).andThen second).blank
    (by decide)).andThen other
  simpa only [Stmt.marks, append_assoc, cons_append, nil_append] using whole

lemma lexes_while (keyword : Span) : Lexes ("while" ++ " " ++ text ++ " " ++ text') (fun _ => True)
    ((Stmt.whileLoop keyword x body).marks .bare) := by
  have word : IsWord "while" .whileWord := ⟨⟨'w', "hile".toList, rfl, by decide⟩, by decide⟩
  have start : Lexes ("while" ++ " ") (fun _ => True) [.kept ⟨.whileWord, keyword⟩] :=
    lexes_keyword word nofun nofun fun _ _ => rfl
  exact ((start.andThen read).blank (by decide)).andThen inner

end

lemma lexes_function {parameters : List Parameter}
    {returnType : Option ReturnType} (legible : Legible ⟨.identifier, name⟩)
    (each : ∀ part ∈ parameters.map parameterMarks, AllLegible part)
    (type : AllLegible ((returnType.map returnTypeMarks).getD []))
    (inner : Lexes text (fun _ => True) (body.marks .bare)) (keyword : Span) : Lexes ("fx" ++
      " " ++ name.literal ++ "(" ++ ", ".intercalate (parameters.map (Style.parameter ⟨false⟩)) ++
      ") " ++ Style.returnType ⟨false⟩ returnType ++ text)
    (fun _ => True) ((Stmt.function keyword name parameters returnType body).marks .bare) := by
  have word : IsWord "fx" .functionWord := ⟨⟨'f', "x".toList, rfl, by decide⟩, by decide⟩
  have start : Lexes ("fx" ++ " ") (fun _ => True) [.kept ⟨.functionWord, keyword⟩] :=
    lexes_keyword word nofun nofun fun _ _ => rfl
  have opening : Lexes "(" (fun _ => True) [.sign .leftParen] := lexes_leftParen fun _ _ => rfl
  have last : Lexes ")" (fun _ => True) [.sign .rightParen] := lexes_rightParen fun _ _ => rfl
  have closing : Lexes ") " (fun _ => True) [.sign .rightParen] := last.blank trivial
  have list : List.Forall₂ (fun text part => Lexes text Apart part)
      (parameters.map (Style.parameter ⟨false⟩)) (parameters.map parameterMarks) := by
    refine forall₂_map_left_iff.2 (forall₂_map_right_iff.2 (forall₂_same.2 fun p mem => ?_))
    exact lexes_parameter p (each _ (List.mem_map_of_mem mem))
  have named := (start.andThen (lexes_name legible)).before opening ⟨'(', rfl, by decide⟩
  have header := ((named.andThen (lexes_commas list)).before closing ⟨')', rfl, by decide⟩).andThen
    (lexes_returnType returnType type)
  simpa only [Stmt.marks, append_assoc, cons_append, nil_append] using header.andThen inner

end

lemma stmtText_prints {expr : ExprId → Option Tree.Expr} {body : Body → Option String}
    {stmt : StmtId → Option Tree.Stmt} {y : Tree.Stmt} {ast : Ast} {print : ExprId → Option String}
    (typed : ∀ e x, expr e = some x → ∃ node, ast.expr? e = some node ∧ node.ty ≠ .error)
    (exprs : PrintsExpr print expr) (bodies : PrintsBody body stmt) {kind : StmtKind}
    (tree : kind.tree? expr stmt = some y) (legible : AllLegible (y.marks .free)) :
    ∃ (text : String) (y' : Tree.Stmt), ast.stmtText ⟨false⟩ print body kind = some text ∧
    y'.skeleton = y.skeleton ∧ Lexes text Apart (y'.marks .bare) := by
  cases kind with
  | expr e =>
    obtain ⟨x, first, ⟨⟩⟩ := bind_eq_some_iff.1 tree
    obtain ⟨text, printed, read⟩ := exprs e x first legible
    exact ⟨text, .expr x, printed, rfl, read.lexes⟩
  | letVar keyword name ascription init _ =>
    obtain ⟨x, first, ⟨⟩⟩ := bind_eq_some_iff.1 tree
    obtain ⟨node, found, named⟩ := typed init x first
    obtain ⟨text, printed, read⟩ := exprs init x first legible.tail.tail.right.tail
    simp only [stmtText, found, printed]
    refine ⟨_, .letVar keyword name _ x, rfl, ?_, lexes_let legible.tail.first named read.lexes keyword⟩
    rw [Stmt.skeleton, Stmt.skeleton]
  | ret keyword value =>
    cases value with
    | none =>
      cases tree
      exact ⟨"return", .ret keyword none, rfl, rfl, lexes_ret keyword⟩
    | some value =>
      obtain ⟨x, first, ⟨⟩⟩ := bind_eq_some_iff.1 tree
      obtain ⟨text, printed, read⟩ := exprs value x first legible.tail
      simp only [stmtText, printed]
      exact ⟨_, .ret keyword (some x), rfl, rfl, lexes_retValue read.lexes keyword⟩
  | ifElse keyword condition thenBody elseBody =>
    cases elseBody with
    | none =>
      obtain ⟨x, first, tree⟩ := bind_eq_some_iff.1 tree
      obtain ⟨z, second, ⟨⟩⟩ := bind_eq_some_iff.1 tree
      obtain ⟨text, printed, read⟩ := exprs condition x first legible.tail.left
      obtain ⟨text', z', printed', same, inner⟩ := bodies thenBody z second legible.tail.right
      simp only [stmtText, printed, printed']
      refine ⟨_, .ifThen keyword x z', rfl, ?_, (lexes_ifThen read.lexes inner keyword).imp fun _ _ => trivial⟩
      rw [Stmt.skeleton, Stmt.skeleton, same]
    | some elseBody =>
      obtain ⟨x, first, tree⟩ := bind_eq_some_iff.1 tree
      obtain ⟨z, second, tree⟩ := bind_eq_some_iff.1 tree
      obtain ⟨w, third, ⟨⟩⟩ := bind_eq_some_iff.1 tree
      obtain ⟨text, printed, read⟩ := exprs condition x first legible.tail.left
      obtain ⟨text', z', printed', same, inner⟩ := bodies thenBody z second legible.tail.right.left
      obtain ⟨text'', w', printed'', same', other⟩ := bodies elseBody w third legible.tail.right.right.tail
      simp only [stmtText, printed, printed', printed'']
      refine ⟨_, .ifElse keyword x z' w', rfl, ?_,
        (lexes_ifElse read.lexes inner other keyword).imp fun _ _ => trivial⟩
      rw [Stmt.skeleton, Stmt.skeleton, same, same']
  | whileLoop keyword condition loopBody =>
    obtain ⟨x, first, tree⟩ := bind_eq_some_iff.1 tree
    obtain ⟨z, second, ⟨⟩⟩ := bind_eq_some_iff.1 tree
    obtain ⟨text, printed, read⟩ := exprs condition x first legible.tail.left
    obtain ⟨text', z', printed', same, inner⟩ := bodies loopBody z second legible.tail.right
    simp only [stmtText, printed, printed']
    refine ⟨_, .whileLoop keyword x z', rfl, ?_, (lexes_while read.lexes inner keyword).imp fun _ _ => trivial⟩
    rw [Stmt.skeleton, Stmt.skeleton, same]
  | function keyword name parameters returnType functionBody _ =>
    obtain ⟨z, first, ⟨⟩⟩ := bind_eq_some_iff.1 tree
    have behind := legible.tail.tail.tail.right.tail
    obtain ⟨text, z', printed, same, inner⟩ := bodies functionBody z first behind.right
    have read := lexes_function legible.tail.first legible.tail.tail.tail.left.parts behind.left inner keyword
    simp only [stmtText, printed]
    refine ⟨_, .function keyword name parameters returnType z', rfl, ?_, read.imp fun _ _ => trivial⟩
    rw [Stmt.skeleton, Stmt.skeleton, same]

/-! ### Programs -/

/-- The lines of a statement are read as the tokens of a statement with the same skeleton. -/
def PrintsStmt (print : Nat → StmtId → Option String) (tree : StmtId → Option Tree.Stmt) : Prop :=
  ∀ indent id y, tree id = some y → AllLegible (y.marks .free) →
    ∃ (text : String) (y' : Tree.Stmt), print indent id = some text ∧ y'.skeleton = y.skeleton ∧
    Lexes text (fun _ => True) (y'.marks .bare)

section

variable {ast : Ast} {print : Nat → StmtId → Option String} {tree : StmtId → Option Tree.Stmt}

lemma PrintsStmt.all (h : PrintsStmt print tree) (indent : Nat) :
    ∀ {ids : List StmtId} {ys : List Tree.Stmt}, ids.mapM tree = some ys → AllLegible
    (stmtsMarks .free ys) → ∃ lines ys', ids.mapM (print indent) = some lines ∧ stmtsSkeleton ys' =
    stmtsSkeleton ys ∧ Lexes (String.join lines) (fun _ => True) (stmtsMarks .bare ys')
  | [], ys, trees, _ => by
    cases trees
    exact ⟨[], [], rfl, rfl, lexes_nil⟩
  | id :: ids, ys, trees, legible => by
    rw [mapM_cons] at trees
    obtain ⟨y, first, trees⟩ := bind_eq_some_iff.1 trees
    obtain ⟨ys, others, ⟨⟩⟩ := bind_eq_some_iff.1 trees
    obtain ⟨line, y', printed, same, read⟩ := h indent id y first legible.left
    obtain ⟨lines, ys', printeds, sames, reads⟩ := h.all indent others legible.right.right
    refine ⟨line :: lines, y' :: ys', ?_, by rw [stmtsSkeleton, stmtsSkeleton, same, sames], ?_⟩
    · rw [mapM_cons, printed, printeds]
      rfl
    · rw [String.join_cons]
      exact read.andThen reads

/-- The lines of a body, one step further in than its braces. -/
lemma PrintsStmt.body (h : PrintsStmt print tree) (indent : Nat) : PrintsBody (fun b => do
    let lines ← b.statements.mapM (print (indent + 1))
    return "\x7b\n" ++ String.join lines ++ padding indent ++ "\x7d") tree := by
  intro b y body legible
  obtain ⟨ys, trees, ⟨⟩⟩ := bind_eq_some_iff.1 body
  obtain ⟨lines, ys', printed, same, read⟩ := h.all (indent + 1) trees legible.tail.left
  have brace : Lexes "\x7b" (fun _ => True) [.kept ⟨.openBrace, b.openBrace⟩] :=
    lexes_sign rfl (fun _ => rfl) nofun nofun fun _ _ => rfl
  have line : Lexes "\n" (fun _ => True) [] := lexes_blanks (by decide)
  have opening : Lexes "\x7b\n" (fun _ => True) [.kept ⟨.openBrace, b.openBrace⟩] := brace.andThen line
  have closing : Lexes "\x7d" (fun _ => True) [.kept ⟨.closeBrace, b.closeBrace⟩] :=
    lexes_sign rfl (fun _ => rfl) nofun nofun fun _ _ => rfl
  have whole := ((opening.andThen read).andThen (lexes_padding indent)).andThen closing
  rw [append_nil] at whole
  simp only [printed]
  exact ⟨_, .mk b.openBrace ys' b.closeBrace, rfl, by rw [Body.skeleton, Body.skeleton, same], whole⟩

end

lemma printStmt_prints {ast : Ast} (typed : ∀ e node, ast.expr? e = some node → node.ty ≠ .error) :
    ∀ n, PrintsStmt (ast.printStmt ⟨false⟩ n) (ast.stmtTree? n)
  | 0, _, _, _, tree, _ => nomatch tree
  | n + 1, indent, id, y, tree, legible => by
    obtain ⟨node, found, tree⟩ := bind_eq_some_iff.1 tree
    have here e x (tree : ast.exprTree? n e = some x) : ∃ node, ast.expr? e = some node ∧ node.ty ≠ .error := by
      cases n with
      | zero => cases tree
      | succ n =>
        obtain ⟨node, found, -⟩ := bind_eq_some_iff.1 tree
        exact ⟨node, found, typed e node found⟩
    obtain ⟨text, y', printed, same, read⟩ :=
      stmtText_prints here (ast.printExpr_prints n) ((printStmt_prints typed n).body indent) tree legible
    have line : Lexes "\n" (fun _ => True) [] := lexes_blanks (by decide)
    have whole := ((lexes_padding indent).andThen read).before line ⟨'\n', rfl, by decide⟩
    refine ⟨padding indent ++ text ++ "\n", y', ?_, same, ?_⟩
    · rw [printStmt, found]
      exact congrArg (· >>= fun text => some (padding indent ++ text ++ "\n")) printed
    · rwa [append_nil, nil_append] at whole

/-- The text of a program is read as the tokens of a program with the same skeleton. -/
lemma print_lexes {ys : List Tree.Stmt} {ast : Ast}
    (typed : ∀ e node, ast.expr? e = some node → node.ty ≠ .error) (trees : ast.trees? = some ys)
    (legible : AllLegible (stmtsMarks .free ys)) : ∃ text ys', ast.print ⟨false⟩ = some text ∧
    stmtsSkeleton ys' = stmtsSkeleton ys ∧ Lexes text (fun _ => True) (stmtsMarks .bare ys') := by
  obtain ⟨lines, ys', printed, same, read⟩ := (printStmt_prints typed ast.depth).all 0 trees legible
  refine ⟨String.join lines, ys', ?_, same, read⟩
  rw [print, printed]
  rfl

end Ast

end EmLang
