import EmLang.Proofs.Spelling
import EmLang.Proofs.TreeTokens
import EmLang.Text.Quoted
import Mathlib.Data.List.Forall2

/-!
Text that is read as given tokens. A piece of text is read by itself where the character behind it
cannot belong to its last token, so a text can be read piece by piece. Where tokens stand is left
open, and so is what strings hold.
-/

namespace EmLang

open List Nat Text EmLang.Tree

/-- A token like this one: of the same kind, and the same name if it is a name. Strings may
differ. -/
def Token.Like (a token : Token) : Prop :=
  match a.kind with
  | .identifier => token.kind = .identifier ∧ token.span.literal = a.span.literal
  | .string _ => ∃ value, token.kind = .string value
  | kind => token.kind = kind

/-- The token is one that the mark asks for. -/
def Tree.Mark.Met : Mark → Token → Prop
  | .kept a, token => a.Like token
  | .sign kind, token => token.kind = kind
  | .optional _, _ => False

namespace Token

/-! ### Words -/

/-- The tokens of a text that a program is made of, where its first byte has offset `pos`. -/
def words (pos : Nat) (text : List Char) : List Token := (readFrom pos text).filter (·.kind ≠ .blank)

lemma words_nil (pos : Nat) : words pos [] = [⟨.eof, pos, pos, ""⟩] := by
  rw [words, readFrom]
  rfl

variable {c : Char} {cs : List Char} {kind : TokenKind} {n : Nat} {text text' : String}
  {follows follows' : Char → Prop} {marks marks' : List Mark} {mark : Mark}

lemma words_token (here : scan c cs = (kind, n)) (other : kind ≠ .blank) (pos : Nat) :
    ∃ start stop, words pos (c :: cs) = ⟨kind, start, stop, String.ofList (c :: cs.take n)⟩ ::
    words stop (cs.drop n) := by
  rw [words, readFrom, here]
  exact ⟨pos, pos + byteLength (c :: cs.take n), filter_cons_of_pos (by simpa using other)⟩

lemma scan_blank (blank : isBlank c = true) (cs : List Char) : scan c cs = (.blank, runLength isBlank cs) := by
  have digit : c.isDigit ≠ true := by
    intro digit
    simp only [Char.isDigit, UInt32.le_iff_toNat_le, Bool.and_eq_true, decide_eq_true_eq] at digit
    simp only [isBlank, blankRanges, inRanges, Bool.and_eq_true, Bool.or_eq_true, decide_eq_true_eq,
      Bool.false_eq_true, or_false] at blank
    have low : '0'.val.toNat = 48 := rfl
    have high : '9'.val.toNat = 57 := rfl
    have same : c.val.toNat = c.toNat := rfl
    omega
  have quote : c ≠ '"' := by
    rintro rfl
    cases blank
  rw [scan, if_neg digit, if_neg quote, if_pos blank]

/-- A blank character is left out by itself, whether other ones follow or not. -/
lemma words_blank (blank : isBlank c = true) (pos : Nat) (cs : List Char) :
    words pos (c :: cs) = words (pos + c.utf8Size) cs := by
  have skip {c : Char} (blank : isBlank c = true) (pos : Nat) (cs : List Char) : words pos (c :: cs) =
      words (pos + byteLength (c :: cs.take (runLength isBlank cs))) (cs.drop (runLength isBlank cs)) := by
    rw [words, readFrom, scan_blank blank]
    exact filter_cons_of_neg (by simp)
  rw [skip blank]
  cases cs with
  | nil => rfl
  | cons d ds =>
    by_cases more : isBlank d = true
    · rw [skip more, runLength, takeWhile_cons_of_pos more]
      simp only [length_cons, take_succ_cons, drop_succ_cons, byteLength_cons, Nat.add_assoc]
      rfl
    · rw [runLength, takeWhile_cons_of_neg more]
      rfl

/-! ### Pieces of text -/

/-- In front of anything that may follow it, the text is read as tokens that the marks ask for, and
none is a semicolon. -/
def Lexes (text : String) (follows : Char → Prop) (marks : List Mark) : Prop :=
  ∀ pos rest, (∀ c ∈ rest.head?, follows c) → ∃ tokens pos', List.Forall₂ Mark.Met marks tokens ∧
    (∀ token ∈ tokens, token.kind ≠ .semicolon) ∧ words pos (text.toList ++ rest) = tokens ++ words pos' rest

/-- The character is in no name and no number. -/
def Apart (c : Char) : Prop := isIdentifierPart c = false

instance : DecidablePred Apart := fun c => inferInstanceAs (Decidable (isIdentifierPart c = false))

lemma Lexes.imp (h : Lexes text follows marks) (hi : ∀ c, follows' c → follows c) : Lexes text follows' marks :=
  fun pos rest behind => h pos rest fun c mem => hi c (behind c mem)

lemma Lexes.append (h : Lexes text follows marks) (h' : Lexes text' follows' marks')
    (fits : ∀ rest, (∀ c ∈ rest.head?, follows' c) → ∀ c ∈ (text'.toList ++ rest).head?, follows c) :
    Lexes (text ++ text') follows' (marks ++ marks') := by
  intro pos rest behind
  obtain ⟨tokens, pos1, met, unended, first⟩ := h pos (text'.toList ++ rest) (fits rest behind)
  obtain ⟨tokens', pos2, met', unended', second⟩ := h' pos1 rest behind
  refine ⟨tokens ++ tokens', pos2, rel_append met met', forall_mem_append.2 ⟨unended, unended'⟩, ?_⟩
  rw [String.toList_append, append_assoc, first, second, append_assoc]

/-- Anything may follow the first piece. -/
lemma Lexes.andThen (h : Lexes text (fun _ => True) marks) (h' : Lexes text' follows marks') :
    Lexes (text ++ text') follows (marks ++ marks') :=
  h.append h' fun _ _ _ _ => trivial

/-- The text begins with a character like this. -/
def Opens (text : String) (P : Char → Prop) : Prop := ∃ c ∈ text.toList.head?, P c

lemma Opens.append {P : Char → Prop} (h : Opens text P) (text' : String) : Opens (text ++ text') P := by
  obtain ⟨c, first, here⟩ := h
  refine ⟨c, ?_, here⟩
  rw [String.toList_append, head?_append, first]
  rfl

/-- The second piece begins with a character that may follow. -/
lemma Lexes.before (h : Lexes text follows marks) (h' : Lexes text' follows' marks')
    (fits : Opens text' follows) : Lexes (text ++ text') follows' (marks ++ marks') := by
  obtain ⟨c, first, fits⟩ := fits
  refine h.append h' fun rest _ d mem => ?_
  rw [head?_append, first] at mem
  exact Option.some.inj mem ▸ fits

lemma lexes_nil : Lexes "" (fun _ => True) [] := fun pos _ _ => ⟨[], pos, .nil, nofun, rfl⟩

lemma lexes_blanks (blank : text.toList.all isBlank = true) : Lexes text (fun _ => True) [] := by
  intro pos rest _
  rw [List.all_eq_true] at blank
  generalize text.toList = cs at blank
  induction cs generalizing pos with
  | nil => exact ⟨[], pos, .nil, nofun, rfl⟩
  | cons c cs ih =>
    obtain ⟨tokens, pos', met, unended, same⟩ := ih (pos + c.utf8Size) fun d mem => blank d (.tail _ mem)
    exact ⟨tokens, pos', met, unended, (words_blank (blank c (.head _)) pos (cs ++ rest)).trans same⟩

lemma Lexes.blank (h : Lexes text follows marks) (fits : follows ' ') :
    Lexes (text ++ " ") (fun _ => True) marks := by
  have blank : Lexes " " (fun _ => True) [] := lexes_blanks (by decide)
  rw [← marks.append_nil]
  exact h.before blank ⟨' ', rfl, fits⟩

lemma lexes_token {mark : Mark} (same : text.toList = c :: cs)
    (h : ∀ rest, (∀ d ∈ rest.head?, follows d) → ∃ kind, scan c (cs ++ rest) = (kind, cs.length) ∧
      kind ≠ .blank ∧ kind ≠ .semicolon ∧ ∀ start stop, mark.Met ⟨kind, start, stop, text⟩) :
    Lexes text follows [mark] := by
  intro pos rest behind
  obtain ⟨kind, here, other, unended, met⟩ := h rest behind
  obtain ⟨start, stop, read⟩ := words_token here other pos
  rw [take_left, drop_left, ← same, String.ofList_toList] at read
  rw [same]
  exact ⟨_, stop, .cons (met start stop) .nil, forall_mem_singleton.2 unended, read⟩

/-! ### Words of letters -/

/-- The text is read as a word of this kind, in front of what is no part of it. -/
structure IsWord (text : String) (kind : TokenKind) : Prop where
  word : ∃ c cs, text.toList = c :: cs ∧ c.isDigit = false ∧ c ≠ '"' ∧ isBlank c = false ∧
    isIdentifierStart c = true ∧ cs.all isIdentifierPart = true
  kind : (TokenKind.keyword? text).getD .identifier = kind

lemma takeWhile_append_of_apart {rest : List Char} {P : Char → Bool} (all : ∀ d ∈ cs, P d = true)
    (apart : ∀ d ∈ rest.head?, P d = false) : (cs ++ rest).takeWhile P = cs := by
  rw [takeWhile_append_of_pos all]
  cases rest with
  | nil => rw [takeWhile_nil, append_nil]
  | cons d ds => rw [takeWhile_cons_of_neg (by simp [apart d rfl]), append_nil]

lemma IsWord.lexes {text : String} {mark : Mark} (h : IsWord text kind) (other : kind ≠ .blank)
    (unended : kind ≠ .semicolon) (met : ∀ start stop, mark.Met ⟨kind, start, stop, text⟩) :
    Lexes text Apart [mark] := by
  obtain ⟨⟨c, cs, same, digit, quote, blank, start, parts⟩, rfl⟩ := h
  refine lexes_token same fun rest apart => ⟨_, ?_, other, unended, met⟩
  rw [scan, if_neg (by simp [digit]), if_neg quote, if_neg (by simp [blank]), if_pos start]
  simp only [runLength, takeWhile_append_of_apart (List.all_eq_true.1 parts) apart, ← same,
    String.ofList_toList]

lemma IsWord.isName {text : String} (h : IsWord text kind) : IsName text := by
  obtain ⟨⟨c, cs, same, -, -, -, start, parts⟩, -⟩ := h
  refine ⟨same ▸ cons_ne_nil c cs, ?_⟩
  rw [same]
  exact forall_mem_cons.2 ⟨isIdentifierPart_of_start start, List.all_eq_true.1 parts⟩

/-- A name that was read once is read again. -/
lemma isWord_of_scan (h : scan c cs = (.identifier, n)) :
    IsWord (String.ofList (c :: cs.take n)) .identifier := by
  have here : (scan c cs).1 = .identifier := by rw [h]
  revert h here
  unfold scan
  split_ifs with digit quote blank start
  · intro h
    unfold numberKind
    split_ifs <;> exact nofun
  · intro h
    dsimp only
    split <;> exact nofun
  · exact nofun
  · rintro h kind
    obtain ⟨-, rfl⟩ := Prod.mk.inj h
    rw [take_runLength]
    exact ⟨⟨c, _, String.toList_ofList, by simpa using digit, quote,
      by simpa using blank, start, List.all_eq_true.2 fun d mem => mem_takeWhile_imp mem⟩, kind⟩
  · exact fun _ kind => absurd kind (sign_ne c cs)

/-! ### Numbers -/

lemma isIdentifierPart_of_isDigit (digit : c.isDigit = true) : isIdentifierPart c = true := by
  simp only [Char.isDigit, UInt32.le_iff_toNat_le, Bool.and_eq_true, decide_eq_true_eq] at digit
  have numeric : isNumeric c = true := by
    exact Bool.and_eq_true_iff.2 ⟨decide_eq_true digit.1, Bool.or_eq_true_iff.2 (.inl (decide_eq_true digit.2))⟩
  simp [isIdentifierPart, isAlphanumeric, numeric]

/-- A number that is not negative is written with digits only. -/
lemma digits_of_nonneg {value : Int64} (nonneg : 0 ≤ value.toInt) : ∃ c cs, (toString value).toList
    = c :: cs ∧ (∀ d ∈ c :: cs, d.isDigit = true) ∧ numberKind (c :: cs) = .number value := by
  obtain ⟨k, hk⟩ := Int.eq_ofNat_of_zero_le nonneg
  have small : k ≤ 9223372036854775807 := by
    have bound := value.toInt_lt
    omega
  have text : (toString value).toList = toDigits 10 k := by
    show (toString value.toInt).toList = _
    rw [hk]
    exact String.toList_ofList
  have back : Int64.ofNat k = value := by
    rw [← Int64.ofInt_toInt value, hk]
    rfl
  obtain ⟨c, cs, same⟩ : ∃ c cs, toDigits 10 k = c :: cs := exists_cons_of_ne_nil toDigits_ne_nil
  have read : decimal (c :: cs) = k := by
    rw [← same]
    exact ofDigitChars_toDigits (by decide) (by decide)
  refine ⟨c, cs, text.trans same, fun d mem => ?_, by rw [numberKind, read, if_pos small, back]⟩
  rw [← same] at mem
  exact isDigit_of_mem_toDigits (by decide) (by decide) mem

lemma lexes_number {value : Int64} (nonneg : 0 ≤ value.toInt) (span : Span) :
    Lexes (toString value) Apart [.kept ⟨.number value, span⟩] := by
  obtain ⟨c, cs, same, digits, kind⟩ := digits_of_nonneg nonneg
  refine lexes_token same fun rest apart => ⟨.number value, ?_, nofun, nofun, fun _ _ => rfl⟩
  have others : (cs ++ rest).takeWhile Char.isDigit = cs := by
    refine takeWhile_append_of_apart (fun d mem => digits d (.tail _ mem)) fun d mem => ?_
    by_contra digit
    have part := isIdentifierPart_of_isDigit (by simpa using digit)
    rw [show isIdentifierPart d = false from apart d mem] at part
    cases part
  rw [scan, if_pos (digits c (.head _)), others, runLength, others, kind]

/-! ### Strings -/

/-- Between quotes the text stands for these characters, and the string goes on behind it. -/
def Denotes (text value : List Char) : Prop :=
  ∀ cs, stringRest (text ++ cs) = ((stringRest cs).1.map (value ++ ·), (stringRest cs).2 + text.length)

lemma denotes_nil : Denotes [] [] := by
  intro cs
  simp

lemma Denotes.append {text value text' value' : List Char} (h : Denotes text value)
    (h' : Denotes text' value') : Denotes (text ++ text') (value ++ value') := by
  intro cs
  rw [append_assoc, h, h', Option.map_map, length_append, Nat.add_assoc, Nat.add_comm text'.length]
  simp [Function.comp_def]

lemma denotes_escape (c : Char) : Denotes ['\\', c] (unescape c) := by
  intro cs
  simp [stringRest]

lemma denotes_plain (quote : c ≠ '"') (backslash : c ≠ '\\') : Denotes [c] [c] := by
  intro cs
  rw [singleton_append, stringRest]
  · simp
  · exact quote
  · exact fun same _ => backslash same
  · exact fun _ _ same _ => backslash same

lemma denotes_self {text : List Char} (plain : ∀ c ∈ text, c ≠ '"' ∧ c ≠ '\\') : Denotes text text := by
  induction text with
  | nil => exact denotes_nil
  | cons c cs ih =>
    obtain ⟨quote, backslash⟩ := plain c (.head _)
    exact (denotes_plain quote backslash).append (ih fun d mem => plain d (.tail _ mem))

/-- The digits of a number with base sixteen are neither quotes nor backslashes. -/
lemma plain_of_mem_toDigits (n : Nat) : ∀ c ∈ toDigits 16 n, c ≠ '"' ∧ c ≠ '\\' := by
  have plain : ∀ m < 16, digitChar m ≠ '"' ∧ digitChar m ≠ '\\' := by decide
  induction n using Nat.strong_induction_on with
  | _ n ih =>
    intro c mem
    rw [toDigits_eq_if (by decide)] at mem
    split_ifs at mem with small
    · obtain rfl := mem_singleton.1 mem
      exact plain n small
    · obtain mem | mem := mem_append.1 mem
      · exact ih (n / 16) (by omega) c mem
      · obtain rfl := mem_singleton.1 mem
        exact plain (n % 16) (mod_lt n (by decide))

/-- What a character is read back as from quoted text. One that is named by its code point stays as
it is written. -/
def reread (c : Char) : List Char := if quoteChar c = codePointEscape c then codePointEscape c else [c]

/-- A character is named by its code point, or stands for itself. -/
lemma quoteChar_cases (c : Char) : quoteChar c = codePointEscape c ∨
    quoteChar c ≠ codePointEscape c ∧ Denotes (quoteChar c) [c] := by
  unfold quoteChar
  split_ifs with nul tab ret line special hidden
  · exact .inr ⟨nofun, nul ▸ denotes_escape '0'⟩
  · exact .inr ⟨nofun, tab ▸ denotes_escape 't'⟩
  · exact .inr ⟨nofun, ret ▸ denotes_escape 'r'⟩
  · exact .inr ⟨nofun, line ▸ denotes_escape 'n'⟩
  · obtain rfl | rfl := special
    · exact .inr ⟨nofun, denotes_escape '"'⟩
    · exact .inr ⟨nofun, denotes_escape '\\'⟩
  · exact .inl rfl
  · exact .inr ⟨nofun, denotes_plain (fun same => special (.inl same)) fun same => special (.inr same)⟩

lemma denotes_quoteChar (c : Char) : Denotes (quoteChar c) (reread c) := by
  obtain same | ⟨other, itself⟩ := quoteChar_cases c
  · have opened : Denotes ['\\', 'u', '\x7b'] ['\\', 'u', '\x7b'] :=
      (denotes_escape 'u').append (denotes_plain (by decide) (by decide))
    rw [reread, if_pos same, same]
    exact (opened.append (denotes_self (plain_of_mem_toDigits c.toNat))).append
      (denotes_plain (by decide) (by decide))
  · rw [reread, if_neg other]
    exact itself

/-- A text is read back as it is just if no character of it is named by its code point. -/
lemma flatMap_reread_eq_iff (cs : List Char) :
    cs.flatMap reread = cs ↔ ∀ c ∈ cs, quoteChar c ≠ codePointEscape c := by
  have longer (cs : List Char) : cs.length ≤ (cs.flatMap reread).length := by
    induction cs with
    | nil => exact le_rfl
    | cons c cs ih =>
      have one : 1 ≤ (reread c).length := by
        unfold reread
        split_ifs <;> simp [codePointEscape]
      rw [flatMap_cons, length_append, length_cons]
      omega
  induction cs with
  | nil => simp
  | cons c cs ih =>
    rw [flatMap_cons, forall_mem_cons]
    by_cases named : quoteChar c = codePointEscape c
    · refine iff_of_false (fun same => ?_) fun plain => plain.1 named
      have length := congrArg List.length same
      have more := longer cs
      rw [length_append, reread, if_pos named, codePointEscape] at length
      simp only [length_append, length_cons, length_nil] at length
      omega
    · rw [reread, if_neg named, singleton_append, cons_inj_right]
      exact ih.trans (and_iff_right named).symm

lemma denotes_flatMap (value : List Char) : Denotes (value.flatMap quoteChar) (value.flatMap reread) := by
  induction value with
  | nil => exact denotes_nil
  | cons c cs ih => exact (denotes_quoteChar c).append ih

/-- A quoted text is read to its end, whatever follows. -/
lemma scan_quoted (value rest : List Char) : scan '"' (value.flatMap quoteChar ++ ['"'] ++ rest) =
    (.string (String.ofList (value.flatMap reread)), (value.flatMap quoteChar ++ ['"']).length) := by
  rw [append_assoc, singleton_append, scan, if_neg (by decide), if_pos rfl, denotes_flatMap,
    stringRest, length_append, Nat.add_comm]
  simp

lemma lexes_quoted (value original : String) (span : Span) :
    Lexes (quoted value) (fun _ => True) [.kept ⟨.string original, span⟩] := by
  refine lexes_token (show (quoted value).toList = '"' ::
    (value.toList.flatMap quoteChar ++ ['"']) from String.toList_ofList) fun rest _ => ?_
  exact ⟨_, scan_quoted value.toList rest, nofun, nofun, fun _ _ => ⟨_, rfl⟩⟩

/-! ### Signs -/

/-- A sign that is never part of a longer one. -/
lemma lexes_sign (same : text.toList = c :: cs) (here : ∀ rest,
      scan c (cs ++ rest) = (kind, cs.length)) (other : kind ≠ .blank) (unended : kind ≠ .semicolon)
    (met : ∀ start stop, mark.Met ⟨kind, start, stop, text⟩) : Lexes text (fun _ => True) [mark] :=
  lexes_token same fun rest _ => ⟨kind, here rest, other, unended, met⟩

/-- A sign before a space. -/
lemma lexes_spaced (same : text.toList = c :: cs) (last : scan c cs = (kind, cs.length))
    (spaced : ∀ rest, scan c (cs ++ ' ' :: rest) = (kind, cs.length)) (other : kind ≠ .blank)
    (unended : kind ≠ .semicolon) (met : ∀ start stop, mark.Met ⟨kind, start, stop, text⟩) :
    Lexes text (· = ' ') [mark] := by
  refine lexes_token same fun rest follows => ⟨kind, ?_, other, unended, met⟩
  cases rest with
  | nil =>
    rw [append_nil]
    exact last
  | cons d ds =>
    obtain rfl : d = ' ' := follows d rfl
    exact spaced ds

lemma lexes_operator (op : BinaryOp) (span : Span) : Lexes op.symbol (· = ' ') [.kept ⟨op.token, span⟩] := by
  cases op
  all_goals exact lexes_spaced rfl rfl (fun _ => rfl) nofun nofun fun _ _ => rfl

/-! ### Tokens that were read -/

/-- The token is one that a text may hold: a name is spelled as a name, and a number is not
negative. -/
def Legible (token : Token) : Prop :=
  match token.kind with
  | .identifier => IsWord token.span.literal .identifier
  | .number value => 0 ≤ value.toInt
  | _ => True

/-- A kind of token that a character begins. -/
def Begun (kind : TokenKind) : Prop := kind ≠ .eof ∧ ∀ value, kind = .number value → 0 ≤ value.toInt

lemma begun_numberKind (digits : List Char) : Begun (numberKind digits) := by
  unfold numberKind
  split_ifs with small
  · refine ⟨nofun, fun value same => ?_⟩
    cases same
    rw [Int64.toInt_ofNat_of_lt (by omega)]
    exact Int.natCast_nonneg _
  · exact ⟨nofun, nofun⟩

lemma begun_sign (c : Char) (cs : List Char) : Begun (sign c cs).1 := by
  unfold sign
  split
  case h_11 | h_12 | h_13 | h_14 | h_15 => refine orLonger_of (P := Begun) ?_ ?_ _ cs <;> exact ⟨nofun, nofun⟩
  case h_16 =>
    unfold slashRest
    split <;> exact ⟨nofun, nofun⟩
  all_goals exact ⟨nofun, nofun⟩

lemma begun_scan (c : Char) (cs : List Char) : Begun (scan c cs).1 := by
  unfold scan
  split_ifs with digit quote blank start
  · exact begun_numberKind _
  · dsimp only
    split <;> exact ⟨nofun, nofun⟩
  · exact ⟨nofun, nofun⟩
  · dsimp only
    unfold TokenKind.keyword?
    split <;> exact ⟨nofun, nofun⟩
  · exact begun_sign c cs

lemma legible_of_scan (here : scan c cs = (kind, n)) (start stop : Nat) :
    Legible ⟨kind, start, stop, String.ofList (c :: cs.take n)⟩ := by
  cases kind with
  | identifier => exact isWord_of_scan here
  | number value =>
    have begun := begun_scan c cs
    rw [here] at begun
    exact begun.2 value rfl
  | _ => trivial

/-- A text has an end, and all of its tokens are legible. -/
lemma readFrom_ends (pos : Nat) (cs : List Char) : ∃ before last, readFrom pos cs = before ++
    [last] ∧ last.kind = .eof ∧ ∀ token ∈ before, token.kind ≠ .eof ∧ token.Legible := by
  fun_induction readFrom pos cs with
  | case1 pos => exact ⟨[], _, rfl, rfl, nofun⟩
  | case2 pos c cs kind n scanned text stop ih =>
    obtain ⟨before, last, same, isEnd, others⟩ := ih
    refine ⟨_ :: before, last, congrArg _ same, isEnd, fun token mem => ?_⟩
    obtain rfl | mem := mem_cons.1 mem
    · have begun := begun_scan c cs
      rw [scanned] at begun
      exact ⟨begun.1, legible_of_scan scanned pos stop⟩
    · exact others token mem

lemma words_ends (pos : Nat) (cs : List Char) : ∃ before last, words pos cs = before ++ [last] ∧
    last.kind = .eof ∧ ∀ token ∈ before, token.kind ≠ .eof ∧ token.Legible := by
  obtain ⟨before, last, same, isEnd, others⟩ := readFrom_ends pos cs
  refine ⟨before.filter (·.kind ≠ .blank), last, ?_, isEnd, fun token mem => others token (mem_filter.1 mem).1⟩
  rw [words, same, filter_append, filter_cons_of_pos (by simp [isEnd]), filter_nil]

end Token

namespace Tree

/-- The tokens that a node keeps are legible. -/
def AllLegible (marks : List Mark) : Prop := ∀ token, .kept token ∈ marks → token.Legible

variable {marks marks' : List Mark} {mark : Mark}

lemma AllLegible.left (h : AllLegible (marks ++ marks')) : AllLegible marks :=
  fun token mem => h token (mem_append_left _ mem)

lemma AllLegible.right (h : AllLegible (marks ++ marks')) : AllLegible marks' :=
  fun token mem => h token (mem_append_right _ mem)

lemma AllLegible.tail (h : AllLegible (mark :: marks)) : AllLegible marks :=
  fun token mem => h token (.tail _ mem)

lemma AllLegible.first {token : Token} (h : AllLegible (.kept token :: marks)) : token.Legible :=
  h token (.head _)

lemma AllLegible.parts : ∀ {parts : List (List Mark)}, AllLegible (commas .free parts) →
    ∀ part ∈ parts, AllLegible part
  | [_], h, _, .head _ => h.left
  | _ :: _ :: _, h, _, .head _ => h.left
  | _ :: _ :: _, h, part, .tail _ mem => h.right.tail.parts part mem

end Tree

end EmLang
