import EmLang.Proofs.PrintedTokens

/-!
Tokens tile the text that they are read from, and each is read again from its own part of it.
-/

namespace EmLang.Token

open List Text

variable {c : Char} {cs : List Char} {kind : TokenKind} {n : Nat}

/-! ### A token is read from its own characters -/

lemma runLength_takeWhile (p : Char → Bool) (cs : List Char) :
    runLength p (cs.takeWhile p) = runLength p cs := by
  rw [runLength, takeWhile_idem]
  rfl

lemma stringRest_take (cs : List Char) : stringRest (cs.take (stringRest cs).2) = stringRest cs := by
  fun_induction stringRest cs with
  | case1 => rfl
  | case2 => rfl
  | case3 => rfl
  | case4 c cs value n rest ih =>
    rw [rest] at ih
    rw [take_succ_cons, take_succ_cons, stringRest, ih]
  | case5 c cs quote last escape value n rest ih =>
    have backslash : c ≠ '\\' := by
      rintro rfl
      cases cs with
      | nil => exact last rfl rfl
      | cons d ds => exact escape d ds rfl rfl
    rw [rest] at ih
    rw [take_succ_cons, stringRest, ih]
    · exact quote
    · exact fun same _ => backslash same
    · exact fun _ _ same _ => backslash same

lemma blockCommentRest_take (cs : List Char) :
    blockCommentRest (cs.take (blockCommentRest cs)) = blockCommentRest cs := by
  fun_induction blockCommentRest cs with
  | case1 => rfl
  | case2 => rfl
  | case3 c cs other ih =>
    rw [take_succ_cons, blockCommentRest, ih]
    intro rest star same
    obtain ⟨behind, whole⟩ := take_prefix (blockCommentRest cs) cs
    rw [same] at whole
    exact other _ star whole.symm

lemma orLonger_take (next : Char) (long short : TokenKind) (cs : List Char) :
    orLonger next long short (cs.take (orLonger next long short cs).2) = orLonger next long short cs := by
  cases cs with
  | nil => rfl
  | cons d ds =>
    rw [orLonger]
    split_ifs with same
    · rw [take_succ_cons, orLonger, if_pos same]
    · rfl

lemma slashRest_take (cs : List Char) : slashRest (cs.take (slashRest cs).2) = slashRest cs := by
  fun_cases slashRest cs with
  | case1 cs =>
    rw [take_succ_cons, take_runLength, slashRest, runLength_takeWhile]
  | case2 cs =>
    rw [take_succ_cons, slashRest, blockCommentRest_take]
  | case3 => rfl

lemma sign_take (c : Char) (cs : List Char) : sign c (cs.take (sign c cs).2) = sign c cs := by
  unfold sign
  split
  case h_11 | h_12 | h_13 | h_14 | h_15 => exact orLonger_take ..
  case h_16 => exact slashRest_take cs
  all_goals rfl

lemma scan_take (c : Char) (cs : List Char) : scan c (cs.take (scan c cs).2) = scan c cs := by
  unfold scan
  split_ifs
  · dsimp only
    rw [take_runLength, takeWhile_idem, runLength_takeWhile]
  · dsimp only
    rw [stringRest_take]
  · dsimp only
    rw [take_runLength, runLength_takeWhile]
  · dsimp only
    rw [take_runLength, takeWhile_idem, runLength_takeWhile]
  · exact sign_take c cs

/-! ### Tokens one behind the other -/

/-- The text of tokens, one behind the other. -/
def written (tokens : List Token) : List Char := tokens.flatMap (·.span.literal.toList)

/-- The end mark at an offset. -/
def endAt (pos : Nat) : Token := ⟨.eof, pos, pos, ""⟩

/-- Read by itself, the text of the token gives the same token, and nothing behind it. -/
def Standalone (token : Token) : Prop :=
  let size := byteLength token.span.literal.toList
  readAll token.span.literal.toList = [⟨token.kind, 0, size, token.span.literal⟩, endAt size]

lemma standalone_of_scan (scanned : scan c cs = (kind, n)) (start stop : Nat) :
    Standalone ⟨kind, start, stop, String.ofList (c :: cs.take n)⟩ := by
  have again := scan_take c cs
  rw [scanned] at again
  simp only [Standalone, readAll, String.toList_ofList]
  rw [readFrom, again]
  simp only [take_take, Nat.min_self, Nat.zero_add, drop_eq_nil_of_le (length_take_le ..)]
  rw [readFrom]
  rfl

lemma readFrom_tiles (pos : Nat) (text : List Char) : ∃ tokens, readFrom pos text =
    tokens ++ [endAt (pos + byteLength text)] ∧ written tokens = text ∧ ∀ front token behind,
    tokens = front ++ token :: behind → token.span.start = pos + byteLength (written front) ∧
    token.span.stop = token.span.start + byteLength token.span.literal.toList ∧
    token.span.literal.toList ≠ [] ∧ token.kind ≠ .eof ∧ Standalone token := by
  fun_induction readFrom pos text with
  | case1 pos =>
    refine ⟨[], rfl, rfl, fun front token behind same => ?_⟩
    cases front <;> cases same
  | case2 pos c cs kind n scanned text stop ih =>
    obtain ⟨tokens, same, whole, each⟩ := ih
    have parts : text ++ cs.drop n = c :: cs := congrArg (c :: ·) (take_append_drop n cs)
    have here : (String.ofList text).toList = text := String.toList_ofList
    refine ⟨⟨kind, pos, stop, String.ofList text⟩ :: tokens, ?_, ?_, ?_⟩
    · rw [same, ← parts, byteLength_append, ← Nat.add_assoc]
      rfl
    · rw [written, flatMap_cons, here, ← parts]
      exact congrArg _ whole
    · rintro (_ | ⟨_, front⟩) token behind split
      · cases split
        refine ⟨rfl, congrArg (pos + byteLength ·) here.symm, fun empty =>
          cons_ne_nil _ _ (here.symm.trans empty), ?_, standalone_of_scan scanned pos stop⟩
        have begun := begun_scan c cs
        rw [scanned] at begun
        exact begun.1
      · obtain ⟨rfl, later⟩ := cons.inj split
        obtain ⟨start, rest⟩ := each front token behind later
        refine ⟨start.trans ?_, rest⟩
        rw [written, written, flatMap_cons, here, byteLength_append, ← Nat.add_assoc]

/-! ### Parts of a text -/

lemma length_le_byteLength (cs : List Char) : cs.length ≤ byteLength cs := by
  induction cs with
  | nil => exact le_rfl
  | cons c cs ih =>
    have := c.utf8Size_pos
    rw [length_cons, byteLength_cons]
    omega

lemma cut?_append (l r : List Char) : cut? (byteLength l) (l ++ r) = some (l, r) := by
  induction l with
  | nil => exact cut?.eq_1 r
  | cons c l ih =>
    obtain ⟨n, size⟩ := Nat.exists_eq_succ_of_ne_zero c.utf8Size_pos.ne'
    have rest : n + byteLength l + 1 - (n + 1) = byteLength l := by omega
    rw [byteLength_cons, size, Nat.succ_add, cons_append, cut?, if_pos (by omega), size, rest, ih]
    rfl

lemma slice?_append (l m r : List Char) :
    slice? (byteLength l) (byteLength l + byteLength m) (l ++ (m ++ r)) = some m := by
  simp [slice?, cut?_append]

/-- The token stands behind the tokens `front` in the text, and is read again from its own part of
it. -/
structure Tile (text : List Char) (front : List Token) (token : Token) : Prop where
  start : token.span.start = byteLength (written front)
  slice : slice? token.span.start token.span.stop text = some token.span.literal.toList
  stop : token.span.stop = byteLength (written (front ++ [token]))
  nonempty : token.span.start < token.span.stop
  kind : token.kind ≠ .eof
  standalone : Standalone token

/-- **Tokens tile the text.** They are read from the beginning of the text to its end, each from the
bytes behind those of the tokens before it. None is empty but the end mark, which is the last one. A
program is made of all that are not blank. -/
theorem readAll_tiles (text : List Char) :
    ∃ tokens, readAll text = tokens ++ [endAt (byteLength text)] ∧ written tokens = text ∧
    (∀ front token behind, tokens = front ++ token :: behind → Tile text front token) ∧
    tokenize text = (readAll text).filter (·.kind ≠ .blank) := by
  obtain ⟨tokens, same, whole, each⟩ := readFrom_tiles 0 text
  refine ⟨tokens, Nat.zero_add (byteLength text) ▸ same, whole, fun front token behind split => ?_, rfl⟩
  obtain ⟨start, stop, nonempty, kind, standalone⟩ := each front token behind split
  rw [Nat.zero_add] at start
  have text_eq : text = written front ++ (token.span.literal.toList ++ written behind) := by
    rw [← whole, split, written, flatMap_append, flatMap_cons]
    rfl
  refine ⟨start, ?_, ?_, ?_, kind, standalone⟩
  · rw [stop, start, text_eq]
    exact slice?_append ..
  · rw [stop, start, written, written, flatMap_append, byteLength_append, flatMap_singleton]
  · rw [stop]
    obtain ⟨c, cs, literal⟩ := exists_cons_of_ne_nil nonempty
    have := c.utf8Size_pos
    rw [literal, byteLength_cons]
    omega

end EmLang.Token
