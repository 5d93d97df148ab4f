import EmLang.Diagnostic.Excerpt
import EmLang.Proofs.ListingLines
import EmLang.Proofs.Tiling

/-!
How a diagnostic looks on a terminal. The marks stand below a line of the source, and they stand as
many columns to the right as there are bytes before the marked text: under it just if all of these
characters are of one byte each.
-/

namespace EmLang

open List

namespace Text

/-- Whether a control sequence goes on behind a character: it begins with an escape character and
ends with `m`. -/
def goesOn (inside : Bool) (c : Char) : Bool := if inside then c ≠ 'm' else c = '\x1b'

/-- What is seen of a text on a terminal, from inside a control sequence or from outside on. -/
def visible (inside : Bool) : List Char → List Char
  | [] => []
  | c :: cs => (if inside || goesOn inside c then [] else [c]) ++ visible (goesOn inside c) cs

lemma visible_append (inside : Bool) (l r : List Char) :
    visible inside (l ++ r) = visible inside l ++ visible (l.foldl goesOn inside) r := by
  induction l generalizing inside with
  | nil => rfl
  | cons c l ih => rw [cons_append, visible, visible, ih, append_assoc, foldl_cons]

/-- Of the text this is seen, and its control sequences are whole. -/
def Seen (text shown : List Char) : Prop := visible false text = shown ∧ text.foldl goesOn false = false

variable {l r shown shown' : List Char}

instance : Decidable (Seen l shown) := inferInstanceAs (Decidable (_ ∧ _))

lemma Seen.append (h : Seen l shown) (h' : Seen r shown') : Seen (l ++ r) (shown ++ shown') := by
  refine ⟨?_, ?_⟩
  · rw [visible_append, h.1, h.2, h'.1]
  · rw [foldl_append, h.2, h'.2]

lemma Seen.plain (plain : '\x1b' ∉ l) : Seen l l := by
  induction l with
  | nil => exact ⟨rfl, rfl⟩
  | cons c l ih =>
    have other : goesOn false c = false := decide_eq_false fun same => plain (same ▸ .head _)
    obtain ⟨here, behind⟩ := ih fun mem => plain (.tail _ mem)
    refine ⟨?_, ?_⟩
    · rw [visible, other, here]
      rfl
    · rw [foldl_cons, other, behind]

lemma byteLength_eq_length_iff (cs : List Char) : byteLength cs = cs.length ↔ ∀ c ∈ cs, c.utf8Size = 1 := by
  induction cs with
  | nil => exact iff_of_true rfl nofun
  | cons c cs ih =>
    have one := c.utf8Size_pos
    have more := Token.length_le_byteLength cs
    rw [byteLength_cons, length_cons, forall_mem_cons, ← ih]
    omega

end Text

/-- The character that marks are made of. -/
def Severity.mark : Severity → Char
  | .error => '^'
  | .warning => '~'

namespace Diagnostic

open Text Terminal

variable {src : Source} {d : Diagnostic} {text : String}

lemma seen_blanks (n : Nat) : Seen (replicate n ' ') (replicate n ' ') :=
  .plain fun mem => absurd (eq_of_mem_replicate mem) (by decide)

lemma seen_gutter (n : Nat) : Seen (gutter n).toList (replicate (n.repr.length + 1) ' ' ++ ['|', ' ']) := by
  show Seen (String.ofList (replicate (n.repr.length + 1) ' ') ++ blue ++ bold ++ "|" ++ plain ++
    usualColour ++ " ").toList _
  simp only [String.append_assoc, String.toList_append, String.toList_ofList]
  refine (seen_blanks _).append ?_
  decide

lemma seen_lineLabel (n : Nat) : Seen (lineLabel n).toList (n.repr.toList ++ [' ', '|', ' ']) := by
  show Seen (blue ++ bold ++ n.repr ++ " |" ++ plain ++ usualColour ++ " ").toList _
  have digits : Seen n.repr.toList n.repr.toList := .plain (Native.Listing.not_mem_repr (by decide) n)
  have front : Seen (blue ++ bold).toList [] := by decide
  have behind : Seen (" |" ++ (plain ++ (usualColour ++ " "))).toList [' ', '|', ' '] := by decide
  simp only [String.append_assoc, String.toList_append] at front behind ⊢
  exact front.append (digits.append behind)

variable (e : Excerpt)

/-- What is seen before the marks: the margin, and a space for every byte before the marked text. -/
def Excerpt.lead : List Char :=
  replicate (e.lineNumber.repr.length + 1) ' ' ++ ['|', ' '] ++ replicate (byteLength e.before) ' '

lemma Excerpt.length_lead_iff :
    e.lead.length = (visible false (lineLabel e.lineNumber).toList).length + e.before.length ↔
    ∀ c ∈ e.before, c.utf8Size = 1 := by
  rw [(seen_lineLabel _).1, ← byteLength_eq_length_iff, lead]
  simp only [length_append, length_replicate, length_cons, length_nil, String.length_toList]
  omega

lemma Excerpt.mark_not_mem_lead (severity : Severity) : severity.mark ∉ e.lead := by
  intro mem
  have among : severity.mark = ' ' ∨ severity.mark ∈ ['|', ' '] := by
    obtain mem | mem := mem_append.1 mem
    · exact (mem_append.1 mem).imp_left eq_of_mem_replicate
    · exact .inl (eq_of_mem_replicate mem)
  cases severity <;> revert among <;> decide

lemma Excerpt.seen_marks (severity : Severity)
    {on off : String} (hidden : Seen on.toList []) (hidden' : Seen off.toList []) :
    Seen (gutter e.lineNumber ++ e.indent ++ on ++ e.marks severity.mark ++ off).toList
    (e.lead ++ replicate (max 1 e.marked.length) severity.mark) := by
  have marks : Seen (e.marks severity.mark).toList (replicate (max 1 e.marked.length) severity.mark) := by
    rw [Excerpt.marks, String.toList_ofList]
    refine .plain fun mem => absurd (eq_of_mem_replicate mem) ?_
    cases severity <;> decide
  have indent : Seen e.indent.toList (replicate (byteLength e.before) ' ') := by
    rw [Excerpt.indent, String.toList_ofList]
    exact seen_blanks _
  have whole := ((((seen_gutter e.lineNumber).append indent).append hidden).append marks).append hidden'
  simp only [append_nil] at whole
  simp only [String.toList_append]
  exact whole

/-- **Where the marks stand.** Below the line with the marked text there is a mark for every
character of it, one if there is none. The marks begin in the column of the marked text if and only
if the characters that are shown before it are of one byte each. -/
theorem render_aligned_iff (shown : d.render src = .ok text) :
    ∃ (e : Excerpt) (head line below tail on off : String) (lead : List Char),
    excerpt src d.span = .ok e ∧ text = head ++ "\n" ++ line ++ "\n" ++ below ++ "\n" ++ tail ∧
    line = lineLabel e.lineNumber ++ String.ofList e.before ++ on ++ String.ofList e.marked ++
    off ++ String.ofList e.after ∧ Seen on.toList [] ∧ Seen off.toList [] ∧
    Seen below.toList (lead ++ replicate (max 1 e.marked.length) d.severity.mark) ∧
    d.severity.mark ∉ lead ∧ (lead.length = (visible false (lineLabel e.lineNumber).toList).length +
      e.before.length ↔ ∀ c ∈ e.before, c.utf8Size = 1) := by
  have same (s : String) : toString s = s := rfl
  unfold render at shown
  split at shown
  · next severe =>
    obtain ⟨e, taken, shown⟩ := Lir.ok_of_bind.1 shown
    cases shown
    rw [severe]
    refine ⟨e, bold ++ red ++ "error" ++ usualColour ++ ": " ++ d.brief ++ plain ++
      "\n" ++ gutter e.lineNumber, _, gutter e.lineNumber ++ e.indent ++ "" ++ e.marks '^' ++ "",
      gutter e.lineNumber ++ e.indent ++ "+-- " ++ d.full ++ " (" ++ toString e.lineNumber ++ ":" ++
      toString (e.column + 1) ++ ")\n",
      red, usualColour, e.lead, taken, ?_, rfl,
      by decide, by decide, ?_, e.mark_not_mem_lead .error, e.length_lead_iff⟩
    · simp only [same, String.append_assoc, String.empty_append]
    · exact e.seen_marks .error (by decide) (by decide)
  · next mild =>
    obtain ⟨e, taken, shown⟩ := Lir.ok_of_bind.1 shown
    cases shown
    rw [mild]
    refine ⟨e, bold ++ yellow ++
      "warning" ++ usualColour ++ ": " ++ d.full ++ plain ++ "\n" ++ gutter e.lineNumber, _,
      gutter e.lineNumber ++ e.indent ++ yellow ++ e.marks '~' ++ usualColour, "", "", "", e.lead,
      taken, ?_, rfl, by decide, by decide, ?_, e.mark_not_mem_lead .warning, e.length_lead_iff⟩
    · simp only [same, String.append_assoc, String.append_empty]
    · exact e.seen_marks .warning (by decide) (by decide)

/-- In `"é" + y` the letter in quotes has two bytes, and the mark for `y` stands too far to the
right. -/
theorem render_aligned_shifted : ∃ (text : String) (e : Excerpt),
    render (.ofString "\"é\" + y") ⟨.undeclaredVariable "y", 7, 8, "y"⟩ = .ok text ∧
    e.marked = ['y'] ∧ ∃ (head line below tail : String) (lead : List Char), text =
    head ++ "\n" ++ line ++ "\n" ++ below ++ "\n" ++ tail ∧ Seen below.toList (lead ++ ['^']) ∧
    lead.length ≠ (visible false (lineLabel e.lineNumber).toList).length + e.before.length := by
  let e : Excerpt := ⟨1, 7, ['"', 'é', '"', ' ', '+', ' '], ['y'], []⟩
  have taken : excerpt (.ofString "\"é\" + y") ⟨7, 8, "y"⟩ = .ok e := by rfl
  obtain ⟨text, shown⟩ : ∃ text, render (.ofString "\"é\" + y") ⟨.undeclaredVariable "y", 7, 8,
    "y"⟩ = .ok text := ⟨_, Lir.ok_of_bind.2 ⟨e, taken, rfl⟩⟩
  obtain ⟨_, head, line, below, tail, on, off, lead, same, whole, -, -, -, seen, -, aligned⟩ :=
    render_aligned_iff shown
  obtain rfl := Except.ok.inj (taken.symm.trans same)
  exact ⟨text, e, shown, rfl, head, line, below, tail, lead, whole, seen,
    fun level => absurd (aligned.1 level 'é' (by decide)) (by decide)⟩

end Diagnostic

end EmLang
