import EmLang.Token.Lexer
import Mathlib.Data.List.TakeWhile
import Mathlib.Tactic.Common
import Mathlib.Tactic.SplitIfs

/-!
How names are spelled: with letters, digits and underscores only. So a name holds none of the
characters that mean something to an assembler.
-/

namespace EmLang.Token

open String

variable {c : Char}

/-- A text written down in two parts, by its characters. -/
lemma toList_ofList_append (l r : List Char) : (ofList l ++ ofList r).toList = l ++ r := by
  rw [toList_append, toList_ofList, toList_ofList]

/-- The text is a name. -/
structure IsName (text : String) : Prop where
  nonempty : text.toList ≠ []
  parts : ∀ c ∈ text.toList, isIdentifierPart c = true

/-- A character that is neither a letter nor a digit nor an underscore is in no name. -/
lemma IsName.not_mem {text : String} (h : IsName text) (other : isIdentifierPart c = false) :
    c ∉ text.toList := by
  intro mem
  rw [h.parts c mem] at other
  cases other

lemma isIdentifierPart_of_start (h : isIdentifierStart c = true) : isIdentifierPart c = true := by
  unfold isIdentifierStart at h
  unfold isIdentifierPart Text.isAlphanumeric
  simp only [Bool.or_eq_true] at h ⊢
  exact h.imp_left .inl

lemma take_runLength (p : Char → Bool) (cs : List Char) : cs.take (runLength p cs) = cs.takeWhile p := by
  have begins : cs.takeWhile p <+: cs := List.takeWhile_prefix p
  exact (List.prefix_iff_eq_take.1 begins).symm

/-- Of two signs, one of which begins with the other, one is read. -/
lemma orLonger_of {long short : TokenKind} {P : TokenKind → Prop} (h : P long) (h' : P short)
    (next : Char) (cs : List Char) : P (orLonger next long short cs).1 := by
  rcases cs with _ | ⟨c, cs⟩
  · exact h'
  · rw [orLonger]
    split_ifs
    · exact h
    · exact h'

lemma sign_ne (c : Char) (cs : List Char) : (sign c cs).1 ≠ .identifier := by
  unfold sign
  split
  all_goals first | exact orLonger_of (P := (· ≠ .identifier)) (by simp) (by simp) _ _ | simp
  unfold slashRest
  split <;> simp

end EmLang.Token
