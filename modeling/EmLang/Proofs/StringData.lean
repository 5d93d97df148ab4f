import EmLang.Eval
import EmLang.Native.Listing
import EmLang.Native.Support
import Mathlib.Data.List.TakeWhile
import Mathlib.Tactic.Common
import Mathlib.Tactic.SplitIfs

/-!
Strings on their way through an assembler. What stands between the quotes of a string directive is
read back by an assembler to the bytes of the text, whatever the text is. The support routine that
prints it gets the address of these bytes, and for it they end with the first that is 0. So a text
without a NUL is printed as the evaluator prints it, and one with a NUL is cut there.
-/

namespace EmLang.Native

open List Listing UInt8

variable {a b : String} {c : Char}

def utf8 (text : String) : List UInt8 := text.toUTF8.data.toList

lemma utf8_ofList (cs : List Char) : utf8 (String.ofList cs) = cs.flatMap String.utf8EncodeChar := by
  show (String.ofList cs).toByteArray.data.toList = _
  simp [List.utf8Encode]

lemma utf8_eq (text : String) : utf8 text = text.toList.flatMap String.utf8EncodeChar := by
  conv_lhs => rw [← String.ofList_toList (s := text)]
  exact utf8_ofList _

lemma utf8_injective (h : utf8 a = utf8 b) : a = b :=
  String.toByteArray_inj.1 (ByteArray.ext (Array.toList_inj.1 h))

lemma utf8_append (a b : String) : utf8 (a ++ b) = utf8 a ++ utf8 b := by
  simp [utf8_eq, String.toList_append]

lemma escapeByte_printable (b : UInt8) : ∀ c ∈ escapeByte b, ' ' ≤ c ∧ c ≤ '~' := by
  have octal (n : Nat) : ' ' ≤ octalDigit n ∧ octalDigit n ≤ '~' := by
    have digit : ∀ m < 8, ' ' ≤ Char.ofNat ('0'.toNat + m) ∧ Char.ofNat ('0'.toNat + m) ≤ '~' := by decide
    exact digit (n % 8) (Nat.mod_lt n (by decide))
  have visible : ∀ n ≤ 0x7e, 0x20 ≤ n → ' ' ≤ Char.ofNat n ∧ Char.ofNat n ≤ '~' := by decide
  unfold escapeByte
  dsimp only
  split_ifs with quote backslash newline tab printable
  iterate 4 exact forall_mem_cons.2 ⟨by decide, forall_mem_singleton.2 (by decide)⟩
  · simpa using visible _ printable.2 printable.1
  · simp [octal]

/-- In an escaped text stand only characters of ASCII that can be printed. -/
lemma escape_printable (cs : List Char) : ∀ c ∈ escape cs, ' ' ≤ c ∧ c ≤ '~' := by
  intro c mem
  obtain ⟨b, -, mem⟩ := mem_flatMap.1 mem
  exact escapeByte_printable b c mem

/-! ### How an assembler reads a string -/

namespace Assembler

variable {bytes : List UInt8}

/-- Where an assembler is in a string. -/
inductive Place where
  | plain
  /-- Behind a backslash. -/
  | escaped
  /-- Behind a backslash and digits with this value. One more digit may follow, or two. -/
  | octal (value : Nat) (last : Bool)
  /-- Behind a backslash, an `x` and digits with this value. Any number of digits may follow. -/
  | hexadecimal (value : Nat)
  /-- Behind the closing quote. -/
  | closed
deriving DecidableEq

variable {place place' : Place}

/-- The value of a digit. In octal numbers 8 and 9 are taken as digits as well. -/
def digitValue (c : Char) : Nat := c.toNat - '0'.toNat

def hexadecimalValue? (c : Char) : Option Nat :=
  if c.isDigit then some (digitValue c)
  else if 'a' ≤ c ∧ c ≤ 'f' then some (c.toNat - 'a'.toNat + 10)
  else if 'A' ≤ c ∧ c ≤ 'F' then some (c.toNat - 'A'.toNat + 10)
  else none

/-- What is read with a character that is behind no backslash. -/
def readPlain (c : Char) : List UInt8 × Place :=
  if c = '"' then ([], .closed)
  else if c = '\\' then ([], .escaped)
  else (String.utf8EncodeChar c, .plain)

/-- What is read with the character behind a backslash. One that has no meaning there stands for
itself. -/
def readEscaped (c : Char) : List UInt8 × Place :=
  if c = 'b' then ([8], .plain)
  else if c = 't' then ([9], .plain)
  else if c = 'n' then ([10], .plain)
  else if c = 'f' then ([12], .plain)
  else if c = 'r' then ([13], .plain)
  else if c = 'x' ∨ c = 'X' then ([], .hexadecimal 0)
  else if c.isDigit then ([], .octal (digitValue c) false)
  else (String.utf8EncodeChar c, .plain)

/-- The bytes that are read with a character, and where the assembler is then. A number gives the
lowest byte of its value. -/
def next : Place → Char → List UInt8 × Place
  | .plain, c => readPlain c
  | .escaped, c => readEscaped c
  | .octal value last, c =>
    if c.isDigit then
      let value := 8 * value + digitValue c
      if last then ([ofNat value], .plain) else ([], .octal value true)
    else (ofNat value :: (readPlain c).1, (readPlain c).2)
  | .hexadecimal value, c =>
    match hexadecimalValue? c with
    | some digit => ([], .hexadecimal (16 * value + digit))
    | none => (ofNat value :: (readPlain c).1, (readPlain c).2)
  | .closed, _ => ([], .closed)

/-- Reads up to the closing quote: the bytes and what is behind the quote. -/
def read (place : Place) : List Char → Option (List UInt8 × List Char)
  | [] => if place = .closed then some ([], []) else none
  | c :: cs =>
    if place = .closed then some ([], c :: cs)
    else (read (next place c).2 cs).map fun (bytes, rest) => ((next place c).1 ++ bytes, rest)

/-- What a directive for a string with a NUL behind it puts into memory, from its operand. -/
def asciz? : List Char → Option (List UInt8)
  | '"' :: cs =>
    match read .plain cs with
    | some (bytes, []) => some (bytes ++ [0])
    | _ => none
  | _ => none

/-! ### Reading what was escaped -/

lemma read_cons (step : next place c = (bytes, place')) (inside : place ≠ .closed) (cs : List Char) :
    read place (c :: cs) = (read place' cs).map fun (more, rest) => (bytes ++ more, rest) := by
  rw [read, if_neg inside, step]

lemma read_backslash (cs : List Char) : read .plain ('\\' :: cs) = read .escaped cs := by
  exact Option.map_id'

lemma isDigit_octalDigit (n : Nat) : (octalDigit n).isDigit = true := by
  have all : ∀ k < 8, (Char.ofNat ('0'.toNat + k)).isDigit = true := by decide
  exact all _ (Nat.mod_lt _ (by decide))

lemma digitValue_octalDigit (n : Nat) : digitValue (octalDigit n) = n % 8 := by
  have all : ∀ k < 8, digitValue (Char.ofNat ('0'.toNat + k)) = k := by decide
  exact all _ (Nat.mod_lt _ (by decide))

/-- Three octal digits are read as one byte, whatever follows them. -/
lemma read_octal (a b c : Nat) (cs : List Char) :
    read .plain ('\\' :: octalDigit a :: octalDigit b :: octalDigit c :: cs) = (read .plain cs).map
    fun (more, rest) => (ofNat (8 * (8 * (a % 8) + b % 8) + c % 8) :: more, rest) := by
  have first : next .escaped (octalDigit a) = ([], .octal (a % 8) false) := by
    have digit := isDigit_octalDigit a
    have other : ∀ c : Char, c.isDigit = false → octalDigit a ≠ c := by
      rintro c no rfl
      rw [no] at digit
      cases digit
    rw [next, readEscaped, if_neg (other _ (by decide)), if_neg (other _ (by decide)), if_neg
      (other _ (by decide)), if_neg (other _ (by decide)), if_neg (other _ (by decide)), if_neg
      (not_or.2 ⟨other _ (by decide), other _ (by decide)⟩), if_pos digit, digitValue_octalDigit]
  have second : next (.octal (a % 8) false) (octalDigit b) = ([], .octal (8 * (a % 8) + b % 8) true) := by
    simp [next, isDigit_octalDigit, digitValue_octalDigit]
  have third : next (.octal (8 * (a % 8) + b % 8) true) (octalDigit c) =
      ([ofNat (8 * (8 * (a % 8) + b % 8) + c % 8)], .plain) := by
    simp [next, isDigit_octalDigit, digitValue_octalDigit]
  rw [read_backslash, read_cons first nofun, read_cons second nofun, read_cons third nofun]
  simp [Option.map_map, Function.comp_def]

/-- A character that is one byte and neither a quote nor a backslash is read as this byte. -/
lemma next_plain {n : Nat} (small : n ≤ 0x7e) (quote : n ≠ '"'.toNat) (backslash : n ≠ '\\'.toNat) :
    next .plain (Char.ofNat n) = ([ofNat n], .plain) := by
  have valid : (Char.ofNat n).toNat = n := by
    have : n.isValidChar := .inl (by omega)
    rw [Char.ofNat, dif_pos this]
    exact UInt32.toNat_ofNatLT
  have other : ∀ c : Char, n ≠ c.toNat → Char.ofNat n ≠ c := by
    rintro c ne rfl
    exact ne valid.symm
  have encoded : String.utf8EncodeChar (Char.ofNat n) = [ofNat n] := by
    have value : (Char.ofNat n).val.toNat = n := valid
    rw [String.utf8EncodeChar, value]
    exact if_pos (by omega)
  rw [next, readPlain, if_neg (other _ quote), if_neg (other _ backslash), encoded]

lemma read_escapeByte (b : UInt8) (cs : List Char) :
    read .plain (escapeByte b ++ cs) = (read .plain cs).map fun (more, rest) => (b :: more, rest) := by
  have self : UInt8.ofNat b.toNat = b := UInt8.ofNat_toNat
  have small : b.toNat < 256 := b.toNat_lt
  have pair : ∀ {c : Char}, next .escaped c = ([b], .plain) →
      read .plain ('\\' :: c :: cs) = (read .plain cs).map fun (more, rest) => (b :: more, rest) := by
    intro c step
    rw [read_backslash, read_cons step nofun]
    rfl
  have byte {n : Nat} (h : b.toNat = n) : b = ofNat n := h ▸ self.symm
  unfold escapeByte
  dsimp only
  split_ifs with quote backslash newline tab printable
  · exact pair (by rw [byte quote]; rfl)
  · exact pair (by rw [byte backslash]; rfl)
  · exact pair (by rw [byte newline]; rfl)
  · exact pair (by rw [byte tab]; rfl)
  · rw [singleton_append, read_cons (next_plain printable.2 quote backslash) nofun, self]
    rfl
  · have whole : 8 * (8 * (b.toNat / 64 % 8) + b.toNat / 8 % 8) + b.toNat % 8 = b.toNat := by omega
    rw [cons_append, cons_append, cons_append, singleton_append, read_octal, whole, self]

/-- An escaped text is read back up to its closing quote. -/
lemma read_escape (cs rest : List Char) :
    read .plain (escape cs ++ '"' :: rest) = some (cs.flatMap String.utf8EncodeChar, rest) := by
  unfold escape
  generalize cs.flatMap String.utf8EncodeChar = bytes
  induction bytes with
  | nil =>
    cases rest <;> rfl
  | cons b bytes ih => rw [flatMap_cons, append_assoc, read_escapeByte, ih, Option.map_some]

/-- What is read is read whatever follows. -/
lemma read_append {cs rest : List Char} (h : read place cs = some (bytes, rest))
    (more : List Char) : read place (cs ++ more) = some (bytes, rest ++ more) := by
  induction cs generalizing place bytes with
  | nil =>
    rw [read] at h
    split_ifs at h with closed
    cases h
    cases more <;> simp [read, closed]
  | cons c cs ih =>
    rw [cons_append]
    rw [read] at h ⊢
    split_ifs at h ⊢ with closed
    · cases h
      rfl
    · obtain ⟨⟨bytes', rest'⟩, first, same⟩ := Option.map_eq_some_iff.1 h
      cases same
      rw [ih first]
      rfl

/-- An escaped text does not close its quotes. -/
lemma read_escape_unclosed (cs : List Char) : read .plain (escape cs) = none := by
  cases h : read .plain (escape cs) with
  | none => rfl
  | some found =>
    have whole := read_append h ['"']
    rw [read_escape] at whole
    simp at whole

lemma escape_injective (h : escape a.toList = escape b.toList) : a = b := by
  have first := read_escape a.toList []
  rw [h, read_escape b.toList [], ← utf8_eq, ← utf8_eq] at first
  simp only [Option.some.injEq, Prod.mk.injEq, and_true] at first
  exact (utf8_injective first).symm

/-- In memory stand the bytes of the text and a 0. -/
lemma asciz?_escape (text : String) :
    asciz? ('"' :: escape text.toList ++ ['"']) = some (utf8 text ++ [0]) := by
  rw [cons_append, asciz?, read_escape, utf8_eq]

end Assembler

/-! ### What is printed -/

namespace Support

/-- The bytes that are printed for the text at the start of the memory. -/
def writeStr (memory : List UInt8) : List UInt8 := memory.takeWhile (· ≠ 0) ++ utf8 "\n"

lemma zero_mem_utf8EncodeChar : 0 ∈ String.utf8EncodeChar c ↔ c = '\x00' := by
  constructor
  · have bytes : ∀ n, n ≠ 0 → n < 256 → (0 : UInt8) ≠ ofNat n := by
      intro n ne lt h
      have same := congrArg toNat h
      rw [toNat_ofNat_of_lt' lt] at same
      exact ne same.symm
    unfold String.utf8EncodeChar
    dsimp only
    split_ifs with one two three
    · intro h
      have zero : c.val.toNat = 0 := by
        by_contra ne
        exact bytes _ ne (by omega) (mem_singleton.1 h)
      exact Char.ext (UInt32.toNat_inj.1 zero)
    all_goals simp only [mem_cons, not_mem_nil, or_false]
    · rintro (h | h) <;> exact absurd h (bytes _ (by omega) (by omega))
    · rintro (h | h | h) <;> exact absurd h (bytes _ (by omega) (by omega))
    · rintro (h | h | h | h) <;> exact absurd h (bytes _ (by omega) (by omega))
  · rintro rfl
    decide

/-- The bytes of a text end at its first NUL. -/
lemma takeWhile_utf8 (cs : List Char) (rest : List UInt8) : (cs.flatMap String.utf8EncodeChar ++
      0 :: rest).takeWhile (· ≠ 0) = (cs.takeWhile (· ≠ '\x00')).flatMap String.utf8EncodeChar := by
  induction cs with
  | nil => rfl
  | cons c cs ih =>
    by_cases zero : c = '\x00'
    · subst zero
      rfl
    · have all : ∀ b ∈ String.utf8EncodeChar c, decide (b ≠ 0) = true := by
        intro b mem
        rw [decide_eq_true_iff]
        rintro rfl
        exact zero (zero_mem_utf8EncodeChar.1 mem)
      rw [flatMap_cons, append_assoc, takeWhile_append_of_pos all, ih,
        takeWhile_cons_of_pos (by simpa using zero), flatMap_cons]

/-- A text in memory is printed as it is read from there. -/
lemma writeStr_utf8 (text : String) : writeStr (utf8 text ++ [0]) = utf8 (printStr (some text)) := by
  rw [writeStr, utf8_eq text, takeWhile_utf8, ← utf8_ofList, ← utf8_append]
  rfl

lemma stored_eq_iff {text : String} : stored text = text ↔ '\x00' ∉ text.toList := by
  rw [stored, ← String.toList_inj, String.toList_ofList, takeWhile_eq_self_iff]
  constructor
  · intro all mem
    simpa using all _ mem
  · intro none c mem
    rw [decide_eq_true_iff]
    rintro rfl
    exact none mem

end Support

end EmLang.Native

namespace EmLang.Eval

open Native

/-- Printing a text adds it and the end of the line to what was printed. -/
lemma printed_push (s : State) (v : String) :
    State.printed { s with output := s.output ++ [Value.string v] } = s.printed ++ v ++ "\n" := by
  simp [State.printed, Value.text]

/-- **Literal strings in memory.** The operand of a string directive puts the bytes of the text and
a 0 into memory, and the support routine that gets its address prints the text up to its first NUL.
The evaluator prints all of it, so the two print the same exactly when there is no NUL in the
text. -/
theorem print_text_alike (v : String) (env : Env) (s : State) :
    ∃ memory t, Assembler.asciz? ('"' :: Listing.escape v.toList ++ ['"']) = some memory ∧
      memory = utf8 v ++ [0] ∧
      (callBuiltin env .print [.string v]).run.run s = (.ok .void, t) ∧
      utf8 t.printed = utf8 s.printed ++ (utf8 v ++ utf8 "\n") ∧
      Support.writeStr memory = utf8 (Support.printStr (some v)) ∧
      Support.writeStr memory = utf8 (String.ofList (v.toList.takeWhile (· ≠ '\x00'))) ++ utf8 "\n" ∧
      (utf8 t.printed = utf8 s.printed ++ Support.writeStr memory ↔ '\x00' ∉ v.toList) := by
  have printed : utf8 (State.printed { s with output := s.output ++ [Value.string v] }) =
      utf8 s.printed ++ (utf8 v ++ utf8 "\n") := by
    rw [printed_push, utf8_append, utf8_append, List.append_assoc]
  have written : Support.writeStr (utf8 v ++ [0]) = utf8 (Support.stored v) ++ utf8 "\n" := by
    rw [Support.writeStr_utf8, Support.printStr, utf8_append]
  refine ⟨_, _, Assembler.asciz?_escape v, rfl, rfl, printed, Support.writeStr_utf8 v, written, ?_⟩
  rw [printed, written, List.append_cancel_left_eq, List.append_cancel_right_eq, ← Support.stored_eq_iff]
  constructor
  · intro same
    exact (utf8_injective same).symm
  · intro same
    rw [same]

/-- The literal has a NUL in it, and of its three characters one is printed. -/
theorem nul_literal_cut :
    (Token.tokenize "\"a\\0b\"".toList).map (·.kind) = [.string "a\x00b", .eof] ∧
    (Assembler.asciz? ('"' :: Listing.escape "a\x00b".toList ++ ['"'])).map Support.writeStr =
    some (utf8 "a\n") ∧ utf8 "a\n" ≠ utf8 "a\x00b" ++ utf8 "\n" := by
  decide +kernel

end EmLang.Eval
