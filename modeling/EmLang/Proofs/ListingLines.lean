import EmLang.Proofs.Listings
import EmLang.Proofs.StringData

/-!
Listings line by line. The labels that a listing defines are the names of the functions and labels
of strings, which begin with a dot; and it calls what the code of the functions calls, in that
order.
-/

namespace EmLang.Native.Listing

open Lir List Lowering

variable {texts : List String} {listing s t name text : String} {α ε : Type} {as : List α}
  {act : α → Except ε String} {lir : Lir} {g : Nat} {f : Lir.Function}

/-! ### Labels and calls -/

/-- The label that a line defines. Only labels begin at the margin. -/
def label? (line : List Char) : Option (List Char) :=
  if line.head? ≠ some ' ' ∧ line.getLast? = some ':' then some line.dropLast else none

/-- The operand of a line with a call. -/
def callee? (line : List Char) : Option (List Char) :=
  if "    call ".toList.isPrefixOf line then some (line.drop 9) else none

def lines (listing : String) : List (List Char) := listing.toList.splitOn '\n'

def labels (listing : String) : List (List Char) := (lines listing).filterMap label?

def calls (listing : String) : List (List Char) := (lines listing).filterMap callee?

def calleeText (callee : String × Bool) : List Char := callee.1.toList ++ if callee.2 then "@PLT".toList else []

/-- The text is made of whole lines, with these labels and these calls. -/
def Shows (text : List Char) (labels calls : List (List Char)) : Prop :=
  ∃ ls : List (List Char), text = ls.flatMap (· ++ ['\n']) ∧ (∀ l ∈ ls, '\n' ∉ l) ∧
    ls.filterMap label? = labels ∧ ls.filterMap callee? = calls

lemma splitOn_whole {ls : List (List Char)} (whole : ∀ l ∈ ls, '\n' ∉ l) :
    (ls.flatMap (· ++ ['\n'])).splitOn '\n' = ls ++ [[]] := by
  induction ls with
  | nil => rfl
  | cons l ls ih =>
    rw [forall_mem_cons] at whole
    rw [flatMap_cons, append_assoc, singleton_append, cons_append, ← ih whole.2]
    have free c (hc : c ∈ l) : (c == '\n') = false := beq_eq_false_iff_ne.2 fun same => whole.1 (same ▸ hc)
    exact splitOnP_append_cons_of_forall_mem free _ rfl _

namespace Shows

variable {text text' : List Char} {labels labels' calls calls' : List (List Char)}
  {calls : α → List (List Char)}

lemma nil : Shows [] [] [] := ⟨[], rfl, nofun, rfl, rfl⟩

lemma append {text : List Char}
    {calls : List (List Char)} (h : Shows text labels calls) (h' : Shows text' labels' calls') :
    Shows (text ++ text') (labels ++ labels') (calls ++ calls') := by
  obtain ⟨ls, rfl, whole, rfl, rfl⟩ := h
  obtain ⟨ls', rfl, whole', rfl, rfl⟩ := h'
  exact ⟨ls ++ ls', flatMap_append.symm, forall_mem_append.2 ⟨whole, whole'⟩, filterMap_append,
    filterMap_append⟩

lemma line {line : List Char} (whole : '\n' ∉ line) :
    Shows (line ++ ['\n']) (label? line).toList (callee? line).toList := by
  refine ⟨[line], (append_nil _).symm, forall_mem_singleton.2 whole, ?_, ?_⟩
  · cases h : label? line <;> simp [h]
  · cases h : callee? line <;> simp [h]

lemma indented {line : List Char} (whole : '\n' ∉ line) :
    Shows ("    ".toList ++ line ++ ['\n']) [] (callee? ("    ".toList ++ line)).toList :=
  .line (by simpa using whole)

lemma join {text : α → String}
    {labels : α → List (List Char)} (each : ∀ a ∈ as, Shows (text a).toList (labels a) (calls a)) :
    Shows (String.join (as.map text)).toList (as.flatMap labels) (as.flatMap calls) := by
  rw [String.toList_join]
  induction as with
  | nil => exact nil
  | cons a as ih =>
    rw [forall_mem_cons] at each
    exact each.1.append (ih each.2)

lemma mapM {labels : α → List (List Char)} (written : as.mapM act = .ok texts)
    (each : ∀ a ∈ as, ∀ text, act a = .ok text → Shows text.toList (labels a) (calls a)) :
    Shows (String.join texts).toList (as.flatMap labels) (as.flatMap calls) := by
  rw [String.toList_join]
  replace written := forall₂_of_mapM written
  induction written with
  | nil => exact nil
  | cons head _ ih =>
    rw [forall_mem_cons] at each
    exact (each.1 _ head).append (ih each.2)

lemma mapM_calls (written : as.mapM act = .ok texts) (each : ∀ a ∈ as, ∀ text, act a = .ok text →
      Shows text.toList [] (calls a)) : Shows (String.join texts).toList [] (as.flatMap calls) := by
  have shown := mapM written each
  rwa [flatMap_eq_nil_iff.2 fun _ _ => rfl] at shown

lemma lines_eq {calls : List (List Char)} (h : Shows listing.toList labels calls) :
    Listing.labels listing = labels ∧ Listing.calls listing = calls := by
  obtain ⟨ls, text, whole, rfl, rfl⟩ := h
  rw [Listing.labels, Listing.calls, lines, text, splitOn_whole whole, filterMap_append, filterMap_append]
  exact ⟨append_nil _, append_nil _⟩

end Shows

/-! ### Texts of one line -/

/-- The text stays on one line. -/
def OneLine (text : String) : Prop := '\n' ∉ text.toList

instance (text : String) : Decidable (OneLine text) := inferInstanceAs (Decidable ('\n' ∉ text.toList))

@[simp] lemma oneLine_append : OneLine (s ++ t) ↔ OneLine s ∧ OneLine t := by
  simp only [OneLine, String.toList_append, mem_append, not_or]

@[simp] lemma oneLine_toString (s : String) : OneLine (toString s) ↔ OneLine s := Iff.rfl

lemma not_mem_repr {c : Char} (other : c.isDigit = false) (n : Nat) : c ∉ n.repr.toList := by
  intro mem
  have digit := Nat.isDigit_of_mem_toDigits (by decide) (by decide) (String.toList_ofList ▸ mem)
  cases other.symm.trans digit

@[simp] lemma oneLine_nat (n : Nat) : OneLine n.repr := not_mem_repr (by decide) n

@[simp] lemma oneLine_int (n : Int) : OneLine n.repr := by
  cases n with
  | ofNat n => exact oneLine_nat n
  | negSucc n => exact oneLine_append.2 ⟨by decide, oneLine_nat (n + 1)⟩

lemma oneLine_mnemonic (op : Opcode) : OneLine op.mnemonic := by
  cases op with
  | jcc condition => cases condition <;> decide
  | _ => decide

@[simp] lemma oneLine_name (r : Register) : OneLine r.name := by cases r <;> decide

lemma oneLine_intercalate (all : ∀ text ∈ texts, OneLine text) : OneLine (", ".intercalate texts) := by
  induction texts with
  | nil => decide
  | cons text texts ih =>
    rw [forall_mem_cons] at all
    rcases texts with _ | ⟨next, texts⟩
    · simpa using all.1
    · rw [String.intercalate_cons_cons]
      exact oneLine_append.2 ⟨oneLine_append.2 ⟨all.1, by decide⟩, ih all.2⟩

lemma operandText_oneLine {o : Operand} (written : operandText lir g f o = .ok text)
    (symbols : ∀ symbol arguments returnType isExternal,
      o = .callee symbol arguments returnType isExternal → OneLine symbol) : OneLine text := by
  unfold operandText at written
  split at written
  · cases written
    exact oneLine_name _
  · cases written
    split_ifs <;> simp +decide
  · cases written
    exact oneLine_int _
  · cases written
    simp +decide
  · split at written
    · cases written
    · split at written
      · cases written
        simp +decide [blockLabel]
      · cases written
  · cases written
    have symbol := symbols _ _ _ _ rfl
    split_ifs <;> simp +decide [symbol]
  all_goals cases written

/-! ### Instructions -/

lemma callees_eq_flatMap (is : List Instr) : callees is = is.flatMap fun i => callees [i] := by
  induction is with
  | nil => rfl
  | cons i is ih => rw [flatMap_cons, ← ih, ← callees_append, singleton_append]

lemma callee?_mnemonic {op : Opcode} (other : op ≠ .call) (rest : List Char) :
    callee? ("    ".toList ++ (op.mnemonic.toList ++ rest)) = none := by
  cases op with
  | call => exact absurd rfl other
  | jcc condition => cases condition <;> rfl
  | _ => rfl

lemma instrText_shows {i : Instr} (printable : Printable i)
    (plain : ∀ callee ∈ callees [i], OneLine callee.1) (written : instrText lir g f i = .ok text) :
    Shows ("    " ++ text ++ "\n").toList [] ((callees [i]).map calleeText) := by
  obtain ⟨symbol, returnType, isExternal, rfl⟩ | ⟨other, unnamed⟩ := printable.calls
  · have whole : OneLine symbol := plain (symbol, isExternal) (mem_singleton_self _)
    have text_eq : text.toList = "call ".toList ++ calleeText (symbol, isExternal) := by
      obtain rfl : "call" ++ " " ++ ", ".intercalate [if isExternal then symbol ++
        "@PLT" else symbol] = text := Except.ok.inj written
      cases isExternal <;> simp [calleeText]
    rw [String.toList_append, String.toList_append, text_eq]
    refine .indented ?_
    rw [OneLine] at whole
    cases isExternal <;> simpa [calleeText] using whole
  · rw [callees_of_forall (forall_mem_singleton.2 other)]
    rw [instrText, if_neg (not_or.2 printable.opcode)] at written
    cases found : i.operands.mapM (operandText lir g f) with
    | error =>
      rw [found] at written
      cases written
    | ok texts =>
      have whole text (mem : text ∈ texts) : OneLine text := by
        obtain ⟨o, ho, here⟩ := Resolution.exists_of_forall₂ (forall₂_of_mapM found) mem
        exact operandText_oneLine here fun _ _ _ _ same => absurd same (unnamed o ho _ _ _ _)
      rw [found] at written
      obtain ⟨rest, text_eq, rest_oneLine⟩ : ∃ rest, text = i.opcode.mnemonic ++ rest ∧ OneLine rest := by
        rcases texts with _ | ⟨text', texts⟩
        · exact ⟨"", by rw [String.append_empty]; exact (Except.ok.inj written).symm, by decide⟩
        · refine ⟨" " ++ ", ".intercalate (text' :: texts), ?_,
            oneLine_append.2 ⟨by decide, oneLine_intercalate whole⟩⟩
          rw [← String.append_assoc]
          exact (Except.ok.inj written).symm
      have shown := Shows.indented (oneLine_append.2 ⟨oneLine_mnemonic i.opcode, rest_oneLine⟩)
      rw [String.toList_append, callee?_mnemonic other] at shown
      rw [String.toList_append, String.toList_append, text_eq, String.toList_append]
      exact shown

lemma blockText_shows {b : BlockId} {block : Block} (here : lir.blocks[b]? = some block)
    (listed : Listed block) (plain : ∀ callee ∈ callees block.instructions, OneLine callee.1)
    (written : blockText lir g f b = .ok text) :
    Shows text.toList [] ((callees block.instructions).map calleeText) := by
  obtain ⟨position, placed⟩ := listed.placed
  simp only [blockText, getBlock, here, bind, Except.bind, placed, listed.unmarked,
    Bool.false_eq_true, if_false] at written
  split at written
  · cases written
  · rename_i ls found
    cases written
    have shown : Shows (String.join ls).toList [] (block.instructions.flatMap fun i =>
        (callees [i]).map calleeText) := by
      refine .mapM_calls found fun i hi line written => ?_
      split at written
      · cases written
      · rename_i text here
        cases written
        rw [callees_eq_flatMap] at plain
        exact instrText_shows (listed.printable i hi) (fun c hc => plain c (mem_flatMap.2 ⟨i, hi, hc⟩)) here
    rw [← map_flatMap, ← callees_eq_flatMap] at shown
    simpa using shown

/-! ### Labels and directives -/

lemma Shows.directive {line : String} (whole : OneLine line) :
    Shows ("    ." ++ line ++ "\n").toList [] [] := by
  have shown := Shows.indented (oneLine_append.2 ⟨show OneLine "." by decide, whole⟩)
  rw [String.toList_append] at shown
  rw [String.toList_append, String.toList_append]
  exact shown

lemma Shows.label (nonempty : name.toList ≠ []) (solid : ' ' ∉ name.toList) (whole : OneLine name) :
    Shows (name ++ ":\n").toList [name.toList] [] := by
  have shown := Shows.line (oneLine_append.2 ⟨whole, show OneLine ":" by decide⟩)
  obtain ⟨c, cs, start⟩ := exists_cons_of_ne_nil nonempty
  have first : c ≠ ' ' := by
    rintro rfl
    exact solid (start ▸ mem_cons_self)
  have label : label? (name.toList ++ [':']) = some name.toList := by
    rw [label?, if_pos ⟨by simp [start, first], getLast?_concat⟩, dropLast_concat]
  have callee : callee? (name.toList ++ [':']) = none := by
    rw [callee?, start]
    simp [isPrefixOf, first.symm]
  rw [String.toList_append, show ":".toList = [':'] from rfl, label, callee, append_assoc] at shown
  rw [String.toList_append]
  exact shown

lemma functionHead_shows (isName : Token.IsName name) :
    Shows
      (s!"\n    .globl {name}\n    .type {name}, @function\n{name}:\n    .cfi_startproc\n").toList
      [name.toList] [] := by
  have whole : OneLine name := isName.not_mem (by decide)
  have blank : Shows "\n".toList [] [] := .line not_mem_nil
  have globl : Shows ("    ." ++ ("globl " ++ name) ++ "\n").toList [] [] :=
    .directive (oneLine_append.2 ⟨by decide, whole⟩)
  have type : Shows ("    ." ++ ("type " ++ name ++ ", @function") ++ "\n").toList [] [] :=
    .directive (by simp +decide [whole])
  have label := Shows.label isName.nonempty (isName.not_mem (by decide)) whole
  have start : Shows ("    ." ++ "cfi_startproc" ++ "\n").toList [] [] := .directive (by decide)
  have shown := blank.append (globl.append (type.append (label.append start)))
  simp only [String.toList_append, append_assoc] at shown ⊢
  exact shown

lemma functionFoot_shows (isName : Token.IsName name) :
    Shows (s!"    .cfi_endproc\n    .size {name}, .-{name}\n").toList [] [] := by
  have whole : OneLine name := isName.not_mem (by decide)
  have finish : Shows ("    ." ++ "cfi_endproc" ++ "\n").toList [] [] := .directive (by decide)
  have size : Shows ("    ." ++ ("size " ++ name ++ ", .-" ++ name) ++ "\n").toList [] [] :=
    .directive (by simp +decide [whole])
  have shown := finish.append size
  simp only [String.toList_append, append_assoc] at shown ⊢
  exact shown

lemma functionText_shows (found : lir.functions[g]? = some f) (settled : Settled lir g)
    (name : Token.IsName f.name) (plain : ∀ callee ∈ callsOf lir g, OneLine callee.1)
    (written : functionText lir g f = .ok text) :
    Shows text.toList [f.name.toList] ((callsOf lir g).map calleeText) := by
  have calls : callsOf lir g = f.blocks.flatMap fun b => callees (Layout.code lir b) := by
    rw [callsOf, Layout.blocksOf, found]
    rfl
  rw [calls] at plain ⊢
  rw [functionText] at written
  cases blocks : f.blocks.mapM (blockText lir g f) with
  | error =>
    rw [blocks] at written
    cases written
  | ok texts =>
    rw [blocks] at written
    have shown : Shows (String.join texts).toList [] (f.blocks.flatMap fun b =>
        (callees (Layout.code lir b)).map calleeText) := by
      refine .mapM_calls blocks fun b hb text written => ?_
      obtain ⟨block, here, -, listed⟩ := settled f found b hb
      have code : Layout.code lir b = block.instructions := by
        rw [Layout.code, here]
        rfl
      rw [code]
      exact blockText_shows here listed (fun c hc => plain c (mem_flatMap.2 ⟨b, hb, code ▸ hc⟩)) written
    rw [← map_flatMap] at shown
    cases written
    rw [String.toList_append, String.toList_append]
    have all := ((functionHead_shows name).append shown).append (functionFoot_shows name)
    simpa only [append_nil, nil_append] using all

/-! ### Strings and whole programs -/

lemma stringText_shows (text : String) (index : Nat) :
    Shows
      (s!".L.str.{index}:\n    .asciz \"" ++ String.ofList (escape text.toList) ++ "\"\n").toList
      [(s!".L.str.{index}").toList] [] := by
  have escaped : OneLine (String.ofList (escape text.toList)) := by
    rw [OneLine, String.toList_ofList]
    exact fun mem => absurd (escape_printable _ _ mem).1 (by decide)
  have solid : ' ' ∉ (s!".L.str.{index}").toList := by
    rw [String.toList_append, mem_append, not_or]
    exact ⟨by decide, not_mem_repr (by decide) index⟩
  have label := Shows.label (by simp) solid (by simp +decide)
  have asciz : Shows ("    ." ++ ("asciz \"" ++ String.ofList (escape text.toList) ++ "\"") ++
    "\n").toList [] [] := .directive (by simp +decide [escaped])
  have shown := label.append asciz
  simp only [String.toList_append, append_assoc] at shown ⊢
  exact shown

/-- **String data.** A text is written with characters of ASCII that can be printed and without a
quote that would close it, and an assembler reads it back to its bytes, whatever follows the closing
quote. So different texts are written differently, and no two strings of a program have the same
data. -/
theorem string_data_read : (∀ v : String, (∀ c ∈ escape v.toList, ' ' ≤ c ∧ c ≤ '~') ∧
      Assembler.read .plain (escape v.toList) = none ∧
      ∀ rest, Assembler.read .plain (escape v.toList ++ '"' :: rest) = some (utf8 v, rest)) ∧
    Function.Injective (fun v : String => escape v.toList) ∧ ∀ text p lir, Program.compile text =
    .ok p → p.build.lir = .ok lir → (lir.strings.toList.map fun v => escape v.toList).Nodup := by
  have injective : Function.Injective (fun v : String => escape v.toList) :=
    fun _ _ => Assembler.escape_injective
  refine ⟨fun v => ⟨escape_printable v.toList, Assembler.read_escape_unclosed v.toList,
    fun rest => ?_⟩, injective, ?_⟩
  · rw [Assembler.read_escape, utf8_eq]
  · intro text p lir accepted built
    obtain ⟨-, distinct, -⟩ := (Program.checked_of_compile accepted).builds_of_build built
    exact distinct.map injective

/-- A program with two strings, one of them used twice. -/
def greetings : List Char := "print(\"é\"); print(\"\\\"7\"); print(\"é\");".toList

theorem string_data_read_greetings : ∃ p lir, Program.compile greetings = .ok p ∧
    p.build.lir = .ok lir ∧ lir.strings.toList.map (fun v => String.ofList (escape v.toList)) =
    ["\\303\\251", "\\\"7"] ∧ (lir.strings.toList.map fun v => escape v.toList).Nodup ∧
    ∀ c ∈ escape "é\"7".toList, ' ' ≤ c ∧ c ≤ '~' := by
  have data : ((Program.compile greetings).map fun p => p.build.lir.toOption.any fun lir =>
      lir.strings.toList.map (fun v => String.ofList (escape v.toList)) = ["\\303\\251",
      "\\\"7"]).toOption = some true := by
    rw [show greetings = _ from String.toList_ofList]
    decide +kernel
  obtain ⟨p, lir, accepted, built, data⟩ := Program.exists_built data
  obtain ⟨each, -, distinct⟩ := string_data_read
  exact ⟨p, lir, accepted, built, data, distinct _ p lir accepted built, (each _).1⟩

/-- The lines of the strings define labels that begin with a dot. -/
lemma stringsText_shows (strings : List String) : ∃ own, Shows (stringsText strings).toList own [] ∧
    ∀ label ∈ own, label.head? = some '.' := by
  unfold stringsText
  split_ifs
  · exact ⟨[], .nil, nofun⟩
  · have header : Shows ("    ." ++ "section .rodata" ++ "\n").toList [] [] := .directive (by decide)
    have each := Shows.join fun (p : String × Nat) (_ : p ∈ strings.zipIdx) => stringText_shows p.1 p.2
    rw [flatMap_eq_nil_iff.2 fun _ _ => rfl] at each
    refine ⟨strings.zipIdx.flatMap fun p => [(s!".L.str.{p.2}").toList], ?_, fun label mem => ?_⟩
    · rw [String.toList_append]
      exact header.append each
    · obtain ⟨p, -, mem⟩ := mem_flatMap.1 mem
      rw [mem_singleton.1 mem, String.toList_append]
      rfl

/-- **A listing shows what its code does**: its labels are the names of its functions and the labels
of strings, and its calls those of its functions. -/
lemma of_shows (settled : ∀ g, Settled lir g) (names : ∀ (g : Nat) f, lir.functions[g]? = some f →
      Token.IsName f.name) (plain : ∀ g, ∀ callee ∈ callsOf lir g, OneLine callee.1)
    (written : Listing.of lir = .ok listing) : (∃ own, labels listing =
      lir.functions.toList.map (·.name.toList) ++ own ∧ ∀ label ∈ own, label.head? = some '.') ∧
    calls listing = ((range lir.functions.size).flatMap (callsOf lir)).map calleeText := by
  rw [Listing.of] at written
  cases functions : lir.functions.toList.zipIdx.mapM fun p => functionText lir p.2 p.1 with
  | error =>
    rw [functions] at written
    cases written
  | ok texts =>
    rw [functions] at written
    cases written
    have shown : Shows
        (String.join texts).toList (lir.functions.toList.zipIdx.flatMap fun p => [p.1.name.toList])
        (lir.functions.toList.zipIdx.flatMap fun p => (callsOf lir p.2).map calleeText) := by
      refine .mapM functions fun p hp text written => ?_
      have found : lir.functions[p.2]? = some p.1 := by
        rw [← Array.getElem?_toList]
        exact mem_zipIdx_iff_getElem?.1 hp
      exact functionText_shows found (settled p.2) (names p.2 p.1 found) (plain p.2) written
    obtain ⟨own, strings, dotted⟩ := stringsText_shows lir.strings.toList
    have head : Shows
        ("    ." ++ "intel_syntax noprefix" ++ "\n" ++ ("    ." ++ "text" ++ "\n")).toList [] [] := by
      rw [String.toList_append]
      exact (Shows.directive (by decide)).append (.directive (by decide))
    have foot : Shows ("    ." ++ "section .note.GNU-stack,\"\",@progbits" ++ "\n").toList [] [] :=
      .directive (by decide)
    have all := ((head.append shown).append strings).append foot
    rw [← String.toList_append, ← String.toList_append, ← String.toList_append] at all
    obtain ⟨labels_eq, calls_eq⟩ := all.lines_eq
    have names_eq : (lir.functions.toList.zipIdx.flatMap fun p => [p.1.name.toList]) =
        lir.functions.toList.map (·.name.toList) := by
      conv_rhs => rw [← zipIdx_map_fst 0 lir.functions.toList, map_map]
      exact map_eq_flatMap.symm
    have code_eq : (lir.functions.toList.zipIdx.flatMap fun p => (callsOf lir p.2).map calleeText) =
        ((range lir.functions.size).flatMap (callsOf lir)).map calleeText := by
      rw [map_flatMap, range_eq_range', ← Array.length_toList, ← zipIdx_map_snd, flatMap_map]
    refine ⟨⟨own, labels_eq.trans ?_, dotted⟩, calls_eq.trans ?_⟩
    · rw [nil_append, append_nil, names_eq]
    · rw [nil_append, append_nil, append_nil, code_eq]

end EmLang.Native.Listing
