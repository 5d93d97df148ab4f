import EmLang.Proofs.Listings

/-!
What is left of a program when it is lowered and laid out: instructions that the machine has. Each
of them takes operands of certain kinds only; a wide number goes to a register, the address of a
string is loaded, and no instruction works on two words of memory.
-/

namespace EmLang.Native

open Lir List Register

/-- A register or a word of memory. -/
def isCell : Operand → Bool
  | .reg _ | .mem .. => true
  | _ => false

/-- Whether the machine has an instruction whose operands are of these kinds. -/
def hasForm : Instr → Bool
  | .nullary op => op = .cqo || op = .ret
  | .unary op operand =>
    match op, operand with
    | .idiv, _ | .neg, _ => isCell operand
    | .push, _ => isShort operand
    | .pop, .reg _ => true
    | .call, .callee _ [] _ _ => true
    | .jmp, .block _ | .jcc _, .block _ => true
    | _, _ => false
  | .binary op destination source =>
    match op, destination, source with
    | .mov, .reg _, .imm _ => true
    | .mov, .reg _, _ => isCell source
    -- the destination is a word of memory already
    | .mov, .mem .., _ => isShort source && !isMemory source
    | .lea, .reg _, .str _ => true
    | .add, .reg _, _ | .sub, .reg _, _ | .imul, .reg _, _ | .cmp, .reg _, _ => isShort source
    | _, _, _ => false

/-- The numbers of bytes in the report on a function fit 32 bits. -/
structure FunctionReport.Short (report : FunctionReport) : Prop where
  frame : fits32 report.frameSize = true
  calls : ∀ call ∈ report.calls, fits32 call.stackBytes = true

lemma FunctionReport.Short.fits {report : FunctionReport} (h : report.Short) {bytes : Int}
    (known : report.Shifts bytes) : fits32 (Int64.ofInt bytes).toInt = true := by
  have fits : fits32 bytes = true := by
    rcases known with rfl | rfl | ⟨call, made, rfl⟩
    · decide
    · exact h.frame
    · exact h.calls call made
  have range := fits32_iff.1 fits
  rwa [Int64.toInt_ofInt_of_le (by omega) (by omega)]

lemma isCell_of_isShort {operand : Operand} (short : isShort operand = true)
    (cell : ∀ w, operand ≠ .imm w) : isCell operand = true := by
  cases operand with
  | reg | mem => rfl
  | imm w => exact absurd rfl (cell w)
  | _ => cases short

lemma Encodable.hasForm {i : Instr} {S : Int → Prop} (h : Encodable S i)
    (short : ∀ bytes, S bytes → fits32 (Int64.ofInt bytes).toInt = true) : hasForm i = true := by
  cases h with
  | @load r source form =>
    rcases form with form | ⟨w, rfl⟩
    · cases source with
      | reg | mem | imm => rfl
      | _ => cases form
    · rfl
  | store form plain =>
    show (isShort _ && !isMemory _) = true
    rw [form, plain]
    rfl
  | operate form short =>
    rcases mem_cons.1 form with rfl | form
    · exact short
    · simp only [mem_cons, not_mem_nil, or_false] at form
      rcases form with rfl | rfl | rfl <;> exact short
  | shift form known => rcases form with rfl | rfl <;> exact short _ known
  | idiv short cell => exact isCell_of_isShort short cell
  | push short => exact short
  | lea | neg | pop | call | jmp | cqo | ret => rfl

/-- **The machine has every instruction that is left.** A program is lowered without failure, with
one report for each function. Where the frame of a function and the arguments that it pushes fit 32
bits, all instructions in its blocks have operands that the machine takes. -/
theorem lower_hasForm {text : List Char} {p : Program} {lir : Lir} (accepted : Program.compile text = .ok p)
    (built : p.build.lir = .ok lir) : ∃ lir' reports, lower lir = ⟨lir', reports, none⟩ ∧
      lir'.functions = lir.functions ∧ reports.length = lir.functions.size ∧
      ∀ (g : Nat) f report, lir'.functions[g]? = some f → reports[g]? = some report → report.Short →
        ∀ b ∈ f.blocks, ∃ block, lir'.blocks[b]? = some block ∧ ∀ i ∈ block.instructions, hasForm i = true := by
  have checked := Program.checked_of_compile accepted
  obtain ⟨lir', reports, lowered, functions, settled, -, -, formed⟩ :=
    lowerEach_of_waits nodup_range (waits_of_built checked built)
  have count : reports.length = lir.functions.size := by rw [← formed.length_eq, length_range]
  refine ⟨lir', reports, lowered, functions, count, fun g f report found reported short b hb => ?_⟩
  have lt : g < lir.functions.size := functions ▸ (Array.getElem?_eq_some_iff.1 found).1
  obtain ⟨block, here, -, -⟩ := settled g (mem_range.2 lt) f found b hb
  have encodable : Formed lir' g report := forall₂_getElem? formed (getElem?_range lt) reported
  refine ⟨block, here, fun i hi => (encodable block.instructions ?_ i hi).hasForm fun bytes => short.fits⟩
  rw [codeOf, Layout.blocksOf, found]
  refine mem_map.2 ⟨b, hb, ?_⟩
  rw [Layout.code, here]
  rfl

/-- A call with seven arguments, of which the last is a wide number, in a function that also divides
and negates and prints a text. -/
def wideArgument : List Char :=
  ("fx last(a: int, b: int, c: int, d: int, e: int, f: int, g: int) -> int \x7b return g; \x7d " ++
    "fx rest(n: int) -> int \x7b print(\"rest\"); " ++
    "return -(n % last(n, n, n, n, n, n, 9999999999)) - 9999999999; \x7d print(rest(5));").toList

theorem lower_hasForm_wideArgument : ∃ p lir lir' reports, Program.compile wideArgument = .ok p ∧
    p.build.lir = .ok lir ∧ lower lir = ⟨lir', reports, none⟩ ∧ (∀ report ∈ reports, report.Short) ∧
    ∀ f ∈ lir'.functions, ∀ b ∈ f.blocks, ∃ block, lir'.blocks[b]? = some block ∧
      ∀ i ∈ block.instructions, hasForm i = true := by
  obtain ⟨p, lir, accepted, built, small⟩ : ∃ p lir, Program.compile wideArgument = .ok p ∧
      p.build.lir = .ok lir ∧ ∀ report ∈ (lower lir).reports, fits32 report.frameSize = true ∧
      ∀ call ∈ report.calls, fits32 call.stackBytes = true := by
    rw [show wideArgument = _ from String.toList_append.trans
      (congrArg₂ _ (Token.toList_ofList_append ..) String.toList_ofList)]
    apply Program.exists_built
    decide +kernel
  obtain ⟨lir', reports, lowered, functions, count, formed⟩ := lower_hasForm accepted built
  rw [lowered] at small
  have short report (mem : report ∈ reports) : report.Short := ⟨(small report mem).1, (small report mem).2⟩
  refine ⟨p, lir, lir', reports, accepted, built, lowered, short, fun f mem => ?_⟩
  obtain ⟨g, lt, rfl⟩ := Array.mem_iff_getElem.1 mem
  have lt' : g < reports.length := by rwa [count, ← functions]
  exact formed g _ _ (Array.getElem?_eq_getElem lt) (getElem?_eq_getElem lt') (short _ (getElem_mem lt'))

end EmLang.Native
