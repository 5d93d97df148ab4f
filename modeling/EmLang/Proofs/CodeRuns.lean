import EmLang.Proofs.BlockRuns
import EmLang.Proofs.BuiltCode
import Mathlib.Data.List.Forall2

/-!
Runs of the small pieces of code that building puts together: moves, copies to temporaries, and what
stands behind a call. Each brings a datum to its place and writes no slot but its own.
-/

namespace EmLang.Lir

variable {lir : Lir} {clock : Nat → Int64} {slots slots' : Slot → Option Datum}
  {result v : Option Datum} {callers : List (Ty × Activation Datum)} {world : World}
  {rest code : List Instr} {d : Datum} {operand source : Operand}

/-- The value of an operand that is not the return slot. -/
def operandValue (strings : Array String) (slots : Slot → Option Datum) (operand : Operand) : Option Datum :=
  (⟨[], slots, none⟩ : Activation Datum).value? (data strings) operand

variable {t : Slot}

lemma value?_of_operandValue (h : operandValue lir.strings slots operand = some d)
    (code : List Instr) (result : Option Datum) :
    (⟨code, slots, result⟩ : Activation Datum).value? (data lir.strings) operand = some d := by
  cases operand with
  | returnSlot => cases h
  | _ => exact h

lemma operandValue_congr (h : ∀ s, operand = .slot s → slots' s = slots s) :
    operandValue lir.strings slots' operand = operandValue lir.strings slots operand := by
  cases operand with
  | slot s => exact h s rfl
  | _ => rfl

/-- In any activation, the code leads from slots in front of it to slots behind it. -/
def Passes (lir : Lir) (clock : Nat → Int64) (code : List Instr) (slots slots' : Slot → Option Datum) : Prop :=
  ∀ rest result callers world, ∃ k, Goes lir clock k (.running ⟨⟨code ++ rest, slots, result⟩, callers, world⟩)
    (.running ⟨⟨rest, slots', result⟩, callers, world⟩)

lemma Passes.nil (slots : Slot → Option Datum) : Passes lir clock [] slots slots := fun _ _ _ _ => ⟨0, .refl _⟩

lemma goes_declare (s : Slot) :
    Goes lir clock 1 (.running ⟨⟨.unary .declare (.slot s) :: rest, slots, result⟩, callers, world⟩)
    (.running ⟨⟨rest, Function.update slots s none, result⟩, callers, world⟩) :=
  .next rfl

lemma goes_mov {s : Slot} (h : operandValue lir.strings slots source = some d) :
    Goes lir clock 1 (.running ⟨⟨.binary .mov (.slot s) source :: rest, slots, result⟩, callers, world⟩)
      (.running ⟨⟨rest, Function.update slots s (some d), result⟩, callers, world⟩) := by
  apply Goes.next
  rw [Activation.step_cons, Activation.perform_mov _ _ _ (value?_of_operandValue h rest result)]
  rfl

lemma goes_operation {l r : Int64} {op : Opcode} {operation : Int64 → Int64 → Option Int64}
    (hop : op.operation? = some operation) (hl : slots t = some (.word l))
    (hr : operandValue lir.strings slots source = some (.word r)) : Goes lir clock 1
    (.running ⟨⟨.binary op (.slot t) source :: rest, slots, result⟩, callers, world⟩)
    (match operation l r with
        | some w => .running ⟨⟨rest, Function.update slots t (some (.word w)), result⟩, callers, world⟩
        | none => .trapped world.output) := by
  have left : (⟨rest, slots, result⟩ : Activation Datum).word? (data lir.strings) (.slot t) = some l := by
    simp only [Activation.word?, Activation.value?, hl]
    rfl
  have right : (⟨rest, slots, result⟩ : Activation Datum).word? (data lir.strings) source = some r := by
    simp only [Activation.word?, value?_of_operandValue hr]
    rfl
  apply Goes.step
  simp only [Machine.step, Activation.step_cons, Activation.perform_operation _ _ _ hop left right]
  cases operation l r <;> rfl

lemma goes_neg {w : Int64} (h : slots t = some (.word w)) :
    Goes lir clock 1 (.running ⟨⟨.unary .neg (.slot t) :: rest, slots, result⟩, callers, world⟩)
    (.running ⟨⟨rest, Function.update slots t (some (.word (-w))), result⟩, callers, world⟩) := by
  have here : (⟨rest, slots, result⟩ : Activation Datum).word? (data lir.strings) (.slot t) = some w := by
    simp only [Activation.word?, Activation.value?, h]
    rfl
  apply Goes.next
  simp only [Activation.step_cons, Activation.perform, here]
  rfl

lemma mapM_of_forall₂ {α β : Type} {g : α → Option β} {xs : List α} {ys : List β}
    (h : List.Forall₂ (fun x y => g x = some y) xs ys) : xs.mapM g = some ys := by
  induction h with
  | nil => rfl
  | cons head _ ih => simp [List.mapM_cons, head, ih]

lemma goes_call
    {operands : List Operand} {ds : List Datum} (symbol : String) (ty : Ty) (isExternal : Bool)
    (held : List.Forall₂ (fun o d => operandValue lir.strings slots o = some d) operands ds) :
    Goes lir clock 1
    (.running ⟨⟨.unary .call (.callee symbol operands ty isExternal) :: rest, slots, result⟩,
      callers, world⟩)
    ((⟨⟨rest, slots, result⟩, callers, world⟩ : Machine).call lir clock symbol isExternal ds ty
      ⟨rest, slots, result⟩) := by
  have values : operands.mapM ((⟨rest, slots, result⟩ : Activation Datum).value? (data lir.strings))
    = some ds := mapM_of_forall₂ (held.imp fun _ _ h => value?_of_operandValue h rest result)
  apply Goes.step
  simp only [Machine.step, Activation.step_cons, Activation.perform_call _ _ _ ty isExternal values]
  rfl

lemma goes_result (h : operandValue lir.strings slots source = some d) :
    Goes lir clock 1 (.running ⟨⟨.binary .mov .returnSlot source :: rest, slots, result⟩, callers, world⟩)
      (.running ⟨⟨rest, slots, some d⟩, callers, world⟩) := by
  apply Goes.next
  rw [Activation.step_cons, Activation.perform_mov _ _ _ (value?_of_operandValue h rest result)]
  rfl

lemma goes_jmp {b : BlockId} (h : lir.code? b = some code) :
    Goes lir clock 1 (.running ⟨⟨.unary .jmp (.block b) :: rest, slots, result⟩, callers, world⟩)
    (.running ⟨⟨code, slots, result⟩, callers, world⟩) := by
  apply Goes.next
  rw [Activation.step_cons, Activation.perform_jmp _ _ _ h]

lemma goes_ret : Goes lir clock 1 (.running ⟨⟨.nullary .ret :: rest, slots, result⟩, callers, world⟩)
    ((⟨⟨rest, slots, result⟩, callers, world⟩ : Machine).finish result) :=
  .step rfl

lemma moveTo_passes (h : operandValue lir.strings slots source = some d) :
    Passes lir clock (moveTo (.slot t) source) slots (Function.update slots t (some d)) := by
  intro rest result callers world
  unfold moveTo
  split_ifs with same
  · subst same
    have here : slots t = some d := h
    rw [← here, Function.update_eq_self]
    exact ⟨0, .refl _⟩
  · exact ⟨1, goes_mov h⟩

lemma copyTo_passes (h : operandValue lir.strings slots source = some d) (fresh : source ≠
      .slot t) : Passes lir clock (copyTo t source) slots (Function.update slots t (some d)) := by
  intro rest result callers world
  have kept : operandValue lir.strings (Function.update slots t none) source = some d := by
    rw [← h]
    refine operandValue_congr fun s hs => Function.update_of_ne ?_ _ _
    rintro rfl
    exact fresh hs
  have moved : Goes lir clock 1 (.running ⟨⟨.binary .mov (.slot t) source :: rest,
    Function.update slots t none, result⟩, callers, world⟩) _ := goes_mov kept
  rw [Function.update_idem] at moved
  exact ⟨2, (goes_declare t).trans moved⟩

lemma update_unwritten {written : List Slot} (h : t ∈ written) :
    ∀ s ∉ written, Function.update slots t v s = slots s := by
  intro s hs
  refine Function.update_of_ne ?_ _ _
  rintro rfl
  exact hs h

namespace Site

variable {site : Site} {mid hi t : Slot} {copy answer : List Instr} {kept : Operand}
  {later : List ExprId} {ty : Ty}

lemma Held.passes (clock : Nat → Int64) (h : site.Held mid operand copy t hi)
    (low : site.declared ≤ mid) (value : operandValue lir.strings slots operand = some d) :
    ∃ slots', Passes lir clock copy slots slots' ∧ slots' t = some d ∧
    ∀ s ∉ Lir.writes copy, slots' s = slots s := by
  cases h with
  | kept _ => exact ⟨slots, .nil slots, value, fun _ _ => rfl⟩
  | copied other =>
    have fresh : operand ≠ .slot mid := by
      intro h
      exact absurd (other mid h) (Nat.not_lt.2 low)
    exact ⟨_, copyTo_passes value fresh, Function.update_self .., update_unwritten (by simp)⟩

lemma Held.high (h : site.Held mid operand copy t hi) (low : site.declared ≤ mid) : site.declared ≤ t := by
  cases h with
  | kept temporary => exact temporary
  | copied _ => exact low

lemma Held.writes_le (h : site.Held mid operand copy t hi) : ∀ s ∈ Lir.writes copy, mid ≤ s := by
  cases h <;> simp

lemma Kept.passes (clock : Nat → Int64) (h : site.Kept later mid operand copy kept hi)
    (low : site.declared ≤ mid) (value : operandValue lir.strings slots operand = some d) :
    ∃ slots', Passes lir clock copy slots slots' ∧ operandValue lir.strings slots' kept = some d ∧
    ∀ s ∉ Lir.writes copy, slots' s = slots s := by
  cases h with
  | safe _ => exact ⟨slots, .nil slots, value, fun _ _ => rfl⟩
  | @copied s own =>
    have fresh : Operand.slot s ≠ .slot mid := by
      intro h
      exact absurd (Operand.slot.inj h ▸ own) (Nat.not_lt.2 low)
    exact ⟨_, copyTo_passes value fresh, Function.update_self .., update_unwritten (by simp)⟩

lemma Kept.writes_le (h : site.Kept later mid operand copy kept hi) : ∀ s ∈ Lir.writes copy, mid ≤ s := by
  cases h <;> simp

lemma Answer.writes_le {operand : Option Operand} (h : Answer ty mid answer operand hi) :
    ∀ s ∈ Lir.writes answer, mid ≤ s := by
  cases h <;> simp

lemma Answer.goes (clock : Nat → Int64) {operand : Option Operand}
    (h : Answer ty mid answer operand hi) {P : Datum → Prop}
    (value : ty.hasValue = true → ∃ d, result = some d ∧ P d) : ∃ k slots' result', Goes lir clock k
    (.running ⟨⟨answer ++ rest, slots, if ty.hasValue then result else none⟩, callers, world⟩)
    (.running ⟨⟨rest, slots', result'⟩, callers, world⟩) ∧
    (∀ o, operand = some o → ∃ d, P d ∧ operandValue lir.strings slots' o = some d) ∧
    ∀ s ∉ Lir.writes answer, slots' s = slots s := by
  cases h with
  | value hasValue =>
    obtain ⟨d, rfl, hd⟩ := value hasValue
    rw [if_pos hasValue]
    have moved : Goes lir clock 1 (.running ⟨⟨.binary .mov (.slot mid) .returnSlot :: rest,
        Function.update slots mid none, some d⟩, callers, world⟩)
        (.running ⟨⟨rest, Function.update slots mid (some d), some d⟩, callers, world⟩) := by
      apply Goes.next
      rw [Activation.step_cons, Activation.perform_mov _ _ _ rfl]
      simp only [Activation.store, Activation.setSlot, Function.update_idem]
    refine ⟨2, Function.update slots mid (some d), some d, (goes_declare mid).trans moved, ?_, ?_⟩
    · intro o ho
      cases ho
      exact ⟨d, hd, Function.update_self ..⟩
    · exact update_unwritten (by simp)
  | void _ => exact ⟨0, slots, _, .refl _, nofun, fun _ _ => rfl⟩

end Site

end EmLang.Lir
