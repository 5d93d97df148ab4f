import EmLang.Proofs.BuiltRuns
import EmLang.Proofs.FunctionRuns

/-!
The form of programs in blocks, on which all that is done with them relies: blocks that belong to
one function, code that goes from its beginning to one jump, slots that are declared before they are
mentioned, temporaries that are declared once, calls of functions that are there. The temporaries of
a function are handed out in order, so at every place of its code those below the next free one are
declared, and no others.
-/

namespace EmLang.Lir

open Instr List

variable {isExternal ended valued : Bool} {function : EmLang.Function} {arguments : List Operand}
  {op : Opcode} {symbol : String} {returnType : Ty} {D known : Slot → Prop} {code : List Instr}
  {declared hi lo s t : Slot} {exit : BlockId} {f : Function} {i j : Instr} {site : Site}
  {operand part : Operand}

/-! ### Parts of operands -/

/-- The operand is the other one, or has it among its arguments. -/
inductive Operand.Has : Operand → Operand → Prop where
  | self {part : Operand} : Has part part
  | argument {symbol : String} {arguments : List Operand} {returnType : Ty} {isExternal : Bool}
      {operand part : Operand} (mem : operand ∈ arguments) (has : Has operand part) :
      Has (.callee symbol arguments returnType isExternal) part

def Instr.Has (i : Instr) (part : Operand) : Prop := ∃ operand ∈ i.operands, operand.Has part

variable {strings : Nat}

lemma Operand.mentions_iff : operand.Mentions s ↔ operand.Has (.slot s) := by
  constructor
  · intro mentions
    induction mentions with
    | slot => exact .self
    | argument mem _ ih => exact .argument mem ih
  · intro has
    generalize same : Operand.slot s = part at has
    induction has with
    | self => exact same ▸ .slot
    | argument mem _ ih => exact .argument mem (ih same)

lemma Instr.mentions_iff : i.Mentions s ↔ i.Has (.slot s) := by
  simp only [Instr.Mentions, Instr.Has, Operand.mentions_iff]

lemma Instr.has_unary : (unary op operand).Has part ↔ operand.Has part := by
  simp [Instr.Has, operands]

lemma Instr.has_binary {first second : Operand} :
    (binary op first second).Has part ↔ first.Has part ∨ second.Has part := by
  simp [Instr.Has, operands]

/-! ### Use of the return slot -/

/-- An instruction that has the return slot, between the code in front of it and that behind it. -/
inductive UsesReturn (f : Function) (exit : BlockId) : List Instr → Instr → List Instr → Prop where
  /-- The value of a call is moved to a temporary that is declared for it. -/
  | taken {front behind : List Instr}
      {symbol : String} {arguments : List Operand} {returnType : Ty} {isExternal : Bool}
      {t : Slot} (value : returnType.hasValue = true) (temporary : f.isTemporary t = true) :
      UsesReturn f exit (front ++ [.unary .call (.callee symbol arguments returnType isExternal),
        .unary .declare (.slot t)]) (.binary .mov (.slot t) .returnSlot) behind
  /-- A value is moved there, and the function is left. -/
  | given {front : List Instr} {source : Operand} (other : source ≠ .returnSlot) :
      UsesReturn f exit front (.binary .mov .returnSlot source) [.unary .jmp (.block exit)]

lemma UsesReturn.behind {front behind : List Instr} (h : UsesReturn f exit front i behind)
    (before : List Instr) : UsesReturn f exit (before ++ front) i behind := by
  cases h with
  | taken value temporary =>
    rw [← append_assoc]
    exact .taken value temporary
  | given other => exact .given other

section

variable (h : operand.Sound strings known)

include h

/-- An operand with a value has no other operand in it. -/
lemma Operand.Sound.eq_of_has (has : operand.Has part) : operand = part := by
  cases has with
  | self => rfl
  | argument => cases h

lemma Operand.Sound.of_has (has : operand.Has part) : part.Sound strings known := h.eq_of_has has ▸ h

lemma Operand.Sound.not_has : ¬ operand.Has .returnSlot := h.of_has

end

lemma Operand.slot_has : (Operand.slot s).Has part ↔ part = .slot s := by
  constructor
  · rintro ⟨⟩
    rfl
  · rintro rfl
    exact .self

/-- Wherever the code has the return slot, it is used as it should be. -/
def UsesReturns (f : Function) (exit : BlockId) (code : List Instr) : Prop :=
  ∀ front i behind, code = front ++ i :: behind → i.Has .returnSlot → UsesReturn f exit front i behind

lemma UsesReturns.cons (rest : UsesReturns f exit code) (none : ¬ j.Has .returnSlot) :
    UsesReturns f exit (j :: code) := by
  rintro (_ | ⟨k, front⟩) i behind split has
  · obtain ⟨rfl, -⟩ := cons.inj split
    exact absurd has none
  · obtain ⟨rfl, later⟩ := cons.inj split
    exact (rest front i behind later has).behind [j]

/-- The value of a call is taken over at once. -/
lemma UsesReturns.answered (rest : UsesReturns f exit code)
    (value : returnType.hasValue = true) (temporary : f.isTemporary t = true)
    (none : ¬ (unary .call (.callee symbol arguments returnType isExternal)).Has .returnSlot) :
    UsesReturns f exit (.unary .call (.callee symbol arguments returnType isExternal) ::
      (copyTo t .returnSlot ++ code)) := by
  rintro (_ | ⟨first, _ | ⟨second, _ | ⟨third, front⟩⟩⟩) i behind split has
  · obtain ⟨rfl, -⟩ := cons.inj split
    exact absurd has none
  · obtain ⟨-, ⟨rfl, -⟩⟩ : _ ∧ unary .declare (.slot t) = i ∧ _ := by simpa [copyTo] using split
    simp [has_unary, Operand.slot_has] at has
  · obtain ⟨rfl, rfl, rfl, rfl⟩ : _ = first ∧ _ = second ∧ _ = i ∧ _ = behind := by simpa [copyTo] using split
    show UsesReturn f exit ([] ++ [_, _]) _ _
    exact .taken value temporary
  · obtain ⟨rfl, rfl, rfl, later⟩ : _ = first ∧ _ = second ∧ _ = third ∧ _ = _ := by simpa [copyTo] using split
    exact (rest front i behind later has).behind [_, _, _]

namespace Straight

variable {t : Slot} {i : Instr}

lemma call_not_has (sound : ∀ a ∈ arguments, a.Sound strings D) :
    ¬ (unary .call (.callee symbol arguments returnType isExternal)).Has .returnSlot := by
  rw [has_unary]
  rintro ⟨⟩
  exact (sound _ ‹_›).not_has ‹_›

/-- The return slot is used for the values of calls and for the value of the function only. -/
lemma usesReturns (h : Straight site f exit valued D lo code hi) : UsesReturns f exit code := by
  have jump : UsesReturns f exit [.unary .jmp (.block exit)] := by
    have none : UsesReturns f exit [] := by simp [UsesReturns]
    refine none.cons ?_
    rw [has_unary]
    rintro ⟨⟩
  induction h with
  | bind _ sound _ ih =>
    exact (ih.cons (by simp [has_binary, Operand.slot_has, sound.not_has])).cons
      (by simp [has_unary, Operand.slot_has])
  | assign _ sound _ ih | operate _ _ _ sound _ _ ih =>
      exact ih.cons (by simp [has_binary, Operand.slot_has, sound.not_has])
  | negate _ _ _ ih => exact ih.cons (by simp [has_unary, Operand.slot_has])
  | answered _ _ value temporary sound _ ih => exact ih.answered value temporary (call_not_has sound)
  | called _ _ _ sound _ ih => exact ih.cons (call_not_has sound)
  | ret sound =>
    rintro (_ | ⟨first, front⟩) i behind split has
    · cases split
      refine .given ?_
      rintro rfl
      exact sound
    · obtain ⟨rfl, later⟩ := cons.inj split
      exact (jump front i behind later has).behind [_]
  | leave _ => exact jump

end Straight

/-! ### Declarations in order -/

lemma mem_liveAtStart_cons {out : LiveSet} : s ∈ liveAtStart out (i :: code) ↔
    i ≠ .unary .declare (.slot s) ∧ (i.Mentions s ∨ s ∈ liveAtStart out code) :=
  mem_liveBefore

namespace Site

variable {t : Slot}

/-- An instruction that is no declaration, and all that it refers to is there. -/
inductive Sound (site : Site) (known : Slot → Prop) : Instr → Prop where
  | work {op : Opcode} {s : Slot} {source : Operand} (other : op ≠ .call) (here : known s)
      (sound : source.Sound site.strings.size known) :
      Sound site known (.binary op (.slot s) source)
  | negate {s : Slot} (here : known s) : Sound site known (.unary .neg (.slot s))
  | take {s : Slot} (here : known s) : Sound site known (.binary .mov (.slot s) .returnSlot)
  | give {source : Operand} (sound : source.Sound site.strings.size known) :
      Sound site known (.binary .mov .returnSlot source)
  | call {symbol : String} {arguments : List Operand} {returnType : Ty} {isExternal : Bool}
      (sound : ∀ a ∈ arguments, a.Sound site.strings.size known)
      (takes : site.Takes symbol arguments.length returnType isExternal) :
      Sound site known (.unary .call (.callee symbol arguments returnType isExternal))
  | jump {b : BlockId} : Sound site known (.unary .jmp (.block b))

namespace Sound

variable {known' known' : Slot → Prop}

variable (h : site.Sound known i)

include h

lemma mono (more : ∀ s, known s → known' s) : site.Sound known' i := by
  cases h with
  | work other known sound => exact .work other (more _ known) (sound.mono more)
  | negate known => exact .negate (more _ known)
  | take known => exact .take (more _ known)
  | give sound => exact .give (sound.mono more)
  | call sound takes => exact .call (fun a ha => (sound a ha).mono more) takes
  | jump => exact .jump

/-- The slots and strings of the instruction are there. -/
lemma of_has (has : i.Has part) (value : (∃ s, part = .slot s) ∨ ∃ index, part = .str index) :
    part.Sound site.strings.size known := by
  cases h with
  | work _ here sound =>
    obtain has | has := has_binary.1 has
    · exact Operand.slot_has.1 has ▸ here
    · exact sound.of_has has
  | negate here => exact Operand.slot_has.1 (has_unary.1 has) ▸ here
  | take here =>
    obtain has | has := has_binary.1 has
    · exact Operand.slot_has.1 has ▸ here
    · cases has
      simp at value
  | give sound =>
    obtain has | has := has_binary.1 has
    · cases has
      simp at value
    · exact sound.of_has has
  | call sound _ =>
    obtain _ | ⟨mem, has⟩ := has_unary.1 has
    · simp at value
    · exact (sound _ mem).of_has has
  | jump =>
    cases has_unary.1 has
    simp at value

lemma known_of_has (has : i.Has (.slot s)) : known s := h.of_has has (.inl ⟨s, rfl⟩)

end Sound

/-- Code from where the slots `D` are declared. It declares the temporaries from `lo` up to `hi` in
their order, and mentions nothing that is not declared. -/
inductive Orderly (site : Site) (declared : Slot) : (Slot → Prop) → Slot → List Instr → Slot → Prop where
  | nil {D : Slot → Prop} {lo : Slot} : Orderly site declared D lo [] lo
  | declare {D : Slot → Prop} {lo mid hi s : Slot} {rest : List Instr}
      (opens : Opens declared lo s mid) (next : Orderly site declared (fun x => x = s ∨
      D x) mid rest hi) : Orderly site declared D lo (.unary .declare (.slot s) :: rest) hi
  | sound {D : Slot → Prop} {lo hi : Slot} {i : Instr} {rest : List Instr} (sound : site.Sound D i)
      (next : Orderly site declared D lo rest hi) : Orderly site declared D lo (i :: rest) hi

end Site

namespace Opens

variable {mid : Slot} (h : Opens declared lo s mid)

include h

lemma le : lo ≤ mid := by
  cases h with
  | temporary => exact Nat.le_succ _
  | declared => exact le_rfl

lemma lt (low : declared ≤ lo) : s < mid := by
  cases h with
  | temporary => exact Nat.lt_succ_self _
  | declared own => exact own.trans_le low

lemma place : s < declared ∨ lo ≤ s := by
  cases h with
  | temporary => exact .inr le_rfl
  | declared own => exact .inl own

/-- What is declared is below the next free temporary. -/
lemma below (own : ∀ x, D x → x < lo) (low : declared ≤ lo) : ∀ x, x = s ∨ D x → x < mid := by
  rintro x (rfl | hx)
  · exact h.lt low
  · exact (own x hx).trans_le h.le

end Opens

namespace Site.Orderly

variable {D' : Slot → Prop}

variable (h : site.Orderly declared D lo code hi)

include h

lemma mono (more : ∀ s, D s → D' s) : site.Orderly declared D' lo code hi := by
  induction h generalizing D' with
  | nil => exact .nil
  | declare opens _ ih => exact .declare opens (ih fun s => Or.imp_right (more s))
  | sound sound _ ih => exact .sound (sound.mono more) (ih more)

lemma le : lo ≤ hi := by
  induction h with
  | nil => exact le_rfl
  | declare opens _ ih => exact opens.le.trans ih
  | sound _ _ ih => exact ih

/-- Only what is declared before the code can be live there. -/
lemma known_of_live (live : s ∈ liveAtStart ∅ code) : D s := by
  induction h with
  | nil => exact absurd live Std.ExtTreeSet.not_mem_empty
  | declare _ _ ih =>
    obtain ⟨other, mentions | live⟩ := mem_liveAtStart_cons.1 live
    · rw [mentions_iff, has_unary, Operand.slot_has] at mentions
      exact absurd (mentions ▸ rfl) other
    · obtain rfl | known := ih live
      · exact absurd rfl other
      · exact known
  | sound sound _ ih =>
    obtain ⟨-, mentions | live⟩ := mem_liveAtStart_cons.1 live
    · exact sound.known_of_has (mentions_iff.1 mentions)
    · exact ih live

variable (own : ∀ s, D s → s < lo) (low : declared ≤ lo)

include own low

/-- Every instruction declares a slot that is there, or refers only to what is there. -/
lemma instruction (mem : i ∈ code) :
    (∃ s, i = .unary .declare (.slot s) ∧ s < hi ∧ (s < declared ∨ lo ≤ s)) ∨ site.Sound (· < hi) i := by
  induction h with
  | nil => cases mem
  | declare opens next ih =>
    obtain rfl | mem := mem_cons.1 mem
    · exact .inl ⟨_, rfl, (opens.lt low).trans_le next.le, opens.place⟩
    · refine (ih (opens.below own low) (low.trans opens.le) mem).imp_left ?_
      rintro ⟨s, rfl, lt, place⟩
      exact ⟨s, rfl, lt, place.imp_right opens.le.trans⟩
  | sound sound next ih =>
    obtain rfl | mem := mem_cons.1 mem
    · exact .inr (sound.mono fun s known => (own s known).trans_le next.le)
    · exact ih own low mem

/-- A temporary is declared once, and not mentioned before. -/
lemma declares_once (ge : lo ≤ t) (lt : t < hi) :
    ∃ front behind, code = front ++ .unary .declare (.slot t) :: behind ∧
    (∀ i ∈ front, ¬ i.Has (.slot t)) ∧ .unary .declare (.slot t) ∉ behind := by
  have cons : ∀ {rest : List Instr} {i : Instr}, ¬ i.Has (.slot t) →
      (∃ front behind, rest = front ++ .unary .declare (.slot t) :: behind ∧
      (∀ i ∈ front, ¬ i.Has (.slot t)) ∧ .unary .declare (.slot t) ∉ behind) → ∃ front behind,
      i :: rest = front ++ .unary .declare (.slot t) :: behind ∧ (∀ i ∈ front, ¬ i.Has (.slot t)) ∧
      .unary .declare (.slot t) ∉ behind := by
    rintro _ i none ⟨front, behind, rfl, before, once⟩
    exact ⟨i :: front, behind, rfl, forall_mem_cons.2 ⟨none, before⟩, once⟩
  induction h with
  | nil => exact absurd lt (Nat.not_lt.2 ge)
  | @declare _ lo mid _ s rest opens next ih =>
    have own' := opens.below own low
    have low' := low.trans opens.le
    obtain rfl | other := eq_or_ne s t
    · refine ⟨[], rest, rfl, by simp, fun again => ?_⟩
      obtain ⟨u, same, -, place⟩ | sound := next.instruction own' low' again
      · obtain rfl := Operand.slot.inj (unary.inj same).2
        exact place.elim (Nat.not_lt.2 (low.trans ge)) (Nat.not_le.2 (opens.lt low))
      · cases sound
    · refine cons (fun has => other (Operand.slot.inj (Operand.slot_has.1 (has_unary.1 has))).symm)
        (ih own' low' ?_ lt)
      cases opens with
      | temporary => exact lt_of_le_of_ne ge other
      | declared => exact ge
  | sound sound _ ih => exact cons (fun has =>
      absurd (own t (sound.known_of_has has)) (Nat.not_lt.2 ge)) (ih own low ge lt)

end Site.Orderly

/-- The code of a function declares a slot before it is mentioned. -/
lemma Straight.orderly (h : Straight site f exit valued D lo code hi) :
    site.Orderly f.declaredCount D lo code hi := by
  induction h with
  | bind opens sound _ ih =>
    exact .declare opens (.sound (.work (by simp) (.inl rfl) (sound.mono fun _ h => .inr h.2))
      (ih.mono fun _ => Or.imp_right And.right))
  | assign has sound _ ih => exact .sound (.work (by simp) has sound) (ih.mono fun _ h =>
      h.elim (fun same => same ▸ has) id)
  | operate known _ has sound _ _ ih => exact .sound (.work (by rintro rfl; cases known) has sound) ih
  | negate _ has _ ih => exact .sound (.negate has) ih
  | answered _ takes _ _ sound _ ih =>
      exact .sound (.call sound takes) (.declare .temporary (.sound (.take (.inl rfl)) ih))
  | called _ takes _ sound _ ih => exact .sound (.call sound takes) ih
  | ret sound => exact .sound (.give sound) (.sound .jump .nil)
  | leave _ => exact .sound .jump .nil

/-! ### Functions and programs -/

/-- The form of a function: it has a block that begins it, with the code, and one that ends it. -/
structure Function.WellFormed (lir : Lir) (f : Function) (entry exit : BlockId) (code : List Instr) : Prop where
  blocks : f.blocks = [entry, exit]
  apart : entry ≠ exit
  entryCode : lir.code? entry = some code
  exitCode : lir.code? exit = some [.nullary .ret]
  /-- Control leaves the code with its last instruction only. -/
  leaves : ∃ front, code = front ++ [.unary .jmp (.block exit)] ∧ ∀ i ∈ front, i.opcode.isTerminator = false
  slots : ∀ i ∈ code, ∀ s, i.Has (.slot s) → s < f.slotCount
  /-- A temporary is declared once, and not mentioned before. -/
  temporaries : ∀ t, f.isTemporary t = true → t < f.slotCount → ∃ front behind,
    code = front ++ .unary .declare (.slot t) :: behind ∧ (∀ i ∈ front, ¬ i.Has (.slot t)) ∧
    .unary .declare (.slot t) ∉ behind
  /-- What is live at the beginning are parameters. -/
  live : ∃ flow liveness liveIn, Flow.of lir f = .ok flow ∧ Liveness.of lir f flow = .ok liveness ∧
    flow.position? entry = some 0 ∧ liveness.liveIn[0]? = some liveIn ∧ ∀ s ∈ liveIn, s < f.parameterCount
  leaf : f.isLeaf = true ↔ ∀ i ∈ code, i.opcode ≠ .call
  /-- A call has a callee; one that is a function is there, and takes so many arguments. -/
  calls : ∀ i ∈ code, i.opcode = .call → ∃ symbol arguments returnType isExternal,
    i = .unary .call (.callee symbol arguments returnType isExternal) ∧
    (isExternal = false → ∃ callee, lir.functionNamed? symbol = some callee ∧
    callee.parameterCount = arguments.length ∧ callee.returnType = returnType)
  returns : UsesReturns f exit code
  strings : ∀ i ∈ code, ∀ index, i.Has (.str index) → index < lir.strings.size

/-- The form of a program. -/
structure WellFormed (lir : Lir) : Prop where
  strings : lir.strings.toList.Nodup
  functions : ∀ (g : Nat) f, lir.functions[g]? = some f → ∃ entry exit code, f.WellFormed lir entry exit code
  /-- No two functions share a block. -/
  apart : ∀ (g g' : Nat) f f' b, lir.functions[g]? = some f → lir.functions[g']? = some f' →
    b ∈ f.blocks → b ∈ f'.blocks → g = g'

lemma Site.EndCode.not_calling
    (h : site.EndCode function exit ended code) : ¬ Calling code := by
  cases h <;> simp [Calling, opcode]

/-- The functions of a program are built to this form. -/
lemma Builds.wellFormed {lir : Lir} {p : Program} {g : FunId} (checked : p.Checked)
    (built : p.build.lir = .ok lir) (found : p.scope.function? g = some function)
    (b : Builds p.ast p.scope lir g function) :
    b.function.WellFormed lir b.entry b.exit (b.body ++ b.ending) := by
  have straight := b.straight checked found
  have orderly := straight.orderly
  have parameters := (checked.slotted.parameters g function found).length_le
  have own s (hs : s < function.parameters.length) : s < function.locals.length := hs.trans_le parameters
  obtain ⟨front, first, last, plainly, code⟩ := Native.plainly_of_builds checked found b
  refine ⟨rfl, plainly.other, b.entryCode, b.exitCode, straight.leaves_last, fun i hi s has => ?_,
    fun t temporary lt => ?_, ?_, ?_, fun i hi calls => ?_, straight.usesReturns,
    fun i hi index has => ?_⟩
  · obtain ⟨t, rfl, lt, -⟩ | sound := orderly.instruction own le_rfl hi
    · exact Operand.slot.inj (Operand.slot_has.1 (has_unary.1 has)) ▸ lt
    · exact sound.known_of_has has
  · exact orderly.declares_once own le_rfl (of_decide_eq_true temporary) lt
  · obtain ⟨liveness, known, liveIn, -⟩ := Liveness.of_leading plainly.toLeading
    refine ⟨_, liveness, _, Flow.of_leading plainly.toLeading, known,
      by simp [Flow.position?, Flow.leading, idxOf?_cons], by rw [liveIn]; rfl, fun s live => ?_⟩
    exact orderly.known_of_live (code ▸ live)
  · have calling : Calling (b.body ++ b.ending) ↔ Calling b.body := by
      simp [Calling.append, b.endBuilt.not_calling]
    have leaf : b.function.isLeaf = true ↔ ¬ Calling (b.body ++ b.ending) := by
      rw [calling]
      simp [Builds.function]
    rw [leaf, Calling]
    push Not
    rfl
  · obtain ⟨t, rfl, -⟩ | sound := orderly.instruction own le_rfl hi
    · cases calls
    · cases sound with
      | call _ takes =>
        refine ⟨_, _, _, _, rfl, fun internal => ?_⟩
        obtain ⟨f, callee, found', rfl, count, rfl⟩ := takes.1 internal
        obtain ⟨-, -, builds⟩ := checked.builds_of_build built
        obtain ⟨c⟩ := builds f callee found'
        exact ⟨_, ((checked.fits built fun _ => 0).named found').trans c.found, count, rfl⟩
      | work other => exact absurd calls other
      | negate | take | give | jump => cases calls
  · obtain ⟨t, rfl, -⟩ | sound := orderly.instruction own le_rfl hi
    · cases has_unary.1 has
    · exact sound.of_has has (.inr ⟨index, rfl⟩)

/-- **Programs are built to well-formed blocks.** -/
theorem wellFormed_of_build {text : List Char} {p : Program} {lir : Lir}
    (accepted : Program.compile text = .ok p) (built : p.build.lir = .ok lir) : lir.WellFormed := by
  have checked := Program.checked_of_compile accepted
  obtain ⟨-, distinct, -⟩ := checked.builds_of_build built
  refine ⟨distinct, fun g f found => ?_, fun g g' f f' b found found' mem mem' => ?_⟩
  · obtain ⟨function, here, b, rfl⟩ := Native.exists_builds checked built found
    exact ⟨b.entry, b.exit, _, b.wellFormed checked built here⟩
  · -- A block notes the function that it was made for.
    have owner {g f} (found : lir.functions[g]? = some f) (mem : b ∈ f.blocks) :
        (lir.blocks[b]?).map Block.function = some g := by
      obtain ⟨function, here, c, rfl⟩ := Native.exists_builds checked built found
      obtain rfl | mem := mem_cons.1 mem
      · exact c.entryOwned
      · obtain rfl := mem_singleton.1 mem
        exact c.exitOwned
    exact Option.mem_unique (owner found mem) (owner found' mem')

theorem wellFormed_changes : ∃ p lir, Program.compile Program.changes = .ok p ∧
    p.build.lir = .ok lir ∧ lir.functions.size = 2 ∧ lir.WellFormed := by
  obtain ⟨p, lir, accepted, built, two⟩ := Program.exists_changes
  exact ⟨p, lir, accepted, built, two, wellFormed_of_build accepted built⟩

end EmLang.Lir
