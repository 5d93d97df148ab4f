import EmLang.Proofs.FunctionCode

/-!
The code of a function does what the function does over slots, from its beginning to its `ret`. The
machine is entered with the arguments where the convention says; both make the same calls and stop
at the same division, and at the end the value is in its register and the frame of the caller is as
it was.
-/

namespace EmLang.Native

open Lir List Option Register

variable {exit entry : BlockId} {f : Lir.Function}

/-- All numbers of bytes that instructions of a function are about fit 32 bits. -/
structure FunctionReport.Fits (report : FunctionReport) (parameterCount : Nat) : Prop where
  frame : report.frameSize ≤ 2147483647
  arguments : stackArgumentOffset parameterCount ≤ 2147483647
  calls : ∀ call ∈ report.calls, call.stackBytes ≤ 2147483647

namespace Lowering

variable {valued : Bool} {is first last : List Instr} {code : List (List Instr)}
  {report : FunctionReport} {blocks : BlockId → Option (List Instr)}

/-- All that instructions have to reach is in reach if the report says so. -/
lemma State.reach (σ : State) (fits : (σ.report f).Fits f.parameterCount) : Reach (.of f) σ.frameSize σ :=
  ⟨σ.frame_le.1, Int.dvd_trans (by decide) σ.frame_le.2, fits.frame, fits.arguments, fits.calls⟩

namespace Assembly

variable (a : Assembly f exit valued is code report)

include a

lemma frameSize_eq : report.frameSize = a.final.frameSize := congrArg FunctionReport.frameSize a.report_eq

variable {p : Register × Int}

lemma saved_inside (h : p ∈ a.final.saved) :
    8 ∣ p.2 ∧ -report.frameSize ≤ p.2 ∧ p.2 < -a.final.allocation.frame.size :=
  a.frameSize_eq ▸ a.final_valid.saved_inside h

lemma frame_le : a.final.allocation.frame.size ≤ report.frameSize ∧ 16 ∣ report.frameSize :=
    a.frameSize_eq ▸ a.final.frame_le

lemma saved_fst : a.final.saved.map Prod.fst = a.final.allocation.usedCalleeSaved := a.final.saved_fst

lemma calleeSaved_eq : report.calleeSaved = a.final.saved.map Prod.fst :=
    congrArg FunctionReport.calleeSaved a.report_eq

lemma nodup_saved : (a.final.saved.map Prod.snd).Nodup := a.final.nodup_saved

lemma reach (fits : report.Fits f.parameterCount) : Reach (.of f) report.frameSize a.final :=
  a.frameSize_eq ▸ a.final.reach (a.report_eq ▸ fits)

lemma mem_parameters : p ∈ a.parameters ↔ ∃ k < f.parameterCount, argumentRegisters[k]? = some p.1 ∧
    (Env.of f).homes.offsets[k]? = some p.2 := by
  obtain ⟨parameters, homed, mem⟩ := Homes.registerParameters?_of f a.few
  obtain rfl := mem_unique a.homed homed
  exact mem p.1 p.2

lemma parameter_inside (h : p ∈ a.parameters) : 8 ∣ p.2 ∧ -a.final.allocation.frame.size ≤ p.2 ∧ p.2 < 0 := by
  obtain ⟨k, lt, here, home⟩ := a.mem_parameters.1 h
  have owned : Owned (.of f) a.final p.2 := ⟨.home k, home⟩
  have register : ¬ Homes.OnStack f.parameterCount k := fun onStack =>
    absurd (List.getElem?_eq_some_iff.1 here).1 (Nat.not_lt_of_le onStack.2)
  have inside := a.final_valid.inside owned
  have word := (Homes.home_of f home).word register
  have empty : Frame.empty.size = 0 := rfl
  omega

end Assembly

/-- The frame of a function is set up, and its arguments are in their homes. -/
structure Begun (a : Assembly f exit valued is code report) (arguments : List Word) (s s' : Cpu) : Prop where
  frame : s'.reg rbp = s.reg rsp - 8
  deep : Deep (if report.adjustsStack then report.frameSize else 0) s'
  base : s'.word 0 = s.reg rbp
  back : s'.word 8 = s.memory.load (s.reg rsp)
  saved : ∀ p ∈ a.final.saved, s'.word p.2 = s.reg p.1
  placed : Placed (.of f) a.entered (fun x => arguments[x]?) s'

variable {M : Setting} {s s' : Cpu} {arguments : List Word}

lemma Assembly.begins
    (a : Assembly f exit valued is code report) (fits : report.Fits f.parameterCount)
    (M : Setting) (count : arguments.length = f.parameterCount) (passed : Passed arguments 8 s) :
    ∃ s', Passes M (enterCode report.frameSize report.adjustsStack ++
      (a.final.saved ++ a.parameters).map storeInstr) s s' ∧ Begun a arguments s s' := by
  have whole := a.final_valid.whole
  have size := a.frame_le
  have small := fits.frame
  obtain ⟨s1, enters, entered⟩ := enter_passes M s report.adjustsStack (F := report.frameSize) ⟨by omega, small⟩
  have inside : ∀ p ∈ a.final.saved ++ a.parameters, 8 ∣ p.2 ∧ -report.frameSize ≤ p.2 ∧ p.2 < 0 := by
    refine forall_mem_append.2 ⟨fun p hp => ?_, fun p hp => ?_⟩
    · have h := a.saved_inside hp
      omega
    · have h := a.parameter_inside hp
      omega
  have apart : ∀ p ∈ a.final.saved ++ a.parameters, ∀ q ∈ a.final.saved ++ a.parameters, p.2 = q.2 →
      p.1 = q.1 := by
    intro p hp q hq same
    obtain hp | hp := mem_append.1 hp <;> obtain hq | hq := mem_append.1 hq
    · rw [inj_on_of_nodup_map a.nodup_saved hp hq same]
    · have h := a.saved_inside hp
      have h' := a.parameter_inside hq
      omega
    · have h := a.saved_inside hq
      have h' := a.parameter_inside hp
      omega
    · obtain ⟨k, -, here, home⟩ := a.mem_parameters.1 hp
      obtain ⟨k', -, here', home'⟩ := a.mem_parameters.1 hq
      obtain rfl := Homes.eq_of_home f home (same ▸ home')
      exact mem_unique here here'
  obtain ⟨s', stores, words, keeps⟩ := storeAll_passes (M := M) (s := s1) (l := a.final.saved ++ a.parameters)
    (fun p hp => ⟨(inside p hp).1, by have := inside p hp; omega, by have := inside p hp; omega⟩) apart
  -- Words above the frame pointer are as they were.
  have above : ∀ o, Spaced o → 0 ≤ o → s'.word o = s1.word o := by
    refine fun o spaced le => keeps.word o spaced fun h => ?_
    obtain ⟨p, hp, rfl⟩ := mem_map.1 h
    have := inside p hp
    omega
  have others : ∀ r, r ≠ rbp → r ≠ rsp → s1.reg r = s.reg r := entered.others
  refine ⟨s', enters.append stores, ?_, ?_, ?_, ?_, fun p hp => ?_, ⟨fun {x o v} home value => ?_,
    fun {t place v} location value => ?_⟩⟩
  · rw [keeps.reg rbp id, entered.frame]
  · unfold Deep
    rw [keeps.reg rsp id, keeps.reg rbp id]
    exact entered.deep
  · rw [above 0 ⟨by omega, by omega, by omega⟩ le_rfl, entered.saved]
  · rw [above 8 ⟨by omega, by omega, by omega⟩ (by omega),
      entered.words 8 ⟨by omega, by omega, by omega⟩ (by omega)]
    congr 1
    exact sub_add_cancel _ _
  · rw [words p (mem_append_left _ hp)]
    have calleeSaved := a.final_valid.allocation.used.2 p.1 (a.saved_fst ▸ mem_map_of_mem hp)
    exact others p.1 (fun h => by rw [h] at calleeSaved; cases calleeSaved) fun h =>
      by rw [h] at calleeSaved; cases calleeSaved
  · have lt : x < f.parameterCount := count ▸ (List.getElem?_eq_some_iff.1 value).1
    by_cases register : x < argumentRegisters.length
    · have here : argumentRegisters[x]? = some argumentRegisters[x] := getElem?_eq_getElem register
      have ne := passing_ne (getElem_mem register)
      rw [words (_, o) (mem_append_right _ (a.mem_parameters.2 ⟨x, lt, here, home⟩)), others _ ne.2 ne.1]
      exact passed.registers x _ v here value
    · have onStack : Homes.OnStack f.parameterCount x := ⟨lt, Nat.le_of_not_lt register⟩
      have owned : Owned (.of f) a.final o := ⟨.home x, home⟩
      have spaced := (a.final_valid.near (a.reach fits).room owned).spaced
      have high : o = 16 + 8 * ((x - 6 : Nat) : Int) :=
        ((Homes.home_of f home).stack onStack).trans (Homes.stackArgumentOffset_eq x)
      rw [above o spaced (by omega), entered.words o spaced (by omega),
        ← passed.stack x v onStack.2 value, high]
      congr 1
      have eight : -(8 : Word) = BitVec.ofInt 64 (-8) := by decide
      rw [sub_eq_add_neg, eight, add_assoc, ← BitVec.ofInt_add]
      congr 2
      have six : argumentRegisters.length = 6 := rfl
      omega
  · have temporary : f.declaredCount ≤ t := of_decide_eq_true (a.entered_valid.allocation.temporary location)
    have lt : t < arguments.length := (List.getElem?_eq_some_iff.1 value).1
    exact absurd (count ▸ lt) (Nat.not_lt_of_le (a.few.trans temporary))

/-- Registers that a function has to give back are as they were, and the stack pointer is at the
return address again. -/
structure Restored (registers : List Register) (s s' : Cpu) : Prop where
  registers : ∀ r ∈ registers, s'.reg r = s.reg r
  base : s'.reg rbp = s.reg rbp
  stack : s'.reg rsp = s.reg rsp
  back : s'.memory.load (s'.reg rsp) = s.memory.load (s.reg rsp)

lemma Assembly.ends {s₁ s₂ : Cpu} (a : Assembly f exit valued is code report)
    (fits : report.Fits f.parameterCount) (M : Setting) (begun : Begun a arguments s s₁)
    (keeps : Keeps Working (Touched (.of f) report.frameSize a.final) s₁ s₂) :
    ∃ s', Passes M (a.final.saved.reverse.map loadInstr ++ leaveCode report.adjustsStack) s₂ s' ∧
    s'.reg returnRegister = s₂.reg returnRegister ∧ Restored report.calleeSaved s s' := by
  have whole := a.final_valid.whole
  have size := a.frame_le
  have small := fits.frame
  have listed := a.calleeSaved_eq
  have used := a.final_valid.allocation.used
  rw [← a.saved_fst, ← listed] at used
  have frame : s₂.reg rbp = s₁.reg rbp := keeps.reg rbp fun h => h.1 rfl
  have stack : s₂.reg rsp = s₁.reg rsp := keeps.reg rsp fun h => h.2 rfl
  -- The words of the frame that nobody owns are as they were.
  have high : (Env.of f).top = 16 + 8 * ((f.parameterCount - 6 : Nat) : Int) := Homes.stackArgumentOffset_eq _
  have base : s₂.word 0 = s₁.word 0 ∧ s₂.word 8 = s₁.word 8 := by
    constructor <;> refine keeps.word _ ⟨by omega, by omega, by omega⟩ ?_
    all_goals
      rintro (owned | low | top)
      · have inside := a.final_valid.inside owned
        omega
      · omega
      · omega
  have savedWords p (hp : p ∈ a.final.saved) : s₂.word p.2 = s.reg p.1 := by
    have inside := a.saved_inside hp
    rw [← begun.saved p hp]
    refine keeps.word p.2 ⟨by omega, by omega, by omega⟩ ?_
    rintro (owned | low | top)
    · have inside' := a.final_valid.inside owned
      omega
    · omega
    · omega
  have mem : ∀ {p}, p ∈ a.final.saved.reverse ↔ p ∈ a.final.saved := mem_reverse
  have other r (hr : r ∈ report.calleeSaved) : r ≠ rbp ∧ r ≠ rsp ∧ r ≠ returnRegister := by
    have calleeSaved := used.2 r hr
    refine ⟨?_, ?_, ?_⟩ <;> rintro rfl <;> cases calleeSaved
  obtain ⟨s₃, loads, registers, keeps'⟩ := loadAll_passes
    (M := M) (s := s₂) (l := a.final.saved.reverse) (fun p hp => ⟨(a.saved_inside (mem.1 hp)).1,
    by have := a.saved_inside (mem.1 hp); omega, by have := a.saved_inside (mem.1 hp); omega⟩)
    (by rw [map_reverse, nodup_reverse, ← listed]; exact used.1) fun p hp =>
    (other p.1 (listed ▸ mem_map_of_mem (mem.1 hp))).1
  have same : ∀ r, r ∉ report.calleeSaved → s₃.reg r = s₂.reg r := by
    refine fun r hr => keeps'.reg r fun h => hr ?_
    rwa [map_reverse, mem_reverse, ← listed] at h
  have frame₃ : s₃.reg rbp = s₁.reg rbp := (same rbp fun h => (other _ h).1 rfl).trans frame
  have stack₃ : s₃.reg rsp = s₁.reg rsp := (same rsp fun h => (other _ h).2.1 rfl).trans stack
  obtain ⟨s', leaves, base', stack', memory, others⟩ :=
      leave_passes M s₃ report.adjustsStack fun unadjusted => by
    have deep := begun.deep
    rw [unadjusted] at deep
    rw [stack₃, frame₃, deep]
    exact add_zero _
  have word o (spaced : Spaced o) : s₃.word o = s₂.word o := keeps'.word o spaced id
  have returns : s'.reg rsp = s.reg rsp := by
    rw [stack', frame₃, begun.frame]
    exact sub_add_cancel _ _
  refine ⟨s', loads.append leaves, ?_, fun r hr => ?_, ?_, returns, ?_⟩
  · rw [others _ (by decide) (by decide), same _ fun h => (other _ h).2.2 rfl]
  · have hr' := listed ▸ hr
    obtain ⟨p, hp, rfl⟩ := mem_map.1 hr'
    rw [others _ (other _ hr).1 (other _ hr).2.1, registers p (mem.2 hp), savedWords p hp]
  · rw [base', word 0 ⟨by omega, by omega, by omega⟩, base.1, begun.base]
  · have here : s'.memory.load (s'.reg rsp) = s₃.word 8 := by
      rw [memory, stack']
      rfl
    rw [here, word 8 ⟨by omega, by omega, by omega⟩, base.2, begun.back]

/-- The machine that runs code and the function that it is the code of do the same: they make the
same calls with the same arguments in the same order, and then both return or both stop at the same
division. -/
inductive Alike (M : Setting) (blocks : BlockId → Option (List Instr)) (code : List Instr) (s : Cpu)
    (start : Activation Word) (Q : Option Word → Cpu → Prop) : Prop where
  | returned {s' : Cpu} {result : Option Word} {calls : List Call} {asked : List (Asked Word)}
      (machine : Leads M.advance (.running code s []) (.returned s' calls))
      (slots : ∀ answers, M.Answered calls answers →
        Leads (Stage.advance (words M.strings) blocks answers) (.running start []) (.returned result asked))
      (same : Forall₂ Call.Fits calls asked) (post : Q result s') : Alike M blocks code s start Q
  | trapped {rest rest' : List Instr} {calls : List Call} {asked : List (Asked Word)}
      (machine : Leads M.advance (.running code s []) (.trapped rest calls))
      (slots : ∀ answers, M.Answered calls answers →
        Leads (Stage.advance (words M.strings) blocks answers) (.running start []) (.trapped rest' asked))
      (same : Forall₂ Call.Fits calls asked) (ahead : divisions rest = divisions rest')
      (whole : divisions code = divisions start.code) : Alike M blocks code s start Q

lemma Alike.mono {code : List Instr} {start : Activation Word} {Q R : Option Word → Cpu → Prop}
    (h : Alike M blocks code s start Q) (imp : ∀ result s', Q result s' → R result s') :
    Alike M blocks code s start R := by
  obtain ⟨machine, slots, same, post⟩ | ⟨machine, slots, same, ahead, whole⟩ := h
  · exact .returned machine slots same (imp _ _ post)
  · exact .trapped machine slots same ahead whole

lemma divisions_start (F : Int) (adjusts : Bool) (l : List (Register × Int)) :
    divisions (enterCode F adjusts ++ l.map storeInstr) = 0 := by
  rw [divisions_append, divisions, divisions, countP_map]
  have stores : l.countP ((fun i : Instr => decide (i.opcode = .idiv ∨ i.opcode = .irem)) ∘ storeInstr) = 0 :=
    countP_eq_zero.2 (by rintro _ - ⟨⟩)
  cases adjusts <;> rw [stores] <;> rfl

lemma Assembly.alike (a : Assembly f exit valued is code report) (fits : report.Fits f.parameterCount)
    (count : arguments.length = f.parameterCount) (passed : Passed arguments 8 s)
    (honours : M.Honours (s.reg rsp - 8) (-report.frameSize) (stackArgumentOffset f.parameterCount))
    (both : code = [first, last]) (next : M.blocks exit = some last)
    (ret : blocks exit = some [.nullary .ret]) :
    Alike M blocks first s (.enter is arguments) fun result s' =>
      (valued = true → result = some (s'.reg returnRegister)) ∧ Restored report.calleeSaved s s' := by
  obtain ⟨s1, begins, begun⟩ := a.begins fits M count passed
  obtain ⟨front, σ1, rfl, runs, -, grows, jump⟩ := a.leaves
  have grows' := grows.trans a.grows
  have reach := a.reach fits
  obtain ⟨-, -, body, added, coded, run⟩ := runs
  have calling : f.isLeaf = false → Deep report.frameSize s1 := by
    intro calling
    have deep := begun.deep
    have adjusts : report.adjustsStack = needsStackAdjustment f.isLeaf a.final.frameSize :=
      congrArg FunctionReport.adjustsStack a.report_eq
    have size : report.frameSize = a.final.frameSize := a.frameSize_eq
    rw [calling, ← size] at adjusts
    have positive : 0 ≤ report.frameSize := a.final_valid.whole.2.trans a.frame_le.1
    by_cases empty : report.frameSize = 0
    · rw [empty, ite_self] at deep
      rwa [empty]
    · have adjusted : report.adjustsStack = true := by
        rw [adjusts, needsStackAdjustment]
        simp only [Bool.false_and, Bool.not_false, Bool.and_true, decide_eq_true_eq]
        omega
      rwa [if_pos adjusted] at deep
  have framed : Framed (.of f) report.frameSize M s1 := ⟨begun.frame.symm ▸ honours, calling⟩
  have holds : Holds (.of f) (· < f.parameterCount) a.entered (fun x => arguments[x]?) none s1 := by
    refine ⟨begun.placed, fun x lt => ?_⟩
    have lt' : x < arguments.length := count ▸ lt
    exact ⟨arguments[x], getElem?_eq_getElem lt'⟩
  have parts := both.symm.trans a.code_eq
  obtain ⟨rfl, rest⟩ := cons.inj parts
  obtain ⟨rfl, -⟩ := cons.inj rest
  have begins' : ∀ p, Leads M.advance (.running (body ++ [.unary .jmp (.block exit)]) s1 []) p →
      Leads M.advance (.running (enterCode report.frameSize report.adjustsStack ++
      (a.final.saved ++ a.parameters).map storeInstr ++ a.ended.output.toList) s []) p := by
    intro p leads
    rw [jump, added, a.entered_output]
    exact (begins _ []).trans leads
  obtain ⟨machine, proceeds, keeps, gives, -, same⟩ | ⟨behind, behind', machine, proceeds, ahead, -, same⟩ :=
    run report.frameSize (grows'.reach reach) M s1 _ none [] [] framed holds .nil
  · obtain ⟨s', finishes, value, restored⟩ :=
      a.ends fits M begun (keeps.mono (fun _ => id) fun _ h => h.grow grows')
    refine .returned (begins' _ ((machine _).trans (.head ?_))) (fun answers answered => ?_) same
      ⟨fun valued => (gives valued).trans (congrArg some value.symm), restored⟩
    · simp only [Setting.advance, Cpu.perform, Cpu.unary, Setting.after, next]
      exact (finishes _ _).trans (.of_eq rfl)
    · refine (proceeds [.unary .jmp (.block exit)] blocks answers answered).trans (.head ?_)
      simp only [Stage.advance, Activation.step_cons, Activation.perform_jmp _ _ _ ret]
      exact .of_eq rfl
  · refine .trapped (begins' _ (machine _))
      (fun answers answered => proceeds _ blocks answers answered) same ?_ ?_
    · rw [divisions_append, divisions_append, ahead]
    · rw [jump, added, a.entered_output]
      rw [divisions_append, divisions_start, zero_add]
      show divisions (body ++ [_]) = divisions (front ++ [_])
      rw [divisions_append, divisions_append, coded.divisions]

end Lowering

/-! ### Functions of programs -/

open Lowering

/-- Function number `g` has two blocks of its own, of which the first is straight. -/
structure Plainly (lir : Lir)
    (g : Nat) (f : Lir.Function) (entry exit : BlockId) (front : List Instr) (first last : Block) :
    Prop extends f.Leading lir entry exit front first last where
  other : entry ≠ exit
  straight : ∃ site hi, Straight site f exit f.returnType.hasValue
    (· < f.parameterCount) f.declaredCount first.instructions hi
  few : f.parameterCount ≤ f.declaredCount
  owned : first.function = g ∧ last.function = g

variable {p : Program} {lir : Lir} {g : Nat}

lemma plainly_of_builds {function : Function} (checked : p.Checked)
    (here : p.scope.function? g = some function) (b : Builds p.ast p.scope lir g function) :
    ∃ front first last, Plainly lir g b.function b.entry b.exit front first last ∧
    first.instructions = b.body ++ b.ending := by
  have straight := b.straight checked here
  obtain ⟨first, atEntry, code⟩ := map_eq_some_iff.1 b.entryCode
  obtain ⟨last, atExit, returns⟩ := map_eq_some_iff.1 b.exitCode
  obtain ⟨front, jumps, -⟩ := straight.leaves_last
  have owned := b.entryOwned
  have owned' := b.exitOwned
  rw [atEntry] at owned
  rw [atExit] at owned'
  have other : b.entry ≠ b.exit := by
    intro same
    have codes := b.entryCode.symm.trans (same ▸ b.exitCode)
    rw [jumps] at codes
    exact absurd (congrArg getLast? (some.inj codes)) (by simp)
  rw [← code] at straight
  exact ⟨front, first, last, ⟨⟨rfl, atEntry, atExit, code.trans jumps, returns⟩, other, ⟨_, _, straight⟩,
    (checked.slotted.parameters g _ here).length_le, some.inj owned, some.inj owned'⟩, code⟩

section

variable (checked : p.Checked) (built : p.build.lir = .ok lir) (found : lir.functions[g]? = some f)

include checked built found

/-- Every function of a program that is built comes from a function of the program. -/
lemma exists_builds : ∃ function, p.scope.function? g = some function ∧
      ∃ b : Builds p.ast p.scope lir g function, b.function = f := by
  obtain ⟨count, -, builds⟩ := checked.builds_of_build built
  have lt : g < p.scope.functions.size := count ▸ (Array.getElem?_eq_some_iff.1 found).1
  have here : p.scope.function? g = some p.scope.functions[g] := Array.getElem?_eq_getElem lt
  obtain ⟨b⟩ := builds g _ here
  exact ⟨_, here, b, mem_unique b.found found⟩

lemma plainly_of_built : ∃ entry exit front first last, Plainly lir g f entry exit front first last := by
  obtain ⟨function, here, b, rfl⟩ := exists_builds checked built found
  obtain ⟨front, first, last, plainly, -⟩ := plainly_of_builds checked here b
  exact ⟨b.entry, b.exit, front, first, last, plainly⟩

end

lemma Plainly.functionCode {first last : Block} {front : List Instr}
    (h : Plainly lir g f entry exit front first last) (found : lir.functions[g]? = some f) :
    ∃ code report, Native.functionCode lir g = .ok ([entry, exit], code, report) ∧
    Nonempty (Assembly f exit f.returnType.hasValue first.instructions code report) :=
  let ⟨_, _, straight⟩ := h.straight
  functionCode_of_leading found h.toLeading straight h.few

lemma functionCode_of_built (checked : p.Checked) (built : p.build.lir = .ok lir)
    (found : lir.functions[g]? = some f) : ∃ entry exit is code report, f.blocks = [entry, exit] ∧
    entry ≠ exit ∧ lir.code? entry = some is ∧
    lir.code? exit = some [.nullary .ret] ∧ functionCode lir g = .ok (f.blocks, code, report) ∧
    Nonempty (Assembly f exit f.returnType.hasValue is code report) := by
  obtain ⟨entry, exit, front, first, last, plainly⟩ := plainly_of_built checked built found
  obtain ⟨code, report, lowered, assembly⟩ := plainly.functionCode found
  refine ⟨entry, exit, first.instructions, code, report, plainly.blocks, plainly.other, ?_, ?_,
    plainly.blocks.symm ▸ lowered, assembly⟩
  · rw [code?, plainly.atEntry]
    rfl
  · rw [code?, plainly.atExit, map_some, plainly.returns]

/-- The setting in which the code of a function is run. -/
def Setting.of (strings : Nat → Word) (blocks : List BlockId) (code : List (List Instr))
    (callee : Nat → Cpu → Cpu) : Setting :=
  ⟨strings, fun b => (blocks.zip code).lookup b, callee⟩

lemma Setting.blocks_of (strings : Nat → Word)
    (callee : Nat → Cpu → Cpu) (entry exit : BlockId) (first last : List Instr) (b : BlockId) :
    (Setting.of strings [entry, exit] [first, last] callee).blocks b = if b =
    entry then some first else if b = exit then some last else none := by
  simp only [Setting.of, zip_cons_cons, zip_nil_right]
  split_ifs with atEntry atExit
  · rw [atEntry, lookup_cons_self]
  · rw [lookup_cons, beq_false_of_ne atEntry, atExit, lookup_cons_self]
  · rw [lookup_cons, beq_false_of_ne atEntry, lookup_cons, beq_false_of_ne atExit, lookup_nil]

/-- Every function of a program that is built has code, and the machine that runs it does what the
function does. The first arguments are in registers and the others above the return address; called
functions do as they like, as long as they honour the convention and leave the frame alone. Where
the function returns a value, it is in its register. -/
theorem functionCode_runs_alike {text : List Char} {p : Program} {lir : Lir}
    (accepted : Program.compile text = .ok p) (built : p.build.lir = .ok lir)
    {g : Nat} {f : Lir.Function} (found : lir.functions[g]? = some f) :
    ∃ code report, functionCode lir g = .ok (f.blocks, code, report) ∧
    (report.Fits f.parameterCount → ∀ strings callee arguments s, arguments.length =
      f.parameterCount → Passed arguments 8 s → let M := Setting.of strings f.blocks code callee
      M.Honours (s.reg rsp - 8) (-report.frameSize) (stackArgumentOffset f.parameterCount) → ∃ first
      is, f.blocks.head?.bind M.blocks = some first ∧ f.blocks.head?.bind lir.code? = some is ∧
      Alike M lir.code? first s (.enter is arguments) fun result s' =>
            f.returnType.hasValue = true → result = some (s'.reg returnRegister)) := by
  obtain ⟨entry, exit, is, code, report, blocks, other, atEntry, atExit, lowered, ⟨a⟩⟩ :=
    functionCode_of_built (Program.checked_of_compile accepted) built found
  refine ⟨code, report, lowered, fun fits strings callee arguments s count passed => ?_⟩
  intro M honours
  obtain ⟨first, last, both⟩ : ∃ first last, code = [first, last] := ⟨_, _, a.code_eq⟩
  have starts : M.blocks entry = some first := by
    simp only [M, blocks, both, Setting.blocks_of, if_true]
  have next : M.blocks exit = some last := by
    simp only [M, blocks, both, Setting.blocks_of, other.symm, if_false, if_true]
  refine ⟨first, is, by rw [blocks]; exact starts, by rw [blocks]; exact atEntry, ?_⟩
  exact (a.alike fits count passed honours both next atExit).mono fun _ _ post => post.1

/-- Whether a text is compiled and built, and function number `g` of it is lowered to code for which
a check succeeds. -/
def lowersTo (text : List Char) (g : Nat)
    (check : Lir.Function → List (List Instr) → FunctionReport → Bool) : Bool :=
  match Program.compile text with
  | .error _ => false
  | .ok p =>
    match p.build.lir with
    | .error _ => false
    | .ok lir =>
      match lir.functions[g]?, functionCode lir g with
      | some f, .ok (_, code, report) => check f code report
      | _, _ => false

lemma exists_of_lowersTo
    {text : List Char} {P : Lir.Function → List (List Instr) → FunctionReport → Prop}
    [∀ f code report, Decidable (P f code report)]
    (h : lowersTo text g (fun f code report => P f code report) = true) :
    ∃ p lir f blocks code report, Program.compile text = .ok p ∧
    p.build.lir = .ok lir ∧ lir.functions[g]? = some f ∧
    functionCode lir g = .ok (blocks, code, report) ∧ P f code report := by
  unfold lowersTo at h
  split at h
  · cases h
  · next p accepted =>
    split at h
    · cases h
    · next lir built =>
      split at h
      · next f blocks code report found coded => exact ⟨p, lir, f, blocks, code, report, accepted,
          built, found, coded, of_decide_eq_true h⟩
      · cases h

/-- A function with a stack argument, two divisions and a call of itself, in which registers run
short. -/
def sevenArguments : List Char :=
  ("fx mix(a: int, b: int, c: int, d: int, e: int, f: int, g: int) -> int \x7b let m: int = a / b; " ++
    "return g + (a + (b * (c - (d + (e - (f * (g - (a + (b + (mix(g, f, e, d, c, b, a) % m)))))))))); \x7d").toList

/-- What the proofs need of it. The text is evaluated only here. -/
lemma exists_sevenArguments :
    ∃ p lir f blocks code report, Program.compile sevenArguments = .ok p ∧ p.build.lir = .ok lir ∧
    lir.functions[1]? = some f ∧ functionCode lir 1 = .ok (blocks, code, report) ∧
    (f.parameterCount = 7 ∧ report.frameSize ≤ 2147483647 ∧ ∀ call ∈ report.calls, call.stackBytes ≤
      2147483647) ∧ report.calleeSaved = [rbx, r12, r13, r14] ∧ report.adjustsStack = true ∧
    (∃ is ∈ code, ∃ i ∈ is, i.opcode = .call) ∧ ∃ call ∈ report.calls, call.saved ≠ [] := by
  rw [show sevenArguments = _ from Token.toList_ofList_append ..]
  apply exists_of_lowersTo
  decide +kernel

/-- The state in which such a function is entered with seven words. -/
def sevenEntered : Cpu where
  reg
    | .rdi => 40
    | .rsi => 7
    | .rdx => 3
    | .rcx => 4
    | .r8 => 5
    | .r9 => 6
    | .rsp => 4096
    | _ => 0
  flags := ⟨false, false, false⟩
  memory := Memory.store (fun _ => 0) 4104 9

/-- A called function that changes all registers it may change. -/
def clobber (n : Nat) (s : Cpu) : Cpu :=
  { s with reg := fun r => if isCallerSaved r then BitVec.ofNat 64 n + 1 else s.reg r }

lemma honours_clobber (strings : Nat → Word)
    (blocks : List BlockId) (code : List (List Instr)) (frame : Word) (low high : Int) :
    (Setting.of strings blocks code clobber).Honours frame low high := by
  refine ⟨fun n s r kept => ?_, fun n s o _ _ _ _ => rfl⟩
  have caller : isCallerSaved r = false := by
    revert kept
    cases r <;> decide
  exact if_neg (caller ▸ Bool.false_ne_true)

theorem functionCode_runs_alike_sevenArguments : ∃ p lir f code report, Program.compile sevenArguments = .ok p ∧
    p.build.lir = .ok lir ∧ lir.functions[1]? = some f ∧ functionCode lir 1 = .ok (f.blocks, code, report) ∧
    let M := Setting.of (fun _ => 0) f.blocks code clobber
    ∃ first is, f.blocks.head?.bind M.blocks = some first ∧ f.blocks.head?.bind lir.code? = some is ∧
      Alike M lir.code? first sevenEntered (.enter is [40, 7, 3, 4, 5, 6, 9]) fun result s' =>
        f.returnType.hasValue = true → result = some (s'.reg returnRegister) := by
  have passed : Passed [40, 7, 3, 4, 5, 6, 9] 8 sevenEntered := by
    refine ⟨fun k r w here value => ?_, fun k w high value => ?_⟩
    · match k, here, value with
      | 0, rfl, rfl | 1, rfl, rfl | 2, rfl, rfl | 3, rfl, rfl | 4, rfl, rfl | 5, rfl, rfl => rfl
    · match k, high, value with
      | 6, _, rfl => exact Memory.load_store
  obtain ⟨p, lir, f, blocks, code, report, accepted, built, found, coded, ⟨count, frame, bytes⟩,
    -⟩ := exists_sevenArguments
  obtain ⟨code', report', coded', alike⟩ := functionCode_runs_alike accepted built found
  obtain ⟨rfl, rfl, rfl⟩ : f.blocks = blocks ∧ code' = code ∧ report' = report := by
    simpa using coded'.symm.trans coded
  exact ⟨p, lir, f, code', report', accepted, built, found, coded',
    alike ⟨frame, by rw [count]; decide, bytes⟩ _ _ _ _ count.symm passed (honours_clobber ..)⟩

end EmLang.Native
