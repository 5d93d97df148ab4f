import EmLang.Proofs.SavedRegisters

/-!
The stack pointer, from the entry of a function to its `ret`. How far it is below its place at the
entry can be told from the code that has been passed, in which the frame pointer brings it back at
the end; and so it can be told in all runs.
-/

namespace EmLang.Native

open Cpu Lir List Lowering Option Register

variable {strings : Nat → Word} {σ : State} {M : Setting} {code : List (List Instr)} {entry : Word}
  {exit : BlockId} {f : Lir.Function} {front is last rest first : List Instr} {i : Instr}
  {report : FunctionReport} {s s' : Cpu}

/-! ### Following the stack pointer -/

/-- How far the stack pointer is below its place at the entry of the function, and the frame pointer
if that is known. -/
structure Pointers where
  stack : Int
  frame : Option Int

variable {p : Pointers}

namespace Pointers

def sink (p : Pointers) (bytes : Int) : Pointers := { p with stack := p.stack + bytes }

/-- Where the pointers are behind an instruction. -/
def after (p : Pointers) : Instr → Pointers
  | .binary .mov (.reg .rbp) (.reg .rsp) => { p with frame := some p.stack }
  | .binary .mov (.reg .rsp) (.reg .rbp) => { p with stack := p.frame.getD p.stack }
  | .unary .pop (.reg .rbp) => ⟨p.stack - 8, none⟩
  | i => p.sink (sinks i)

def follow (p : Pointers) (code : List Instr) : Pointers := code.foldl after p

/-- The pointers of a machine are where they should be. -/
structure Hold (p : Pointers) (entry : Word) (s : Cpu) : Prop where
  stack : s.reg rsp = entry - BitVec.ofInt 64 p.stack
  frame : ∀ b, p.frame = some b → s.reg rbp = entry - BitVec.ofInt 64 b

@[simp] lemma follow_nil (p : Pointers) : p.follow [] = p := rfl

@[simp] lemma follow_cons (p : Pointers) (i : Instr) (code : List Instr) :
    p.follow (i :: code) = (p.after i).follow code := rfl

@[simp] lemma follow_append (p : Pointers) (code code' : List Instr) :
    p.follow (code ++ code') = (p.follow code).follow code' :=
  foldl_append

end Pointers

/-- An instruction that can be followed. -/
inductive Tracked : Instr → Prop where
  | bodily {i : Instr} (bodily : Bodily True i) : Tracked i
  | enter : Tracked (.binary .mov (.reg rbp) (.reg rsp))
  | leave : Tracked (.binary .mov (.reg rsp) (.reg rbp))
  | restore : Tracked (.unary .pop (.reg rbp))

lemma Bodily.ne_leave (bodily : Bodily True i) : i ≠ .binary .mov (.reg rsp) (.reg rbp) := by
  rintro rfl
  cases bodily with
  | still still => exact (still.working rsp rfl).2 rfl

namespace Pointers

@[simp] lemma sink_zero (p : Pointers) : p.sink 0 = p := by
  rw [sink, add_zero]

lemma sink_sink (p : Pointers) (m n : Int) : (p.sink m).sink n = p.sink (m + n) := by
  simp only [sink, add_assoc]

lemma after_of_bodily (bodily : Bodily True i) : p.after i = p.sink (sinks i) := by
  cases bodily with
  | still still =>
    unfold after
    split
    · exact absurd rfl (still.working rbp rfl).1
    · exact absurd rfl (still.working rsp rfl).2
    · cases still.opcode
    · rfl
  | @pop r working => cases r <;> first | rfl | exact absurd rfl working.1
  | shift form w => obtain rfl | rfl := form <;> rfl
  | push | call => rfl

lemma follow_of_bodily {code : List Instr} (bodily : ∀ i ∈ code, Bodily True i) :
    p.follow code = p.sink (sunk code) := by
  induction code generalizing p with
  | nil => simp
  | cons i code ih =>
    rw [forall_mem_cons] at bodily
    rw [follow_cons, after_of_bodily bodily.1, ih bodily.2, sink_sink, sunk_cons]

lemma Hold.keep (hold : p.Hold entry s) (stack : s'.reg rsp = s.reg rsp)
    (frame : s'.reg rbp = s.reg rbp) : p.Hold entry s' :=
  ⟨stack.trans hold.stack, fun b known => frame.trans (hold.frame b known)⟩

private lemma reg_of_shift {f : Word → Word → Word}
    {exact_ : Int → Int → Int} {w : Int64} (h : s.operate f exact_ (.reg rsp) (.imm w) = .next s') :
    s'.reg = Function.update s.reg rsp (f (s.reg rsp) w.toBitVec) := by
  simp only [operate, isMemory, Bool.false_and, Bool.false_eq_true, if_false, value?] at h
  split_ifs at h
  cases h
  rfl

private lemma add_eight (entry : Word) (n : Int) :
    entry - BitVec.ofInt 64 n + 8 = entry - BitVec.ofInt 64 (n - 8) := by
  rw [sub_eq_add_neg n, BitVec.ofInt_add, ← sub_sub, sub_eq_add_neg _ (BitVec.ofInt 64 (-8))]
  rfl

lemma Hold.step_bodily (hold : p.Hold entry s) (bodily : Bodily True i)
    (performs : s.perform strings i = .next s') : (p.sink (sinks i)).Hold entry s' := by
  cases bodily with
  | still still =>
    have stack := reg_of_perform performs (.inr ⟨rfl, still.opcode⟩) fun named =>
      (still.working rsp named).2 rfl
    have frame := reg_of_perform performs (.inl rfl) fun named => (still.working rbp named).1 rfl
    rw [still.sinks, sink_zero]
    exact hold.keep stack frame
  | push operand =>
    obtain ⟨v, -, rfl⟩ := map_eq_some_iff.1 (Effect.ofOption_eq_next performs)
    refine ⟨?_, fun b known => ?_⟩
    · show (s.push v).reg rsp = entry - BitVec.ofInt 64 (p.stack + 8)
      rw [BitVec.ofInt_add, ← sub_sub, ← hold.stack]
      exact s.reg_set_self rsp _
    · exact (s.reg_set_of_ne (s.reg rsp - 8) (by decide : rbp ≠ rsp)).trans (hold.frame b known)
  | @pop r working =>
    cases performs
    refine ⟨?_, fun b known => ?_⟩
    · rw [pop, reg_set_of_ne _ _ working.2.symm, reg_set_self, hold.stack, add_eight]
      rfl
    · rw [pop, reg_set_of_ne _ _ working.1.symm, reg_set_of_ne _ _ (by decide)]
      exact hold.frame b known
  | shift form w =>
    have bits : w.toBitVec = BitVec.ofInt 64 w.toInt := BitVec.ofInt_toInt.symm
    obtain rfl | rfl := form
    all_goals
      have moved := reg_of_shift performs
      refine ⟨?_, fun b known => by rw [moved, Function.update_of_ne (by decide), hold.frame b known]⟩
    · show s'.reg rsp = entry - BitVec.ofInt 64 (p.stack + -w.toInt)
      rw [moved, Function.update_self, hold.stack, bits, BitVec.ofInt_add, BitVec.ofInt_neg,
        ← sub_sub, sub_neg_eq_add]
    · show s'.reg rsp = entry - BitVec.ofInt 64 (p.stack + w.toInt)
      rw [moved, Function.update_self, hold.stack, bits, BitVec.ofInt_add, sub_sub]
  | call _ operand => cases operand <;> cases performs

lemma Hold.step (hold : p.Hold entry s)
    (tracked : Tracked i) (known : i = .binary .mov (.reg rsp) (.reg rbp) → p.frame ≠ none)
    (performs : s.perform strings i = .next s') : (p.after i).Hold entry s' := by
  cases tracked with
  | bodily bodily =>
    rw [after_of_bodily bodily]
    exact hold.step_bodily bodily performs
  | enter =>
    cases performs
    refine ⟨?_, ?_⟩
    · exact (s.reg_set_of_ne _ (by decide)).trans hold.stack
    · rintro b ⟨⟩
      exact (s.reg_set_self rbp _).trans hold.stack
  | leave =>
    cases performs
    obtain ⟨b, frame⟩ := ne_none_iff_exists'.1 (known rfl)
    refine ⟨?_, fun b known => ?_⟩
    · show (s.set rsp (s.reg rbp)).reg rsp = entry - BitVec.ofInt 64 (p.frame.getD p.stack)
      rw [reg_set_self, hold.frame b frame, frame, getD_some]
    · exact (s.reg_set_of_ne _ (by decide)).trans (hold.frame b known)
  | restore =>
    cases performs
    refine ⟨?_, fun b known => nomatch known⟩
    rw [pop, reg_set_of_ne _ _ (by decide), reg_set_self, hold.stack, add_eight]
    rfl

end Pointers

/-! ### Runs -/

/-- Called functions give back the stack pointer and the frame pointer. -/
def Setting.KeepsPointers (M : Setting) : Prop :=
  ∀ n s, (M.callee n s).reg rsp = s.reg rsp ∧ (M.callee n s).reg rbp = s.reg rbp

/-- Code in which the pointers can be followed from where they are. It is left by jumps to `exit`
where they are at `level`, and by a `ret` where the stack pointer has come back. -/
def Pointers.Tracks (exit : BlockId) (level : Pointers) : Pointers → List Instr → Prop
  | _, [] => True
  | p, i :: rest => (Tracked i ∧ (i = .binary .mov (.reg rsp) (.reg rbp) → p.frame ≠ none) ∧
      (∀ b, i.jumpTarget? = some b → b = exit ∧ p = level) ∧ (i = .nullary .ret → p.stack = 0)) ∧
      Tracks exit level (p.after i) rest

lemma Pointers.tracks_append {code code' : List Instr} {level : Pointers} : Tracks exit level p
    (code ++ code') ↔ Tracks exit level p code ∧ Tracks exit level (p.follow code) code' := by
  induction code generalizing p with
  | nil => simp [Tracks]
  | cons i code ih =>
    rw [cons_append, Tracks, Tracks, ih, follow_cons]
    exact and_assoc.symm

lemma Pointers.tracks_of_plain {code : List Instr}
    {level : Pointers} (tracked : ∀ i ∈ code, Tracked i ∧ i ≠ .binary .mov (.reg rsp) (.reg rbp))
    (plain : ∀ i ∈ code, i.jumpTarget? = none ∧ i ≠ .nullary .ret) : Tracks exit level p code := by
  induction code generalizing p with
  | nil => trivial
  | cons i code ih =>
    rw [forall_mem_cons] at tracked plain
    exact ⟨⟨tracked.1.1, fun leave => absurd leave tracked.1.2, fun b target =>
      (nomatch plain.1.1.symm.trans target), fun ret => absurd ret plain.1.2⟩, ih tracked.2 plain.2⟩

/-- The pointers are where the code that has been passed says. -/
def Progress.Followed (first last : List Instr) (level : Pointers) (entry : Word) : Progress → Prop
  | .running rest s _ => (∃ front, first = front ++ rest ∧ (Pointers.follow ⟨0, none⟩ front).Hold entry s) ∨
      ∃ front, last = front ++ rest ∧ (level.follow front).Hold entry s
  | .returned s _ => s.reg rsp = entry
  | .trapped _ _ | .stuck => True

lemma Progress.Followed.start (first last : List Instr) (level : Pointers) (s : Cpu) :
    Progress.Followed first last level (s.reg rsp) (.running first s []) :=
  .inl ⟨[], rfl, (sub_zero _).symm, nofun⟩

lemma Progress.Followed.advance {level : Pointers} {p : Progress} (keeps : M.KeepsPointers)
    (tracks : Pointers.Tracks exit level ⟨0, none⟩ first)
    (tracks' : Pointers.Tracks exit level level last) (next : M.blocks exit = some last)
    (h : p.Followed first last level entry) : (M.advance p).Followed first last level entry := by
  cases p with
  | running code s calls =>
    cases code with
    | nil => trivial
    | cons i rest =>
      show (M.after rest s calls (s.perform M.strings i)).Followed first last level entry
      -- An instruction that is passed, in either block.
      obtain ⟨p,
          hold, ⟨⟨tracked, known, jumps, returns⟩, -⟩, passes⟩ : ∃ p : Pointers, p.Hold entry s ∧
          Pointers.Tracks exit level p (i :: rest) ∧ ∀ s' calls', (p.after i).Hold entry s' →
          Progress.Followed first last level entry (.running rest s' calls') := by
        obtain ⟨front, rfl, hold⟩ | ⟨front, rfl, hold⟩ := h
        · refine ⟨_, hold, (Pointers.tracks_append.1 tracks).2,
            fun _ _ hold => .inl ⟨front ++ [i], by simp, ?_⟩⟩
          rwa [Pointers.follow_append]
        · refine ⟨_, hold, (Pointers.tracks_append.1 tracks').2,
            fun _ _ hold => .inr ⟨front ++ [i], by simp, ?_⟩⟩
          rwa [Pointers.follow_append]
      have follows := s.perform_follows M.strings i
      cases effect : s.perform M.strings i with
      | next s' => exact passes s' calls (hold.step tracked known effect)
      | call symbol =>
        rw [effect] at follows
        obtain ⟨operand, rfl⟩ := follows
        obtain ⟨stack, frame⟩ := keeps calls.length s
        refine passes _ _ ?_
        rw [show p.after (.unary .call operand) = p from p.sink_zero]
        exact hold.keep stack frame
      | jump b =>
        rw [effect] at follows
        obtain ⟨rfl, rfl⟩ := jumps b follows
        simp only [Setting.after, next]
        exact .inr ⟨[], rfl, hold⟩
      | ret =>
        rw [effect] at follows
        show s.reg rsp = entry
        rw [hold.stack, returns follows]
        exact sub_zero _
      | trap | stuck => trivial
  | returned _ _ | trapped _ _ | stuck => exact h

/-! ### The code of a function -/

/-- Code that keeps its level is balanced, and in a leaf it does not touch the stack at all. -/
lemma Lowering.Level.balanced {code : List Instr} {leaf : Bool} (level : Level leaf σ code)
    (bytes : ∀ call ∈ σ.calls, call.stackBytes ≤ 2147483647) : Balanced code := by
  induction level with
  | nil => exact .of_still (forall_mem_nil _)
  | still still _ ih => exact (Balanced.of_still (forall_mem_singleton.2 still)).append ih
  | call _ known _ ih =>
    refine (balanced_callCode _ _ _ ?_).append ih
    obtain same | ⟨record, made, same⟩ := known
    · rw [same]
      decide
    · exact same ▸ bytes record made

lemma Lowering.Level.still_of_leaf {code : List Instr} (level : Level true σ code) : ∀ i ∈ code, Still i := by
  induction level with
  | nil => exact forall_mem_nil _
  | still still _ ih => exact forall_mem_cons.2 ⟨still, ih⟩
  | call calling _ _ _ => cases calling

/-- The parts of the code of a function: what sets up the frame, the body before the jump to the
end, and what gives the frame up. -/
structure Parts (f : Lir.Function) (exit : BlockId) (code : List (List Instr))
    (report : FunctionReport) (start body finish : List Instr) : Prop where
  code_eq : code = [start ++ (body ++ [.unary .jmp (.block exit)]), finish ++ [.nullary .ret]]
  framed : ∃ saved, prologue? (Homes.of f .empty).2 report.frameSize report.adjustsStack saved = some start ∧
    finish = epilogue report.adjustsStack saved
  starts : ∃ stores, start = enterCode report.frameSize report.adjustsStack ++ stores ∧ ∀ i ∈ stores, Still i
  ends : ∃ loads, finish = loads ++ leaveCode report.adjustsStack ∧ ∀ i ∈ loads, Still i
  plain : ∀ i ∈ start ++ body ++ finish, i.jumpTarget? = none ∧ i ≠ .nullary .ret
  balanced : Balanced body
  leaf : f.isLeaf = true → ∀ i ∈ body, Still i
  words : ∀ i ∈ start ++ body ++ finish, ∀ base o, .mem base o ∈ i.operands → base = rbp ∧ -report.frameSize ≤ o
  adjusts : report.adjustsStack = needsStackAdjustment f.isLeaf report.frameSize
  aligned : 16 ∣ report.frameSize ∧ 0 ≤ report.frameSize

lemma Lowering.Lawful.jumpTarget?_eq_none (h : Lawful σ i) : i.jumpTarget? = none := by
  obtain proper | ⟨⟨divisor, rfl, -⟩, -⟩ := h
  · have plain := proper.plain
    cases i with
    | unary op operand => cases op <;> first | rfl | cases plain
    | _ => rfl
  · rfl

lemma Lowering.Assembly.parts {valued : Bool} (a : Assembly f exit valued is code report)
    (fits : report.Fits f.parameterCount) :
    ∃ start body finish, Parts f exit code report start body finish := by
  obtain ⟨front, σ1, -, ⟨-, -, body, added, coded, -⟩, -, grows, jump⟩ := a.leaves
  have grows' := grows.trans a.grows
  have output : a.ended.output.toList = body ++ [.unary .jmp (.block exit)] := by
    rw [jump, added, a.entered_output]
    rfl
  have bytes := (grows'.reach (a.reach fits)).bytes
  have size := a.frame_le
  have whole := a.final_valid.whole
  have used := a.final_valid.allocation.used
  rw [← a.saved_fst] at used
  have working p (hp : p ∈ a.final.saved) : Working p.1 := by
    have calleeSaved := used.2 p.1 (mem_map_of_mem hp)
    constructor <;> intro same <;> rw [same] at calleeSaved <;> cases calleeSaved
  have inside : ∀ p ∈ a.final.saved ++ a.parameters, -report.frameSize ≤ p.2 := by
    refine forall_mem_append.2 ⟨fun p hp => (a.saved_inside hp).2.1, fun p hp => ?_⟩
    have h := a.parameter_inside hp
    omega
  have stores : ∀ i ∈ (a.final.saved ++ a.parameters).map storeInstr, Still i :=
    forall_mem_map.2 fun p _ => ⟨rfl, by rintro _ ⟨⟩⟩
  have loads : ∀ i ∈ a.final.saved.reverse.map loadInstr, Still i := by
    refine forall_mem_map.2 fun p hp => ⟨rfl, ?_⟩
    rintro r ⟨⟩
    exact working p (mem_reverse.1 hp)
  refine ⟨enterCode report.frameSize report.adjustsStack ++
    (a.final.saved ++ a.parameters).map storeInstr, body, a.final.saved.reverse.map loadInstr ++
    leaveCode report.adjustsStack, ?_, ⟨a.final.saved, ?_, ?_⟩, ⟨_, rfl, stores⟩, ⟨_, rfl, loads⟩,
    ?_, coded.level.balanced bytes, fun leaf => ?_, ?_, ?_, ⟨size.2, by omega⟩⟩
  · rw [← output]
    exact a.code_eq
  · rw [prologue?, a.homed]
    simp only [map_append, ← append_assoc]
    rfl
  · rw [epilogue, leaveCode, append_assoc]
    rfl
  · refine forall_mem_append.2 ⟨forall_mem_append.2 ⟨forall_mem_append.2 ⟨?_, ?_⟩, fun i hi => ?_⟩,
      forall_mem_append.2 ⟨?_, ?_⟩⟩
    · cases report.adjustsStack <;> simp [enterCode, Instr.jumpTarget?]
    · exact forall_mem_map.2 fun p _ => ⟨rfl, by rintro ⟨⟩⟩
    · exact ⟨(coded.lawful i hi).jumpTarget?_eq_none,
        fun same => (coded.lawful i hi).opcode_ne_ret (same ▸ rfl)⟩
    · exact forall_mem_map.2 fun p _ => ⟨rfl, by rintro ⟨⟩⟩
    · cases report.adjustsStack <;> simp [leaveCode, Instr.jumpTarget?]
  · have level := coded.level
    have leaf' : (Env.of f).function.isLeaf = true := leaf
    rw [leaf'] at level
    exact level.still_of_leaf
  · have stored : ∀ p ∈ a.final.saved ++ a.parameters, ∀ base o, .mem base o ∈ [frameWord p.2,
      Operand.reg p.1] → base = rbp ∧ -report.frameSize ≤ o := by
      intro p hp base o mem
      simp only [frameWord, mem_cons, Operand.mem.injEq, reduceCtorEq, not_mem_nil, or_false] at mem
      obtain ⟨rfl, rfl⟩ := mem
      exact ⟨rfl, inside p hp⟩
    refine forall_mem_append.2 ⟨forall_mem_append.2 ⟨forall_mem_append.2 ⟨?_, ?_⟩,
      fun i hi base o mem => ?_⟩, forall_mem_append.2 ⟨?_, ?_⟩⟩
    · cases report.adjustsStack <;> simp [enterCode, Instr.operands]
    · exact forall_mem_map.2 stored
    · have within := (((coded.lawful i hi).within _ mem).grow grows')
      have low := within.2
      exact ⟨within.1, by omega⟩
    · refine forall_mem_map.2 fun p hp base o mem => stored p (mem_append_left _ (mem_reverse.1 hp)) base o ?_
      simp only [loadInstr, Instr.operands, mem_cons, not_mem_nil, or_false] at mem ⊢
      exact mem.symm
    · cases report.adjustsStack <;> simp [leaveCode, Instr.operands]
  · have adjusts : report.adjustsStack = needsStackAdjustment f.isLeaf a.final.frameSize :=
      congrArg FunctionReport.adjustsStack a.report_eq
    rwa [← a.frameSize_eq] at adjusts

/-- How far the pointers are below the entry between the beginning of a function and its end. -/
def FunctionReport.level (report : FunctionReport) : Pointers :=
  ⟨8 + if report.adjustsStack then report.frameSize else 0, some 8⟩

section

variable {start body finish : List Instr}

lemma follow_enterCode {F : Int} (adjusts : Bool) (small : 0 ≤ F ∧ F ≤ 2147483647) :
    Pointers.follow ⟨0, none⟩ (enterCode F adjusts) = ⟨8 + if adjusts then F else 0, some 8⟩ := by
  cases adjusts with
  | false => rfl
  | true =>
    show (⟨8 + (Int64.ofInt F).toInt, some 8⟩ : Pointers) = _
    rw [Int64.toInt_ofInt_of_le (by omega) (by omega), if_pos rfl]

namespace Parts

variable (h : Parts f exit code report start body finish) (fits : report.Fits f.parameterCount)

include h

lemma follow_finish : (report.level.follow finish).stack = 0 := by
  obtain ⟨loads, rfl, still⟩ := h.ends
  rw [Pointers.follow_append, Pointers.follow_of_bodily fun i hi => .still (still i hi),
    sunk_of_still still, Pointers.sink_zero]
  unfold FunctionReport.level
  cases report.adjustsStack <;> rfl

include fits

lemma follow_start : Pointers.follow ⟨0, none⟩ start = report.level := by
  obtain ⟨stores, rfl, still⟩ := h.starts
  rw [Pointers.follow_append, follow_enterCode _ ⟨h.aligned.2, fits.frame⟩,
    Pointers.follow_of_bodily fun i hi => .still (still i hi), sunk_of_still still,
    Pointers.sink_zero]
  rfl

lemma follow_front (same : body = front ++ rest) :
    Pointers.follow ⟨0, none⟩ (start ++ front) = report.level.sink (sunk front) := by
  have bodily := h.balanced.bodily
  rw [same, forall_mem_append] at bodily
  rw [Pointers.follow_append, h.follow_start fits, Pointers.follow_of_bodily bodily.1]

lemma tracks_first : Pointers.Tracks exit report.level ⟨0, none⟩
    (start ++ (body ++ [.unary .jmp (.block exit)])) := by
  obtain ⟨stores, starts, stills⟩ := h.starts
  have plain := h.plain
  simp only [forall_mem_append] at plain
  have first : ∀ i ∈ start, Tracked i ∧ i ≠ .binary .mov (.reg rsp) (.reg rbp) := by
    rw [starts]
    refine forall_mem_append.2 ⟨?_, fun i hi => ⟨.bodily (.still (stills i hi)),
      (Bodily.still (stills i hi)).ne_leave⟩⟩
    have push : Tracked (.unary .push (.reg rbp)) := .bodily (.push _)
    have shift w : Tracked (.binary .sub (.reg rsp) (.imm w)) := .bodily (.shift (.inr rfl) w)
    cases report.adjustsStack <;> simp [enterCode, push, shift, Tracked.enter]
  rw [Pointers.tracks_append, Pointers.tracks_append]
  refine ⟨Pointers.tracks_of_plain first plain.1.1, Pointers.tracks_of_plain (fun i hi =>
    ⟨.bodily (h.balanced.bodily i hi), (h.balanced.bodily i hi).ne_leave⟩) plain.1.2, ⟨.bodily
    (.still ⟨rfl, nofun⟩), nofun, fun b target => ⟨(some.inj target).symm, ?_⟩, nofun⟩, trivial⟩
  rw [← Pointers.follow_append, h.follow_front fits (append_nil body).symm, h.balanced.whole,
    Pointers.sink_zero]

omit fits in
lemma tracks_last : Pointers.Tracks exit report.level report.level (finish ++ [.nullary .ret]) := by
  obtain ⟨loads, ends, stills⟩ := h.ends
  have plain := h.plain
  simp only [forall_mem_append] at plain
  have finished := h.follow_finish
  rw [ends, forall_mem_append] at plain
  rw [Pointers.tracks_append, ends, Pointers.tracks_append, ← ends]
  refine ⟨⟨Pointers.tracks_of_plain (fun i hi => ⟨.bodily (.still (stills i hi)),
    (Bodily.still (stills i hi)).ne_leave⟩) plain.2.1, ?_⟩, ⟨.bodily (.still ⟨rfl, by rintro _ ⟨⟩⟩),
    by rintro ⟨⟩, by rintro _ ⟨⟩, fun _ => finished⟩, trivial⟩
  rw [Pointers.follow_of_bodily fun i hi => .still (stills i hi), sunk_of_still stills, Pointers.sink_zero]
  cases report.adjustsStack <;> simp [leaveCode, Pointers.Tracks, Tracked.leave, Tracked.restore,
    Instr.jumpTarget?, FunctionReport.level]

variable (keeps : M.KeepsPointers) (next : M.blocks exit = some (finish ++ [.nullary .ret]))

include keeps next

lemma followed {q : Progress}
    (run : Leads M.advance (.running (start ++ (body ++ [.unary .jmp (.block exit)])) s []) q) :
    q.Followed (start ++ (body ++ [.unary .jmp (.block exit)]))
    (finish ++ [.nullary .ret]) report.level (s.reg rsp) :=
  run.invariant (.start _ _ _ s) fun _ => .advance keeps (h.tracks_first fits) h.tracks_last next

/-- A run that comes to some place in the body has the pointers where the code before it says. -/
lemma reached {calls : List Call} (same : body = front ++ rest)
    (run : Leads M.advance (.running (start ++ (body ++ [.unary .jmp (.block exit)])) s [])
      (.running (rest ++ [.unary .jmp (.block exit)]) s' calls)) :
    (report.level.sink (sunk front)).Hold (s.reg rsp) s' := by
  obtain ⟨passed, here, hold⟩ | ⟨passed, here, -⟩ := h.followed fits keeps next run
  · have before : passed = start ++ front := by
      rw [same, append_assoc, ← append_assoc start] at here
      exact (append_cancel_right here).symm
    rwa [before, h.follow_front fits same] at hold
  · -- The second block does not end with a jump.
    rw [← append_assoc] at here
    cases (append_inj' here rfl).2

end Parts

/-- In a body that ends with a jump, all other instructions stand before it. -/
private lemma before_jump {front rest : List Instr} {i : Instr}
    (same : body ++ [.unary .jmp (.block exit)] = front ++ i :: rest) (other : i.opcode ≠ .jmp) :
    ∃ rest', rest = rest' ++ [.unary .jmp (.block exit)] ∧ body = front ++ i :: rest' := by
  obtain rfl | ⟨rest', last, rfl⟩ := eq_nil_or_concat rest
  · obtain ⟨-, same⟩ := append_inj' same rfl
    obtain rfl := head_eq_of_cons_eq same
    exact absurd rfl other
  · rw [concat_eq_append, ← cons_append, ← append_assoc] at same
    obtain ⟨same, jump⟩ := append_inj' same rfl
    exact ⟨rest', by rw [concat_eq_append, ← jump], same⟩

lemma aligned_sub {n : Int} (entered : entry.toNat % 16 = 8) (eight : n % 16 = 8) :
    16 ∣ (entry - BitVec.ofInt 64 n).toNat := by
  rw [BitVec.toNat_sub, BitVec.toNat_ofInt]
  omega

end

/-- Code mentions a word of memory. -/
def UsesWord (code : List (List Instr)) (base : Register) (o : Int) : Prop :=
  ∃ is ∈ code, ∃ i ∈ is, Operand.mem base o ∈ i.operands

/-- What holds of the stack pointer in all runs of a function that is entered in a state. Its first
block is `start ++ body`, and `level` is where the stack pointer is when the frame is set up. -/
structure Disciplined (M : Setting) (code : List (List Instr)) (start body : List Instr) (s : Cpu)
    (level : Word) : Prop where
  begun : ∀ s' calls, Leads M.advance (.running (start ++ body) s []) (.running body s' calls) →
    s'.reg rsp = level
  aligned : ∀ operand rest s' calls, Leads M.advance (.running (start ++ body) s [])
    (.running (.unary .call operand :: rest) s' calls) → 16 ∣ (s'.reg rsp).toNat
  cleaned : ∀ front operand rest, start ++ body = front ++ .unary .call operand :: rest →
    ∃ bytes behind, rest = cleanup bytes ++ behind ∧ ∀ s' calls,
    Leads M.advance (.running (start ++ body) s []) (.running behind s' calls) → s'.reg rsp = level
  above : ∀ front i rest s' calls, body = front ++ i :: rest → i.opcode = .push ∨ i.opcode = .call →
    Leads M.advance (.running (start ++ body) s []) (.running (i :: rest) s' calls) → ∃ depth : Nat,
    depth ≤ 2 ^ 33 ∧ s'.reg rsp = s'.reg rbp - BitVec.ofNat 64 depth ∧ ∀ o, UsesWord code rbp o →
    -(depth : Int) ≤ o
  returned : ∀ s' calls, Leads M.advance (.running (start ++ body) s []) (.returned s' calls) →
    s'.reg rsp = s.reg rsp

section

variable {start body finish : List Instr} (h : Parts f exit code report start body finish)

include h

lemma Parts.opcode_start : ∀ i ∈ start, i.opcode ≠ .call := by
  obtain ⟨stores, rfl, still⟩ := h.starts
  refine forall_mem_append.2 ⟨?_, fun i hi => (still i hi).opcode_ne_call⟩
  cases report.adjustsStack <;> simp [enterCode, Instr.opcode]

lemma Parts.opcode_finish : ∀ i ∈ finish ++ [.nullary .ret], i.opcode ≠ .call := by
  obtain ⟨loads, rfl, still⟩ := h.ends
  refine forall_mem_append.2 ⟨forall_mem_append.2 ⟨fun i hi => (still i hi).opcode_ne_call, ?_⟩,
    by simp [Instr.opcode]⟩
  cases report.adjustsStack <;> simp [leaveCode, Instr.opcode]

/-- All calls stand in the body. -/
lemma Parts.call_in_body {operand : Operand}
    (same : start ++ (body ++ [.unary .jmp (.block exit)]) = front ++ .unary .call operand :: rest) :
    ∃ front' rest', front = start ++ front' ∧
    rest = rest' ++ [.unary .jmp (.block exit)] ∧ body = front' ++ .unary .call operand :: rest' := by
  have inside : ∃ front', front = start ++ front' ∧ body ++ [.unary .jmp (.block exit)] = front' ++
      .unary .call operand :: rest := by
    obtain ⟨more, rfl, here⟩ | ⟨more, rfl, here⟩ := append_eq_append_iff.1 same
    · exact ⟨more, rfl, here⟩
    · cases more with
      | nil => exact ⟨[], by simp, here.symm⟩
      | cons i more =>
        obtain ⟨rfl, -⟩ := cons.inj here
        exact absurd rfl (h.opcode_start (.unary .call operand) (by simp))
  obtain ⟨front', rfl, here⟩ := inside
  obtain ⟨rest', rfl, same'⟩ := before_jump here nofun
  exact ⟨front', rest', rfl, rfl, same'⟩

lemma Parts.words_of_code {base : Register} {o : Int} (uses : UsesWord code base o) :
    base = rbp ∧ -report.frameSize ≤ o := by
  obtain ⟨is, mem, i, hi, operand⟩ := uses
  rw [h.code_eq] at mem
  have within := h.words
  simp only [forall_mem_append] at within
  obtain rfl | rfl : is = _ ∨ is = _ := by simpa using mem
  · simp only [mem_append, mem_singleton] at hi
    obtain hi | hi | rfl := hi
    · exact within.1.1 i hi base o operand
    · exact within.1.2 i hi base o operand
    · simp [Instr.operands] at operand
  · simp only [mem_append, mem_singleton] at hi
    obtain hi | rfl := hi
    · exact within.2 i hi base o operand
    · simp [Instr.operands] at operand

/-- Where the prologue does not lower the stack pointer, there is no word below the frame pointer,
or there are no calls and all words are in the red zone. -/
lemma Parts.red_zone (unadjusted : report.adjustsStack = false) : (∀ o, UsesWord code rbp o → 0 ≤ o) ∨
    (∀ is ∈ code, ∀ i ∈ is, i.opcode ≠ .call) ∧ ∀ o, UsesWord code rbp o → -128 ≤ o := by
  have adjusts := h.adjusts.symm.trans unadjusted
  simp only [needsStackAdjustment, Bool.and_eq_false_iff, decide_eq_false_iff_not,
    Bool.not_eq_false', Bool.and_eq_true, decide_eq_true_eq] at adjusts
  obtain empty | ⟨leaf, small⟩ := adjusts
  · refine .inl fun o uses => ?_
    have low := (h.words_of_code uses).2
    omega
  · refine .inr ⟨?_, fun o uses => ?_⟩
    · rw [h.code_eq]
      refine forall_mem_cons.2 ⟨?_, forall_mem_singleton.2 h.opcode_finish⟩
      exact forall_mem_append.2 ⟨h.opcode_start,
        forall_mem_append.2 ⟨fun i hi => (h.leaf leaf i hi).opcode_ne_call, by simp [Instr.opcode]⟩⟩
    · have low := (h.words_of_code uses).2
      have size : redZone = 128 := rfl
      omega

lemma Parts.disciplined (fits : report.Fits f.parameterCount)
    (keeps : M.KeepsPointers) (next : M.blocks exit = some (finish ++ [.nullary .ret]))
    (entered : (s.reg rsp).toNat % 16 = 8) : Disciplined M code start
    (body ++ [.unary .jmp (.block exit)]) s (s.reg rsp - BitVec.ofInt 64 report.level.stack) := by
  have aligned := h.aligned
  have height : report.level.stack = 8 + if report.adjustsStack then report.frameSize else 0 := rfl
  refine ⟨fun s' calls run => ?_, fun operand rest s' calls run => ?_, fun front operand rest same => ?_,
    fun front i rest s' calls same form run => ?_, fun s' calls run => ?_⟩
  · have hold := (h.reached fits keeps next (nil_append body).symm run).stack
    rwa [sunk_nil, Pointers.sink_zero] at hold
  · have followed := h.followed fits keeps next run
    obtain ⟨passed, here, -⟩ | ⟨passed, here, -⟩ := followed
    · obtain ⟨front, rest, rfl, rfl, same⟩ := h.call_in_body here
      have hold := (h.reached fits keeps next same run).stack
      have even := (h.balanced.calls front operand rest same).1
      rw [hold]
      refine aligned_sub entered ?_
      show (report.level.stack + sunk front) % 16 = 8
      split_ifs at height <;> omega
    · exact absurd rfl (h.opcode_finish (.unary .call operand) (here ▸ by simp))
  · obtain ⟨front, rest, rfl, rfl, inside⟩ := h.call_in_body same
    obtain ⟨-, back, behind, rfl⟩ := h.balanced.calls front operand rest inside
    refine ⟨sunk front, behind ++ [.unary .jmp (.block exit)], append_assoc .., fun s' calls run => ?_⟩
    have split : body = (front ++ .unary .call operand :: cleanup (sunk front)) ++ behind := by
      rw [inside, append_assoc, cons_append]
    have hold := (h.reached fits keeps next split run).stack
    have still : sinks (.unary .call operand) = 0 := rfl
    rw [sunk_append, sunk_cons, still, back,
      show sunk front + (0 + -sunk front) = 0 by omega, Pointers.sink_zero] at hold
    exact hold
  · have other : i.opcode ≠ .jmp := by
      obtain form | form := form <;> rw [form] <;> exact nofun
    obtain ⟨rest, rfl, inside⟩ := before_jump same other
    have hold := h.reached fits keeps next inside run
    have part := h.balanced.parts front _ inside
    -- The function is no leaf, so that the stack pointer is below the whole frame.
    have deep : report.level.stack = 8 + report.frameSize := by
      rw [height]
      split_ifs with adjusts
      · rfl
      · have calling : f.isLeaf = false := by
          by_contra leaf
          have opcode := (h.leaf (by simpa using leaf) i (inside ▸ by simp)).opcode
          obtain form | form := form <;> rw [form] at opcode <;> cases opcode
        have adjusts' := h.adjusts
        simp only [adjusts, calling, needsStackAdjustment, Bool.false_and, Bool.not_false,
          Bool.and_true] at adjusts'
        have none := of_decide_eq_false adjusts'.symm
        omega
    refine ⟨(report.frameSize + sunk front).toNat, ?_, ?_, fun o uses => ?_⟩
    · have small := fits.frame
      omega
    · have frame : s'.reg rbp = s.reg rsp - BitVec.ofInt 64 8 := hold.frame 8 rfl
      have stack : s'.reg rsp = s.reg rsp - BitVec.ofInt 64 (report.level.stack + sunk front) := hold.stack
      have depth : BitVec.ofNat 64 (report.frameSize + sunk front).toNat =
          BitVec.ofInt 64 (report.frameSize + sunk front) := by
        rw [← BitVec.ofInt_natCast, Int.toNat_of_nonneg (by omega)]
      rw [stack, frame, depth, deep, add_assoc, BitVec.ofInt_add, sub_sub]
    · have low := (h.words_of_code uses).2
      omega
  · exact h.followed fits keeps next run

end

/-! ### Functions of programs -/

/-- The stack pointer in the code of a function, which is entered with its stack pointer eight below
a multiple of 16: at every call it is a multiple of 16, and behind the clean-up of the call it is
where it was when the frame was set up; at the `ret` it is where it was at the entry. When a value
is pushed or a function is called, all words of the frame that the code uses are above the stack
pointer. A function that does not lower the stack pointer for its frame has no words in it, or it
makes no calls and has them in the red zone. -/
theorem functionCode_disciplined {text : List Char} {p : Program} {lir : Lir}
    (accepted : Program.compile text = .ok p) (built : p.build.lir = .ok lir)
    {g : Nat} {f : Lir.Function} (found : lir.functions[g]? = some f) :
    ∃ code report, functionCode lir g = .ok (f.blocks, code, report) ∧ (report.Fits f.parameterCount →
      (∀ base o, UsesWord code base o → base = rbp) ∧
      (report.adjustsStack = false → (∀ o, UsesWord code rbp o → 0 ≤ o) ∨
        (∀ is ∈ code, ∀ i ∈ is, i.opcode ≠ .call) ∧ ∀ o, UsesWord code rbp o → -128 ≤ o) ∧
      ∃ start body finish,
        (∃ saved,
          prologue? (Homes.of f .empty).2 report.frameSize report.adjustsStack saved = some start ∧
          finish = epilogue report.adjustsStack saved) ∧
        code = [start ++ body, finish ++ [.nullary .ret]] ∧ ∀ strings callee s, (s.reg rsp).toNat % 16 = 8 →
        let M := Setting.of strings f.blocks code callee
        M.KeepsPointers → Disciplined M code start body s
          (s.reg rsp - 8 - BitVec.ofInt 64 (if report.adjustsStack then report.frameSize else 0))) := by
  obtain ⟨entry, exit, is, code, report, blocks, other, atEntry, atExit, lowered, ⟨a⟩⟩ :=
    functionCode_of_built (Program.checked_of_compile accepted) built found
  refine ⟨code, report, lowered, fun fits => ?_⟩
  obtain ⟨start, body, finish, parts⟩ := a.parts fits
  refine ⟨fun base o uses => (parts.words_of_code uses).1, parts.red_zone, start, _, finish,
    parts.framed, parts.code_eq, fun strings callee s entered => ?_⟩
  intro M keeps
  have next : M.blocks exit = some (finish ++ [.nullary .ret]) := by
    simp only [M, blocks, parts.code_eq, Setting.blocks_of, other.symm, if_false, if_true]
  have disciplined := parts.disciplined fits keeps next entered
  rw [FunctionReport.level, BitVec.ofInt_add, ← sub_sub] at disciplined
  exact disciplined

theorem functionCode_disciplined_sevenArguments : ∃ p lir f code report start body finish,
    Program.compile sevenArguments = .ok p ∧ p.build.lir = .ok lir ∧ lir.functions[1]? = some f ∧
    functionCode lir 1 = .ok (f.blocks, code, report) ∧ report.adjustsStack = true ∧
    (∃ is ∈ code, ∃ i ∈ is, i.opcode = .call) ∧ code = [start ++ body, finish ++ [.nullary .ret]] ∧
    Disciplined (Setting.of (fun _ => 0) f.blocks code clobber) code start body
    { sevenEntered with reg := Function.update sevenEntered.reg rsp 4104 }
    (4096 - BitVec.ofInt 64 report.frameSize) := by
  obtain ⟨p, lir, f, blocks, code, report, accepted, built, found, coded, ⟨count, frame, bytes⟩, -,
    adjusts, calls, -⟩ := exists_sevenArguments
  obtain ⟨code', report', coded', disciplined⟩ := functionCode_disciplined accepted built found
  obtain ⟨rfl, rfl, rfl⟩ : f.blocks = blocks ∧ code' = code ∧ report' = report := by
    simpa using coded'.symm.trans coded
  obtain ⟨-, -, start, body, finish, -, both, runs⟩ := disciplined ⟨frame, by rw [count]; decide, bytes⟩
  refine ⟨p, lir, f, code', report', start, body, finish, accepted, built, found, coded', adjusts,
    calls, both, ?_⟩
  have runs' := runs (fun _ => 0) clobber
    { sevenEntered with reg := Function.update sevenEntered.reg rsp 4104 } rfl fun n s => ⟨rfl, rfl⟩
  rw [adjusts, if_pos rfl] at runs'
  exact runs'

end EmLang.Native
