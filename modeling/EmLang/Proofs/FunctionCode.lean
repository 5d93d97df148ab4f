import EmLang.Native.Program
import EmLang.Proofs.FrameSetup
import EmLang.Proofs.LoweredCode

/-!
The code of a whole function. A function of two blocks, of which the first is straight and jumps to
the second, which only returns, always has code: its frame is set up, then comes the code of the
first block, and the second gives up the frame and returns.
-/

namespace EmLang.Lir

open List Liveness

variable {lir : Lir} {f : Function} {entry exit : BlockId} {front : List Instr} {first last : Block}

/-- A function of two blocks, of which the first jumps to the second and that returns. -/
structure Function.Leading (lir : Lir) (f : Function) (entry exit : BlockId) (front : List Instr)
    (first last : Block) : Prop where
  blocks : f.blocks = [entry, exit]
  atEntry : lir.blocks[entry]? = some first
  atExit : lir.blocks[exit]? = some last
  jumps : first.instructions = front ++ [.unary .jmp (.block exit)]
  returns : last.instructions = [.nullary .ret]

/-- The flow of control from the first of two blocks to the second. -/
def Flow.leading (entry exit : BlockId) : Flow := ⟨[entry, exit], [[1], []], [[], [0]]⟩

variable (h : f.Leading lir entry exit front first last)

include h

lemma Flow.of_leading : Flow.of lir f = .ok (.leading entry exit) := by
  have jumps : first.terminator? = some (.unary .jmp (.block exit)) := by
    rw [Block.terminator?, h.jumps, getLast?_concat]
    rfl
  have returns : last.terminator? = some (.nullary .ret) := by
    rw [Block.terminator?, h.returns]
    rfl
  have position : lastPosition? f.blocks exit = some 1 := by
    rw [h.blocks]
    simp [lastPosition?]
  have next : successorsOf lir f entry 0 = .ok [1] := by
    have leads : jumpPosition f entry (.unary .jmp (.block exit)) = .ok 1 := by
      simp only [jumpPosition, Instr.jumpTarget?, position]
    unfold successorsOf
    rw [getBlock, h.atEntry]
    dsimp only [bind, Except.bind]
    rw [jumps]
    show (jumpPosition f entry (.unary .jmp (.block exit)) >>= fun p => pure [p]) = _
    rw [leads]
    rfl
  have none : successorsOf lir f exit 1 = .ok [] := by
    unfold successorsOf
    rw [getBlock, h.atExit]
    dsimp only [bind, Except.bind]
    rw [returns]
    rfl
  unfold Flow.of
  rw [h.blocks]
  simp only [zipIdx_cons, zipIdx_nil, mapM_cons, mapM_nil, zero_add, next, none]
  rfl

lemma Liveness.of_leading : ∃ liveness, of lir f (.leading entry exit) = .ok liveness ∧
    liveness.liveIn = [liveAtStart ∅ first.instructions, ∅] ∧ liveness.liveOut.getD 0 ∅ = ∅ ∧
    liveness.liveAfter.getD 0 [] = liveAfterEach ∅ first.instructions ∧
    ∃ live, liveness.liveAfter.getD 1 [] = [live] := by
  have none : (∅ : LiveSet).subset ∅ = true := by simp [LiveSet.subset]
  have less (live : LiveSet) : (∅ : LiveSet).subset live = true := by simp [LiveSet.subset]
  have code : ((Flow.leading entry exit).blocks.mapM fun b => do return (← lir.getBlock b).instructions) =
      .ok [first.instructions, last.instructions] := by
    simp only [Flow.leading, mapM_cons, mapM_nil, getBlock, h.atEntry, h.atExit]
    rfl
  have limit : ∃ n, limit f (.leading entry exit) = n + 2 :=
    ⟨2 * f.slotCount, by simp [limit, Flow.leading]; omega⟩
  obtain ⟨n, limit⟩ := limit
  -- First the block that returns, before which nothing is live, and then the one that jumps to it.
  have exits : step f (.leading entry exit) [first.instructions, last.instructions] ⟨[∅, ∅], [∅, ∅],
      [0], []⟩ 1 = .ok ⟨[∅, ∅], [∅, ∅], [0], [(1, ∅)]⟩ := by
    have live : liveAtStart ∅ last.instructions = ∅ := by
      rw [h.returns]
      rfl
    have fed : feed ∅ ⟨[∅, ∅], [∅, ∅], [0], [(1, ∅)]⟩ 0 = ⟨[∅, ∅], [∅, ∅], [0], [(1, ∅)]⟩ := by
      unfold feed
      exact if_pos none
    unfold step
    simp only [getD_cons_succ, getD_cons_zero, live, none, if_true, Flow.leading, nil_append, foldl_cons,
      foldl_nil, fed, set_cons_succ, set_cons_zero]
  have enters : step f (.leading entry exit) [first.instructions, last.instructions] ⟨[∅, ∅],
      [∅, ∅], [], [(1, ∅)]⟩ 0 = .ok ⟨[liveAtStart ∅ first.instructions, ∅], [∅, ∅], [],
      [(1, ∅), (0, liveAtStart ∅ first.instructions)]⟩ := by
    unfold step
    simp only [getD_cons_zero, less, if_true, Flow.leading, foldl_nil, set_cons_zero, cons_append, nil_append]
  have ends : iterate f (.leading entry exit) [first.instructions,
      last.instructions] (n + 2) (n + 2) (start 2) = .ok ⟨[liveAtStart ∅ first.instructions, ∅],
      [∅, ∅], [], [(1, ∅), (0, liveAtStart ∅ first.instructions)]⟩ := by
    have begins : start 2 = ⟨[∅, ∅], [∅, ∅], [1, 0], []⟩ := rfl
    rw [begins, iterate]
    dsimp only
    rw [exits]
    show iterate f _ _ _ (n + 1) ⟨[∅, ∅], [∅, ∅], [0], [(1, ∅)]⟩ = _
    rw [iterate]
    dsimp only
    rw [enters]
    show iterate f _ _ _ n ⟨_, _, [], _⟩ = _
    rw [iterate]
  have found : of lir f (.leading entry exit) = .ok ⟨[liveAtStart ∅ first.instructions, ∅],
      [∅, ∅], [liveAfterEach ∅ first.instructions, liveAfterEach ∅ last.instructions], 2,
      [(1, ∅), (0, liveAtStart ∅ first.instructions)]⟩ := by
    unfold of
    rw [code, limit]
    show (iterate f _ _ (n + 2) (n + 2) (start 2) >>= _) = _
    rw [ends]
    rfl
  exact ⟨_, found, rfl, rfl, rfl, liveAtStart ∅ [], by rw [h.returns]; rfl⟩

end EmLang.Lir

namespace EmLang.Native

open Lir List Option Register

variable {f : Lir.Function} {front : List Instr} {hi : Slot} {site : Site} {valued : Bool}

namespace Lowering

variable {env : Env} {σ σ' : State} {is start : List Instr}

/-- At the start of a block nothing is in a register, and what is live is in words of the frame. -/
lemma enterBlock_lowers (valid : Valid env σ) (live : LiveSet) :
    Lowers (enterBlock env live) σ fun _ σ' => Valid env σ' ∧ Grows env σ σ' ∧
    σ'.output = σ.output ∧ (∀ t r, σ'.allocation.location? t ≠ some (.register r)) ∧
    ∀ t ∈ live, env.function.isTemporary t = true → σ'.allocation.location? t ≠ none := by
  have places : ∀ (slots : List Slot) {σ : State},
    (∀ t ∈ slots, env.function.isTemporary t = true) → Valid env σ →
    (∀ t r, σ.allocation.location? t ≠ some (.register r)) → Lowers (slots.forM fun t =>
    modifyAllocation fun a => (a.spillSlot t).1.moveToStack t (a.spillSlot t).2) σ fun _ σ' =>
        Valid env σ' ∧ Grows env σ σ' ∧ σ'.output = σ.output ∧ (∀ t r, σ'.allocation.location? t ≠
          some (.register r)) ∧ Stays σ σ' ∧ ∀ t ∈ slots, σ'.allocation.location? t ≠ none := by
    intro slots
    induction slots with
    | nil => exact fun _ valid empty => lowers_pure.2 ⟨valid, .refl _, rfl, empty, fun _ => id,
        forall_mem_nil _⟩
    | cons t slots ih =>
      intro σ temporary valid empty
      rw [forall_mem_cons] at temporary
      show Lowers (modifyAllocation _ >>= fun _ => slots.forM _) σ _
      rw [lowers_bind, lowers_modifyAllocation]
      cases spills : σ.allocation.spillSlot t with
      | mk a o =>
        obtain ⟨valid1, grows1, here, others⟩ := valid.stack spills temporary.1 σ.output
        have empty1 : ∀ u r, (a.moveToStack t o).location? u ≠ some (.register r) := by
          intro u r h
          by_cases same : u = t
          · cases here.symm.trans (same ▸ h)
          · exact empty u r ((others u same).symm.trans h)
        refine (ih temporary.2 valid1 empty1).mono ?_
        rintro _ σ' ⟨valid', grows', output, empty', stays, located⟩
        exact ⟨valid', grows1.trans grows',
          output, empty', fun u hu => stays u (Stays.of_others here others u hu),
          forall_mem_cons.2 ⟨stays t (here ▸ some_ne_none _), located⟩⟩
  have clears := forget_emits valid valid.allocation.clear
  refine (places _ (fun t h => (mem_filter.1 h).2) clears.valid fun t r h =>
    (valid.allocation.clear.location.1 h).2 r rfl ?_).mono ?_
  · exact ⟨t, valid.allocation.occupant_iff.2 (valid.allocation.clear.location.1 h).1⟩
  · rintro _ σ' ⟨valid', grows', output, empty, _, located⟩
    refine ⟨valid', clears.grows.trans grows', output, empty, fun t alive temporary => ?_⟩
    exact located t (mem_filter.2 ⟨Std.ExtTreeSet.mem_toList.2 alive, temporary⟩)

lemma lowers_modifyGet {α : Type} {g : State → α × State} {Q : α → State → Prop} :
    Lowers (modifyGet g) σ Q ↔ Q (g σ).1 (g σ).2 := by
  constructor
  · rintro ⟨a, σ', run, post⟩
    have result : g σ = (a, σ') := Except.ok.inj run
    rwa [result]
  · exact fun post => ⟨(g σ).1, (g σ).2, rfl, post⟩

/-- The state with no code yet for the next block. -/
def State.cut (σ : State) : State := { σ with output := #[] }

lemma cut_spec (valid : Valid env σ) : Valid env σ.cut ∧ Grows env σ σ.cut :=
  valid.update #[] valid.allocation rfl rfl fun _ => id

variable {exit : BlockId} {liveness : Liveness} {block : Block} {p : Register × Int}

lemma lowerFirst_lowers
    (straight : Straight site f exit valued (· < f.parameterCount) f.declaredCount block.instructions hi)
    (few : f.parameterCount ≤ f.declaredCount)
    (jumps : block.instructions = front ++ [.unary .jmp (.block exit)])
    (out : liveness.liveOut.getD 0 ∅ = ∅)
    (after : liveness.liveAfter.getD 0 [] = liveAfterEach ∅ block.instructions) :
    Lowers (lowerBlock (.of f) liveness block 0) (.start f) fun code σ' =>
    ∃ entered ended, Valid (.of f) entered ∧ entered.output = #[] ∧
    Leaves (.of f) exit valued (· < f.parameterCount) block.instructions entered ended ∧
    code = ended.output.toList ∧ σ' = ended.cut := by
  have terminated : block.terminator?.isNone = false := by
    rw [Block.terminator?, jumps, getLast?_concat]
    rfl
  simp only [lowerBlock, lowers_bind, out, after, terminated, Bool.false_eq_true, if_false, lowers_modifyGet]
  refine (enterBlock_lowers (start_valid f) _).mono fun _ entered ⟨valid, _, output, _⟩ => ?_
  have located : Located (.of f) (· < f.parameterCount) (liveAtStart ∅ block.instructions) entered := by
    intro t lt temporary
    have high : f.declaredCount ≤ t := of_decide_eq_true temporary
    exact absurd (few.trans high) (Nat.not_le_of_lt lt)
  refine (straight_lowers valid straight located).mono fun _ ended leaves => ?_
  exact ⟨entered, ended, valid, output, leaves, rfl, rfl⟩

lemma lowerLast_lowers {live : LiveSet}
    (valid : Valid env σ) (output : σ.output = #[]) (returns : block.instructions = [.nullary .ret])
    (after : liveness.liveAfter.getD 1 [] = [live]) : Lowers (lowerBlock env liveness block 1) σ
    fun code σ' => code = [.nullary .ret] ∧ Valid env σ' ∧ Grows env σ σ' := by
  have terminated : block.terminator?.isNone = false := by
    rw [Block.terminator?, returns]
    rfl
  have plain : ([] : List Operand).any Operand.isVirtual = false := rfl
  simp only [lowerBlock, lowers_bind, after, terminated, Bool.false_eq_true, if_false, lowers_modifyGet]
  refine (enterBlock_lowers valid _).mono fun _ σ1 ⟨valid1, grows1, output1, _⟩ => ?_
  simp only [returns, zip_cons_cons, zip_nil_right, lowerInstrs, lowerInstr, Instr.operands, plain,
    Bool.false_eq_true, if_false, lowers_bind, lowers_pure, lowers_emit, lowers_modifyAllocation]
  have releases := valid1.allocation.releaseDead live
  obtain ⟨valid', grows⟩ := valid1.empty releases #[]
  refine ⟨?_, valid', grows1.trans grows⟩
  simp [State.add, output1, output]

/-! ### The frame around the blocks -/

/-- The registers that a function gives back, with their words. -/
def State.saved (σ : State) : List (Register × Int) :=
  (σ.allocation.frame.allocateAll σ.allocation.usedCalleeSaved).2

def State.frameSize (σ : State) : Int :=
  (σ.allocation.frame.allocateAll σ.allocation.usedCalleeSaved).1.alignedSize

/-- The report on a function, all of which is lowered. -/
def State.report (σ : State) (f : Lir.Function) : FunctionReport where
  name := f.name
  frameSize := σ.frameSize
  adjustsStack := needsStackAdjustment f.isLeaf σ.frameSize
  calleeSaved := σ.saved.map Prod.fst
  calls := σ.calls

lemma State.handing_saved (σ : State) : Frame.Handing σ.allocation.frame
    (σ.allocation.frame.allocateAll σ.allocation.usedCalleeSaved).1 σ.allocation.usedCalleeSaved σ.saved :=
  Frame.handing_allocateAll ..

lemma State.saved_fst (σ : State) : σ.saved.map Prod.fst = σ.allocation.usedCalleeSaved :=
    σ.handing_saved.owners

lemma State.nodup_saved (σ : State) : (σ.saved.map Prod.snd).Nodup :=
  pairwise_map.2 (σ.handing_saved.below.imp fun h => h.ne')

lemma State.frame_le (σ : State) : σ.allocation.frame.size ≤ σ.frameSize ∧ 16 ∣ σ.frameSize := by
  have size := σ.handing_saved.size
  have aligned := (σ.allocation.frame.allocateAll σ.allocation.usedCalleeSaved).1.alignedSize_spec
  have same : σ.frameSize = Frame.alignedSize _ := rfl
  omega

/-- The words of saved registers lie between the words in use and the end of the frame. -/
lemma Valid.saved_inside (valid : Valid env σ) (h : p ∈ σ.saved) :
    8 ∣ p.2 ∧ -σ.frameSize ≤ p.2 ∧ p.2 < -σ.allocation.frame.size := by
  have inside := σ.handing_saved.inside p h
  have aligned := (σ.allocation.frame.allocateAll σ.allocation.usedCalleeSaved).1.alignedSize_spec
  have whole := valid.whole
  have same : σ.frameSize = Frame.alignedSize _ := rfl
  omega

/-- How the code of a function is put together, whose first block has the instructions `is`. -/
structure Assembly (f : Lir.Function) (exit : BlockId) (valued : Bool) (is : List Instr)
    (code : List (List Instr)) (report : FunctionReport) where
  entered : State
  ended : State
  final : State
  /-- The parameters that come in registers, with their homes. -/
  parameters : List (Register × Int)
  few : f.parameterCount ≤ f.declaredCount
  entered_valid : Valid (.of f) entered
  entered_output : entered.output = #[]
  leaves : Leaves (.of f) exit valued (· < f.parameterCount) is entered ended
  final_valid : Valid (.of f) final
  grows : Grows (.of f) ended final
  homed : (Homes.of f .empty).2.registerParameters? = some parameters
  report_eq : report = final.report f
  code_eq : code = [enterCode report.frameSize report.adjustsStack ++
    (final.saved ++ parameters).map storeInstr ++ ended.output.toList,
    final.saved.reverse.map loadInstr ++ leaveCode report.adjustsStack ++ [.nullary .ret]]

/-- The epilogue stands only before returns. -/
lemma withEpilogue_of_forall (none : ∀ i ∈ is, i.opcode ≠ .ret) : withEpilogue start is = is := by
  induction is with
  | nil => rfl
  | cons i is ih =>
    rw [forall_mem_cons] at none
    rw [withEpilogue, flatMap_cons, if_neg none.1]
    exact congrArg (i :: ·) (ih none.2)

lemma opcode_ne_ret_of_leaves {D : Slot → Prop} (output : σ.output = #[])
    (leaves : Leaves env exit valued D is σ σ') : ∀ i ∈ σ'.output.toList, i.opcode ≠ .ret := by
  obtain ⟨front, σ1, -, ⟨-, -, code, added, coded, -⟩, -, -, jump⟩ := leaves
  rw [jump, added, output, forall_mem_append]
  exact ⟨fun i hi => (coded.lawful i (by simpa using hi)).opcode_ne_ret, by simp [Instr.opcode]⟩

lemma opcode_ne_ret_of_start {F : Int} {adjusts : Bool} {l : List (Register × Int)} :
    ∀ i ∈ enterCode F adjusts ++ l.map storeInstr, i.opcode ≠ .ret := by
  rw [forall_mem_append, List.forall_mem_map]
  refine ⟨fun i hi => ?_, by rintro _ - ⟨⟩⟩
  cases adjusts <;> simp [enterCode] at hi <;> rcases hi with rfl | rfl | rfl <;> rintro ⟨⟩

end Lowering

open Lowering

variable {lir : Lir} {entry exit : BlockId} {first last : Block}

lemma functionCode_of_leading {g : Nat} (found : lir.functions[g]? = some f)
    (leading : f.Leading lir entry exit front first last) (straight : Straight site f exit valued
      (· < f.parameterCount) f.declaredCount first.instructions hi) (few : f.parameterCount ≤
      f.declaredCount) : ∃ code report, functionCode lir g = .ok ([entry, exit], code, report) ∧
    Nonempty (Assembly f exit valued first.instructions code report) := by
  obtain ⟨liveness, known, -, out, after, live, after'⟩ := Liveness.of_leading leading
  obtain ⟨parameters, homed, -⟩ := Homes.registerParameters?_of f few
  have lowers : Lowers (lowerBlocks (.of f) liveness [first, last]) (.start f) fun result _ =>
      Nonempty (Assembly f exit valued first.instructions result.1 result.2) := by
    simp only [lowerBlocks, zipIdx_cons, zipIdx_nil, mapM_cons, mapM_nil, lowers_bind, lowers_pure,
      zero_add, lowers_get]
    refine (lowerFirst_lowers straight few leading.jumps out after).mono ?_
    rintro _ _ ⟨entered, ended, valid, output, leaves, rfl, rfl⟩
    obtain ⟨-, -, -, -, ended_valid, -⟩ := id leaves
    obtain ⟨cut_valid, cut_grows⟩ := cut_spec ended_valid
    refine (lowerLast_lowers cut_valid rfl leading.returns after').mono ?_
    rintro _ final ⟨rfl, final_valid, grows⟩
    have start : prologue? (Env.of f).homes final.frameSize
        (needsStackAdjustment f.isLeaf final.frameSize) final.saved =
        some (enterCode final.frameSize (needsStackAdjustment f.isLeaf final.frameSize) ++
        (final.saved ++ parameters).map storeInstr) := by
      rw [prologue?, show (Env.of f).homes.registerParameters? = some parameters from homed]
      simp only [map_append, ← append_assoc]
      rfl
    split
    case h_2 none => cases none.symm.trans start
    case h_1 code given =>
      obtain rfl := mem_unique given start
      simp only [lowers_bind, lowers_pure]
      refine ⟨⟨entered, ended, final, parameters, few, valid, output, leaves, final_valid,
        cut_grows.trans grows, homed, rfl, ?_⟩⟩
      rw [map_cons, map_cons, withEpilogue_of_forall (forall_mem_append.2 ⟨opcode_ne_ret_of_start,
        opcode_ne_ret_of_leaves output leaves⟩)]
      simp only [withEpilogue, flatMap_cons, flatMap_nil, Instr.opcode, if_true, map_nil, append_nil]
      rw [epilogue, leaveCode, append_assoc (List.map _ _)]
      rfl
  obtain ⟨⟨code, report⟩, σ', run, assembly⟩ := lowers
  refine ⟨code, report, ?_, assembly⟩
  have blocks : (Flow.leading entry exit).blocks.mapM lir.getBlock = .ok [first, last] := by
    simp only [Flow.leading, mapM_cons, mapM_nil, getBlock, leading.atEntry, leading.atExit]
    rfl
  have lowered : lowerFunction lir f (.leading entry exit) liveness = .ok (code, report) := by
    rw [lowerFunction, blocks]
    show ((lowerBlocks (.of f) liveness [first, last]).run (.start f) >>= _) = _
    rw [StateT.run, run]
    rfl
  unfold functionCode
  rw [getFunction, found]
  show (Flow.of lir f >>= _) = _
  rw [Flow.of_leading leading]
  show (Liveness.of lir f (.leading entry exit) >>= _) = _
  rw [known]
  show (lowerFunction lir f (.leading entry exit) liveness >>= _) = _
  rw [lowered]
  rfl

end EmLang.Native
