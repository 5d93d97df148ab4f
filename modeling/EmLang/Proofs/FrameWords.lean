import EmLang.Proofs.Bookkeeping

/-!
The words of a finished frame. Homes, spill slots and the words that registers are saved in around
calls are handed out while a function is lowered, and the words of the registers that it gives back
after that; no two of them are the same.
-/

namespace EmLang.Native.Lowering

open Homes Lir List Register

/-- All that a word of a finished frame can be for. -/
inductive Use where
  | owner (w : Owner)
  /-- A register that the function gives back as it found it. -/
  | giveBack (r : Register)

/-- Where the word is, when all blocks are lowered. -/
def State.wordFor? (f : Lir.Function) (τ : State) : Use → Option Int
  | .owner w => τ.word? (.of f) w
  | .giveBack r => τ.saved.lookup r

/-- The bytes that were handed out in the frame. -/
def State.handedOut (τ : State) : Int := (τ.allocation.frame.allocateAll τ.allocation.usedCalleeSaved).1.size

/-- In a frame of this size every word is for one use only. Arguments on the stack lie above the
return address in their order, and all else lies in the frame, which is no larger than its alignment
asks for. -/
structure Exclusive (f : Lir.Function) (τ : State) (size : Int) : Prop where
  homes : ∀ x, (τ.wordFor? f (.owner (.home x))).isSome ↔ x < f.declaredCount
  givesBack : ∀ r, (τ.wordFor? f (.giveBack r)).isSome ↔ r ∈ τ.allocation.usedCalleeSaved
  apart : ∀ use use' o, τ.wordFor? f use = some o → τ.wordFor? f use' = some o → use = use'
  arguments : ∀ k, 6 ≤ k → k < f.parameterCount → τ.wordFor? f (.owner (.home k)) =
    some (16 + 8 * ((k - 6 : Nat) : Int))
  inside : ∀ use o, τ.wordFor? f use = some o → (∀ k, 6 ≤ k → k < f.parameterCount → use ≠ .owner (.home k)) →
    8 ∣ o ∧ -size ≤ o ∧ o ≤ -8
  aligned : 16 ∣ size
  tight : τ.handedOut ≤ size ∧ size ≤ τ.handedOut + 8

variable {f : Lir.Function} {τ : State} {o : Int} {r : Register}

lemma mem_saved_of_wordFor? (h : τ.wordFor? f (.giveBack r) = some o) : (r, o) ∈ τ.saved := by
  obtain ⟨before, after, same, -⟩ := lookup_eq_some_iff.1 h
  exact same ▸ mem_append_right _ mem_cons_self

section

variable (valid : Valid (.of f) τ)

include valid

lemma Valid.isSome_home (x : Nat) : (τ.wordFor? f (.owner (.home x))).isSome ↔ x < f.declaredCount := by
  have homed : (Env.of f).homes.offsets.length = f.declaredCount := valid.homed
  rw [← homed, State.wordFor?, State.word?]
  simp

/-- What is handed out last lies below all that was handed out before. -/
lemma Valid.wordFor?_apart {use use' : Use} (h : τ.wordFor? f use = some o)
    (h' : τ.wordFor? f use' = some o) : use = use' := by
  have above {w} (owned : τ.word? (.of f) w = some o) : -τ.allocation.frame.size ≤ o :=
    (valid.inside ⟨w, owned⟩).2.1
  have under {r} (back : τ.wordFor? f (.giveBack r) = some o) : o < -τ.allocation.frame.size :=
    (valid.saved_inside (mem_saved_of_wordFor? back)).2.2
  cases use with
  | owner w =>
    cases use' with
    | owner w' => exact congrArg Use.owner (valid.apart h h')
    | giveBack r => exact absurd (under h') (above h).not_gt
  | giveBack r =>
    cases use' with
    | owner w' => exact absurd (under h) (above h').not_gt
    | giveBack r' =>
      have same := inj_on_of_nodup_map τ.nodup_saved (mem_saved_of_wordFor? h) (mem_saved_of_wordFor? h') rfl
      exact congrArg (fun p => Use.giveBack p.1) same

lemma Valid.tight : τ.handedOut ≤ τ.frameSize ∧ τ.frameSize ≤ τ.handedOut + 8 := by
  have size := τ.handing_saved.size
  have aligned := (τ.allocation.frame.allocateAll τ.allocation.usedCalleeSaved).1.alignedSize_spec
  have whole := valid.whole
  unfold State.handedOut State.frameSize
  omega

variable (few : f.parameterCount ≤ f.declaredCount)

include few

lemma Valid.wordFor?_argument {k : Nat} (late : 6 ≤ k) (lt : k < f.parameterCount) :
    τ.wordFor? f (.owner (.home k)) = some (16 + 8 * ((k - 6 : Nat) : Int)) := by
  obtain ⟨o, home⟩ := Option.isSome_iff_exists.1 ((valid.isSome_home k).2 (lt.trans_le few))
  rw [home, (home_of f home).stack ⟨lt, late⟩, stackArgumentOffset_eq]

/-- Above the return address all words belong to arguments, so nothing else is there. -/
lemma Valid.wordFor?_inside {use : Use} (h : τ.wordFor? f use = some o) (other : ∀ k, 6 ≤ k →
      k < f.parameterCount → use ≠ .owner (.home k)) : 8 ∣ o ∧ -τ.frameSize ≤ o ∧ o ≤ -8 := by
  have whole := valid.whole
  cases use with
  | giveBack r =>
    obtain ⟨multiple, low, high⟩ := valid.saved_inside (mem_saved_of_wordFor? h)
    exact ⟨multiple, low, by omega⟩
  | owner w =>
    obtain ⟨multiple, low, high, below | above⟩ := valid.inside ⟨w, h⟩
    · exact ⟨multiple, (Int.neg_le_neg τ.frame_le.1).trans low, by omega⟩
    · have top : (Env.of f).top = 16 + 8 * ((f.parameterCount - 6 : Nat) : Int) := stackArgumentOffset_eq _
      obtain ⟨k, late, lt, rfl⟩ : ∃ k : Nat, 6 ≤ k ∧ k < f.parameterCount ∧ o = 16 + 8 * (k - 6 : Nat) :=
        ⟨6 + ((o - 16) / 8).toNat, by omega, by omega, by omega⟩
      exact absurd (valid.wordFor?_apart h (valid.wordFor?_argument few late lt)) (other k late lt)

lemma Valid.exclusive : Exclusive f τ τ.frameSize where
  homes := valid.isSome_home
  givesBack r := by
    rw [← τ.saved_fst]
    simp [State.wordFor?, lookup_isSome_iff]
  apart _ _ _ := valid.wordFor?_apart
  arguments _ := valid.wordFor?_argument few
  inside _ _ := valid.wordFor?_inside few
  aligned := τ.frame_le.2
  tight := valid.tight

end

/-- **No word of a frame has two uses.** Whatever the function and its flow of control, in the state
that its blocks are lowered in, homes, spill slots, saved registers and the registers given back all
have words of their own, in the frame of the report. -/
theorem lowerFunction_exclusive {lir : Lir} {flow : Flow} {liveness : Liveness}
    {codes : List (List Instr)} {report : FunctionReport} (few : f.parameterCount ≤ f.declaredCount)
    (lowered : lowerFunction lir f flow liveness = .ok (codes, report)) :
    ∃ blocks τ, flow.blocks.mapM lir.getBlock = .ok blocks ∧
    lowerBlocks (.of f) liveness blocks (.start f) = .ok ((codes, report), τ) ∧
    report.calleeSaved = τ.allocation.usedCalleeSaved ∧ Exclusive f τ report.frameSize := by
  obtain ⟨blocks, τ, codes', found, run, rfl, run', -⟩ := lowerFunction_reports lowered
  have start := start_valid f
  obtain ⟨-, lands, -⟩ := yields_mapM (fun p _ σ h => lowerBlock_reaches h (fun _ _ => id)
    fun i _ => allows_temporary (.of f) i) start.lands codes' τ run'
  exact ⟨blocks, τ, found, run, τ.saved_fst, (start.after lands.toReached).1.exclusive few⟩

/-- A function with seven parameters, one variable and nine temporaries. -/
def crowded : Lir.Function := ⟨"crowded", .int, [0, 1], 7, 8, 17, false⟩

/-- Each temporary gets its value before a call. One of them lives on in the next block. -/
def crowding : Block :=
  ⟨(List.range 9).map (fun k => .binary .mov (.slot (8 + k)) (.imm 1)) ++
  [.unary .call (.callee "g" [] .void false)], 0, some 0, false⟩

def crowdedLir : Lir := ⟨#[crowded], #[crowding, ⟨[], 0, some 1, false⟩], #[]⟩

def crowdedLiveness : Liveness :=
  ⟨[∅, {16}], [{16}], [crowding.instructions.map fun _ => .ofList ((List.range 9).map (8 + ·))], 0,
    []⟩

theorem lowerFunction_exclusive_crowded : ∃ τ size, Exclusive crowded τ size ∧ size = 144 ∧
    τ.wordFor? crowded (.owner (.home 6)) = some 16 ∧ τ.wordFor? crowded (.owner (.home 7)) =
    some (-56) ∧ τ.wordFor? crowded (.owner (.save rax)) = some (-64) ∧ τ.wordFor? crowded
    (.owner (.spill 16)) = some (-128) ∧ τ.wordFor? crowded (.giveBack rbx) = some (-136) := by
  have run : (lowerFunction crowdedLir crowded ⟨[0, 1], [[1], []],
    [[], [0]]⟩ crowdedLiveness).toOption.any fun result =>
      result.2.frameSize = 144 := by decide +kernel
  obtain ⟨⟨codes, report⟩, lowered, size⟩ := exists_of_any run
  obtain ⟨blocks, τ, ⟨⟩, run', -, exclusive⟩ := lowerFunction_exclusive (by decide) lowered
  have words : (lowerBlocks (.of crowded) crowdedLiveness [crowding,
    ⟨[], 0, some 1, false⟩] (.start crowded)).toOption.any fun p =>
      p.2.wordFor? crowded (.owner (.home 6)) = some 16 ∧ p.2.wordFor? crowded (.owner (.home 7)) =
        some (-56) ∧ p.2.wordFor? crowded (.owner (.save rax)) = some (-64) ∧ p.2.wordFor? crowded
        (.owner (.spill 16)) = some (-128) ∧ p.2.wordFor? crowded (.giveBack rbx) = some (-136) :=
        by decide +kernel
  obtain ⟨_, same, words⟩ := exists_of_any words
  cases run'.symm.trans same
  exact ⟨τ, _, exclusive, of_decide_eq_true size, of_decide_eq_true words⟩

end EmLang.Native.Lowering
