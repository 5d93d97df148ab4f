import EmLang.Proofs.LivePaths
import Mathlib.Algebra.Order.BigOperators.Group.Finset

/-!
Going through the blocks comes to an end. What is live at the two ends of a block only grows, so a
block never has less live at its start than before. And a block becomes pending again only when a
slot becomes live at its end, which happens once for each slot at most: with every block that is
gone through, fewer blocks are pending or fewer slots are missing.
-/

namespace EmLang.Lir

open List

variable {bound : Nat} {out out' : LiveSet} {is : List Instr}

/-! ### More at the end, more at the start -/

/-- The instruction mentions only slots below the bound. -/
def Instr.Below (bound : Nat) (i : Instr) : Prop := ∀ s, i.Mentions s → s < bound

lemma liveAtStart_mono (more : ∀ x ∈ out, x ∈ out') : ∀ x ∈ liveAtStart out is, x ∈ liveAtStart out' is := by
  induction is with
  | nil => exact more
  | cons i is ih =>
    intro x hx
    rw [liveAtStart, foldr_cons, mem_liveBefore] at hx ⊢
    exact hx.imp_right (Or.imp_right (ih x))

lemma liveAtStart_lt (within : ∀ x ∈ out, x < bound) (below : ∀ i ∈ is, i.Below bound) :
    ∀ x ∈ liveAtStart out is, x < bound := by
  induction is with
  | nil => exact within
  | cons i is ih =>
    intro x hx
    rw [liveAtStart, foldr_cons, mem_liveBefore] at hx
    rw [forall_mem_cons] at below
    exact hx.2.elim (below.1 x) (ih below.2 x)

namespace Liveness

variable {f : Function} {flow : Flow} {lir : Lir} {n p : Nat} {s : State} {a b live : LiveSet}

/-! ### What is left to do -/

/-- How many slots below the bound are not in the set. -/
def missing (bound : Nat) (set : LiveSet) : Nat := ((Finset.range bound).filter (· ∉ set)).card

/-- How much is left to do: the pending blocks, and the slots that may yet become live at the ends
of the first `n` blocks. -/
def toDo (bound n : Nat) (s : State) : Nat := s.pending.length + ∑ p ∈ Finset.range n, missing bound (s.outAt p)

lemma missing_le (more : ∀ x ∈ a, x ∈ b) : missing bound b ≤ missing bound a :=
  Finset.card_le_card (Finset.monotone_filter_right _ fun x _ new old => new (more x old))

lemma missing_lt {x : Slot} (more : ∀ x ∈ a, x ∈ b) (new : x ∈ b) (old : x ∉ a) (lt : x < bound) :
    missing bound b < missing bound a := by
  refine Finset.card_lt_card ⟨Finset.monotone_filter_right _ fun x _ new old => new (more x old),
    fun back => ?_⟩
  have mem := back (Finset.mem_filter.2 ⟨Finset.mem_range.2 lt, old⟩)
  exact (Finset.mem_filter.1 mem).2 new

lemma missing_empty (bound : Nat) : missing bound ∅ = bound := by
  rw [missing, Finset.filter_true_of_mem fun _ _ => Std.ExtTreeSet.not_mem_empty, Finset.card_range]

/-- A block that becomes pending again has a slot less to wait for. -/
lemma toDo_feed (within : ∀ x ∈ live, x < bound) (lt : p < n) (size : s.liveOut.length = n) :
    toDo bound n (feed live s p) ≤ toDo bound n s := by
  by_cases known : live.subset (s.outAt p) = true
  · rw [show feed live s p = s from if_pos known]
  · have changed : feed live s p = ⟨s.liveIn, s.liveOut.set p ((s.outAt p).union live),
        if p ∈ s.pending then s.pending else s.pending ++ [p], s.history⟩ := if_neg known
    have out q : (feed live s p).outAt q = if q = p then (s.outAt p).union live else s.outAt q := by
      rw [changed]
      exact getD_set (size ▸ lt)
    have waiting : (feed live s p).pending.length ≤ s.pending.length + 1 := by
      rw [changed]
      split_ifs <;> simp
    obtain ⟨x, hx, new⟩ : ∃ x ∈ live, x ∉ s.outAt p := by
      rw [LiveSet.subset_iff] at known
      simpa using known
    have fewer : ∑ q ∈ Finset.range n, missing bound ((feed live s p).outAt q) <
        ∑ q ∈ Finset.range n, missing bound (s.outAt q) := by
      refine Finset.sum_lt_sum (fun q _ => missing_le fun x hx => ?_) ⟨p, Finset.mem_range.2 lt, ?_⟩
      · rw [out]
        split_ifs with same
        · exact LiveSet.mem_union.2 (.inl (same ▸ hx))
        · exact hx
      · rw [out, if_pos rfl]
        exact missing_lt (fun x hx => LiveSet.mem_union.2 (.inl hx))
          (LiveSet.mem_union.2 (.inr hx)) new (within x hx)
    unfold toDo
    omega

lemma toDo_foldl {ps : List Nat} (within : ∀ x ∈ live, x < bound) (inside : ∀ p ∈ ps, p < n)
    (size : s.liveOut.length = n) : toDo bound n (ps.foldl (feed live) s) ≤ toDo bound n s := by
  induction ps generalizing s with
  | nil => exact le_rfl
  | cons p ps ih =>
    rw [forall_mem_cons] at inside
    have first := fed_feed (s := s) live (size ▸ inside.1)
    exact (ih inside.2 (first.length.trans size)).trans (toDo_feed within inside.1 size)

/-! ### What is recorded -/

/-- What was live at the start of the block at a position, each time that it was gone through. -/
def recordedAt (history : List (Nat × LiveSet)) (p : Nat) : List LiveSet := (history.filter (·.1 = p)).map (·.2)

lemma recordedAt_append (history : List (Nat × LiveSet)) (p q : Nat) (live : LiveSet) :
    recordedAt (history ++ [(p, live)]) q = recordedAt history q ++ if q = p then [live] else [] := by
  rw [recordedAt, filter_append, map_append, recordedAt]
  by_cases same : q = p
  · simp [same]
  · simp [same, Ne.symm same]

/-- What holds while blocks are gone through whose instructions mention only slots below the
bound. -/
structure Rises (lir : Lir) (flow : Flow) (bound : Nat) (s : State) : Prop extends Sweeps lir flow s where
  rising : ∀ p, ∀ x ∈ s.inAt p, x ∈ liveAtStart (s.outAt p) (flow.code lir p)
  bounded : ∀ p, ∀ x ∈ s.outAt p, x < bound
  placed : ∀ entry ∈ s.history, entry.1 < flow.blocks.length
  recorded : ∀ p < flow.blocks.length, p ∈ s.pending ∨ recordedAt s.history p ≠ []
  grown : ∀ p, (recordedAt s.history p).Pairwise fun a b => ∀ x ∈ a, x ∈ b
  held : ∀ p, ∀ live ∈ recordedAt s.history p, ∀ x ∈ live, x ∈ s.inAt p
  latest : ∀ p, recordedAt s.history p ≠ [] → (recordedAt s.history p).getLast? = some (s.inAt p)

section

variable {code : List (List Instr)}

lemma rises_start (lir : Lir) (flow : Flow) (bound : Nat) :
    Rises lir flow bound (start flow.blocks.length) := by
  have sweeps := sweeps_start lir flow
  have none : ∀ p, (start flow.blocks.length).outAt p = ∅ := getD_replicate _
  have none' : ∀ p, (start flow.blocks.length).inAt p = ∅ := getD_replicate _
  refine ⟨sweeps, fun p x hx => ?_, fun p x hx => ?_, nofun, fun p lt => .inl ?_, fun p => .nil,
    nofun, fun p h => absurd rfl h⟩
  · rw [none'] at hx
    exact absurd hx Std.ExtTreeSet.not_mem_empty
  · rw [none] at hx
    exact absurd hx Std.ExtTreeSet.not_mem_empty
  · simpa [start] using lt

variable (agrees : flow.Agrees) (same : ∀ p, code.getD p [] = flow.code lir p)
  (below : ∀ p, ∀ i ∈ flow.code lir p, i.Below bound)

include agrees same below

/-- A block that is pending is gone through without complaint, and then less is left to do. -/
lemma step_rises {rest : List Nat} (rises : Rises lir flow bound s) (next : s.pending = p :: rest) :
    ∃ s', step f flow code { s with pending := rest } p = .ok s' ∧
    Rises lir flow bound s' ∧ toDo bound flow.blocks.length s' < toDo bound flow.blocks.length s ∧
    s'.history.length = s.history.length + 1 := by
  have lt := rises.pending p (by simp [next])
  obtain ⟨sizeIn, sizeOut⟩ := rises.sizes
  have within : ∀ x ∈ liveAtStart (s.outAt p) (flow.code lir p), x < bound :=
    liveAtStart_lt (rises.bounded p) (below p)
  have grows := rises.rising p
  have stepped : step f flow code { s with pending := rest } p =
      .ok (State.passed flow (liveAtStart (s.outAt p) (flow.code lir p)) { s with pending := rest } p) := by
    refine step_eq_ok.2 ⟨LiveSet.subset_iff.2 ?_, ?_⟩
    · rw [same]
      exact grows
    · rw [same]
      rfl
  set live := liveAtStart (s.outAt p) (flow.code lir p) with hlive
  have sweeps := step_sweeps agrees same rises.toSweeps next stepped
  have passed := passed_passed (s := { s with pending := rest }) agrees live lt sizeIn sizeOut
  have less : toDo bound flow.blocks.length (State.passed flow live { s with pending := rest } p) <
      toDo bound flow.blocks.length s := by
    have fed := toDo_foldl (s := { s with pending := rest, history :=
      s.history ++ [(p, live)] }) within (agrees.predecessor_lt lt) sizeOut
    refine (show _ ≤ _ from fed).trans_lt ?_
    show rest.length + _ < s.pending.length + _
    rw [next, length_cons]
    exact Nat.add_lt_add_right (Nat.lt_succ_self _) _
  refine ⟨_, stepped, ?_, less, by rw [passed.history]; simp⟩
  obtain ⟨-, history, inAt, outAt, kept, -, -⟩ := passed
  generalize State.passed flow live { s with pending := rest } p = t at *
  have grown : ∀ q, ∀ x ∈ s.inAt q, x ∈ t.inAt q := by
    intro q x hx
    rw [inAt]
    split_ifs with hq
    · exact grows x (hq ▸ hx)
    · exact hx
  have more : ∀ q, ∀ x ∈ s.outAt q, x ∈ t.outAt q := fun q x hx => (outAt q x).2 (.inl hx)
  refine ⟨sweeps, fun q x hx => ?_, fun q x hx => ?_, fun entry mem => ?_, fun q hq => ?_,
    fun q => ?_, fun q recorded mem x hx => ?_, fun q _ => ?_⟩
  · refine liveAtStart_mono (more q) x ?_
    rw [inAt] at hx
    split_ifs at hx with hq
    · exact hq ▸ hx
    · exact rises.rising q x hx
  · exact ((outAt q x).1 hx).elim (rises.bounded q x) fun h => within x h.2
  · rw [history, mem_append, mem_singleton] at mem
    exact mem.elim (rises.placed entry) fun h => h ▸ lt
  · rw [history, recordedAt_append]
    by_cases same : q = p
    · exact .inr (by simp [same])
    · refine (rises.recorded q hq).imp (fun waits => kept q ?_) fun known => by simpa [same] using known
      rw [next] at waits
      exact (mem_cons.1 waits).resolve_left same
  · rw [history, recordedAt_append, pairwise_append]
    refine ⟨rises.grown q, by split_ifs <;> simp, fun a ha b hb x hx => ?_⟩
    split_ifs at hb with same
    · obtain rfl := mem_singleton.1 hb
      exact grows x (same ▸ rises.held q a ha x hx)
    · cases hb
  · rw [history, recordedAt_append, mem_append] at mem
    obtain old | new := mem
    · exact grown q x (rises.held q recorded old x hx)
    · split_ifs at new with same
      · obtain rfl := mem_singleton.1 new
        rwa [inAt, if_pos same]
      · cases new
  · rw [inAt]
    rename_i known
    rw [history, recordedAt_append] at known ⊢
    split_ifs at known ⊢ with same
    · simp
    · rw [append_nil] at known ⊢
      exact rises.latest q known

/-- With as many steps as there is left to do, no block is pending in the end. -/
lemma iterate_rises (limit : Nat) (rises : Rises lir flow bound s)
    (enough : toDo bound flow.blocks.length s ≤ n) : ∃ s', iterate f flow code limit n s = .ok s' ∧
    Rises lir flow bound s' ∧ s'.pending = [] ∧ s'.history.length ≤ s.history.length + n := by
  induction n generalizing s with
  | zero =>
    cases next : s.pending with
    | nil =>
      refine ⟨s, ?_, rises, next, le_rfl⟩
      unfold iterate
      rw [next]
    | cons p rest =>
      rw [toDo, next, length_cons] at enough
      omega
  | succ n ih =>
    cases next : s.pending with
    | nil =>
      refine ⟨s, ?_, rises, next, Nat.le_add_right ..⟩
      unfold iterate
      rw [next]
    | cons p rest =>
      obtain ⟨t, stepped, rises', less, longer⟩ := step_rises (f := f) agrees same below rises next
      obtain ⟨s', ended, rises'', done, most⟩ := ih rises' (by omega)
      refine ⟨s', ?_, rises'', done, by omega⟩
      unfold iterate
      rw [next]
      dsimp only
      rw [stepped]
      exact ended

end

/-! ### The whole -/

/-- **Liveness that was found by going up.** Every block was gone through, and all of them together
at most once for each slot that can become live at the end of one, and once more for each block.
Each time at least as much was live at the start of a block as the time before, and in the end what
is said to be live there. -/
structure Converged (flow : Flow) (slots : Nat) (liveness : Liveness) : Prop where
  least : flow.blocks.length ≤ liveness.iterations
  most : liveness.iterations ≤ flow.blocks.length * (slots + 1)
  placed : ∀ entry ∈ liveness.history, entry.1 < flow.blocks.length
  grown : ∀ p, (recordedAt liveness.history p).Pairwise fun a b => ∀ x ∈ a, x ∈ b
  recorded : ∀ p < flow.blocks.length, ∃ live, (recordedAt liveness.history p).getLast? =
    some live ∧ liveness.liveIn[p]? = some live

lemma exists_code (built : Flow.of lir f = .ok flow) :
    ∃ code, (flow.blocks.mapM fun b => do return (← lir.getBlock b).instructions) = .ok code := by
  refine exists_mapM_ok _ fun b hb => ?_
  obtain ⟨blocks, -, -, all⟩ := Flow.of_eq_ok built
  rw [blocks] at hb
  obtain ⟨p, here⟩ := mem_iff_getElem?.1 hb
  obtain ⟨block, found, -⟩ := ok_of_bind.1 (all p b here)
  exact ⟨block.instructions, by rw [found]; rfl⟩

lemma toDo_start (bound n : Nat) : toDo bound n (start n) = n * (bound + 1) := by
  have none p (_ : p ∈ Finset.range n) : missing bound ((start n).outAt p) = bound := by
    rw [show (start n).outAt p = ∅ from getD_replicate n p, missing_empty]
  rw [toDo, Finset.sum_const_nat none, Finset.card_range, start, length_reverse, length_range,
    Nat.mul_succ, Nat.add_comm]

/-- **Liveness is always found**, when the instructions mention only slots of the function. -/
theorem converged_of_flow (built : Flow.of lir f = .ok flow)
    (below : ∀ p, ∀ i ∈ flow.code lir p, i.Below f.slotCount) :
    ∃ liveness, Liveness.of lir f flow = .ok liveness ∧ liveness.Converged flow f.slotCount := by
  obtain ⟨code, hcode⟩ := exists_code built
  obtain rfl := code_of_mapM hcode
  obtain ⟨s, ended, rises, done, most⟩ := iterate_rises (f := f) (Flow.agrees_of built)
    (getD_codes lir flow) below (limit f flow) (rises_start lir flow f.slotCount)
    (n := limit f flow) (toDo_start f.slotCount flow.blocks.length).le
  refine ⟨_, by
    unfold Liveness.of
    rw [hcode]
    show (iterate f flow _ (limit f flow) (limit f flow) _ >>= _) = _
    rw [ended]
    rfl, ?_, ?_, rises.placed, rises.grown, fun p lt => ?_⟩
  · have all : List.range flow.blocks.length ⊆ s.history.map (·.1) := by
      intro p hp
      obtain waits | known := rises.recorded p (mem_range.1 hp)
      · rw [done] at waits
        cases waits
      · obtain ⟨live, mem⟩ := exists_mem_of_ne_nil _ known
        obtain ⟨entry, mem, -⟩ := List.mem_map.1 mem
        obtain ⟨mem, place⟩ := mem_filter.1 mem
        exact List.mem_map.2 ⟨entry, mem, by simpa using place⟩
    simpa using (subperm_of_subset nodup_range all).length_le
  · simpa [start, limit] using most
  · have known := (rises.recorded p lt).resolve_left (by simp [done])
    refine ⟨s.inAt p, rises.latest p known, ?_⟩
    rw [State.inAt, getD_eq_getElem?_getD, getElem?_eq_getElem (rises.sizes.1.symm ▸ lt)]
    rfl

theorem converged_twoLoops : ∃ f flow liveness, twoLoops.functions[0]? = some f ∧
    Flow.of twoLoops f = .ok flow ∧ (∀ p, ∀ i ∈ flow.code twoLoops p, i.Below f.slotCount) ∧
    Liveness.of twoLoops f flow = .ok liveness ∧ liveness.Converged flow f.slotCount := by
  have built : Flow.of twoLoops ⟨"f", .int, [0, 1, 2, 3], 0, 4, 4, false⟩ =
      .ok ⟨[0, 1, 2, 3], [[1], [1, 2], [1], []], [[], [0, 1, 2], [1], []]⟩ := by decide +kernel
  have below : ∀ p, ∀ i ∈ Flow.code twoLoops ⟨[0, 1, 2, 3], [[1], [1, 2], [1], []],
      [[], [0, 1, 2], [1], []]⟩ p, i.Below 4 := by
    have all : ∀ p < 4, ∀ i ∈ Flow.code twoLoops ⟨[0, 1, 2, 3], [[1], [1, 2], [1], []],
      [[], [0, 1, 2], [1], []]⟩ p, ∀ s ∈ i.slots, s < 4 := by decide +kernel
    intro p i mem s mentions
    by_cases inside : p < 4
    · exact all p inside i mem s (Instr.mem_slots.2 mentions)
    · rw [code_eq_nil (show 4 ≤ p by omega)] at mem
      cases mem
  obtain ⟨liveness, found, converged⟩ := converged_of_flow built below
  exact ⟨_, _, liveness, rfl, built, below, found, converged⟩

end Liveness

end EmLang.Lir
