import EmLang.Proofs.LivePaths

/-!
The flow of control says exactly where control can go. Blocks have numbers and positions, and in a
list without repetitions each position belongs to one number; so the positions behind a block are
those that its last instruction leads to.
-/

namespace EmLang.Lir

open List Option

variable {lir : Lir} {f : Function} {p q : Nat} {b target : BlockId} {block : Block} {i : Instr}

/-- A jump at the end of the block has one operand, which is a block of the function. -/
def Block.JumpsWithin (block : Block) (f : Function) : Prop :=
  ∀ i, block.instructions.getLast? = some i → (i.opcode = .jmp ∨ ∃ condition, i.opcode = .jcc condition) →
    ∃ target ∈ f.blocks, i = .unary i.opcode (.block target)

/-- From the end of the block, which is at `p`, control can pass to `q`: a jump leads there, or
nothing keeps control from going on to the next block. -/
def Block.Leads (block : Block) (f : Function) (p q : Nat) : Prop :=
  (∃ i target, block.instructions.getLast? = some i ∧ i.jumpTarget? = some target ∧ f.blocks[q]? =
    some target) ∨ (∀ i, block.instructions.getLast? = some i → i.opcode ≠ .jmp ∧ i.opcode ≠ .ret) ∧
    p + 1 < f.blocks.length ∧ q = p + 1

/-- Control can pass from the end of the block at `p` to the block at `q`. -/
def Function.Passes (lir : Lir) (f : Function) (p q : Nat) : Prop :=
  ∃ b block, f.blocks[p]? = some b ∧ lir.blocks[b]? = some block ∧ block.Leads f p q

lemma jumpTarget?_eq_some : i.jumpTarget? = some target ↔
    (i.opcode = .jmp ∨ ∃ condition, i.opcode = .jcc condition) ∧ i = .unary i.opcode (.block target) := by
  cases i with
  | unary op operand => cases op <;> cases operand <;> simp [Instr.jumpTarget?, Instr.opcode]
  | _ => simp [Instr.jumpTarget?]

namespace Flow

lemma lastPosition?_eq_some {blocks : List BlockId} (nodup : blocks.Nodup) :
    lastPosition? blocks b = some q ↔ blocks[q]? = some b := by
  have listed {x : BlockId × Nat} : x ∈ blocks.zipIdx.reverse ↔ blocks[x.2]? = some x.1 := by
    rw [mem_reverse, mem_zipIdx_iff_getElem?]
  cases found : blocks.zipIdx.reverse.find? (·.1 = b) with
  | none =>
    simp only [lastPosition?, found, map_none, reduceCtorEq, false_iff]
    exact fun here => by simpa using find?_eq_none.1 found (b, q) (listed.2 here)
  | some x =>
    have same : x.1 = b := by simpa using find?_some found
    have there := same ▸ listed.1 (mem_of_find?_eq_some found)
    simp only [lastPosition?, found, map_some, some.injEq]
    refine ⟨fun h => h ▸ there, fun here => ?_⟩
    exact (List.getElem?_inj (List.getElem?_eq_some_iff.1 there).1 nodup).1 (there.trans here.symm)

lemma jumpPosition_eq_ok (nodup : f.blocks.Nodup) :
    jumpPosition f b i = .ok q ↔ ∃ target, i.jumpTarget? = some target ∧ f.blocks[q]? = some target := by
  unfold jumpPosition
  cases i.jumpTarget? with
  | none => simp
  | some target =>
    cases found : lastPosition? f.blocks target with
    | none => simp [← lastPosition?_eq_some nodup, found]
    | some position => simp [← lastPosition?_eq_some nodup, found]

/-- What is found behind the block at a position: a jump within the function at its end, and just
the positions that control can pass to, each once. -/
structure Behind (lir : Lir) (f : Function) (p : Nat) (block : Block) (next : List Nat) : Prop where
  within : block.JumpsWithin f
  nodup : next.Nodup
  mem : ∀ q, q ∈ next ↔ f.Passes lir p q

lemma mem_next {n : Nat} : q ∈ (if p + 1 < n then [p + 1] else []) ↔ p + 1 < n ∧ q = p + 1 := by
  split_ifs with more <;> simp [more]

lemma nodup_next (n : Nat) : (if p + 1 < n then [p + 1] else []).Nodup := by
  split_ifs <;> simp

/-- Behind a block is found what its last instruction leads to, unless that is a jump out of the
function. -/
lemma successorsOf_spec
    (nodup : f.blocks.Nodup) (here : f.blocks[p]? = some b) (found : lir.blocks[b]? = some block) :
    (∀ next, successorsOf lir f b p = .ok next → Behind lir f p block next) ∧
    (block.JumpsWithin f → ∃ next, successorsOf lir f b p = .ok next) := by
  have passes : ∀ q, f.Passes lir p q ↔ block.Leads f p q := by simp [Function.Passes, here, found]
  simp only [Block.Leads] at passes
  simp only [successorsOf, getBlock, found, Block.terminator?, bind, Except.bind]
  cases last : block.instructions.getLast? with
  | none =>
    simp only [last, reduceCtorEq, false_and, exists_const, false_or, IsEmpty.forall_iff,
      implies_true, true_and] at passes
    refine ⟨fun next same => ?_, fun _ => ⟨_, rfl⟩⟩
    cases same
    exact ⟨fun i h => (by cases last.symm.trans h), nodup_next _, fun q => mem_next.trans (passes q).symm⟩
  | some i =>
    simp only [last, some.injEq, forall_eq', exists_and_left, exists_eq_left',
      ← jumpPosition_eq_ok (b := b) nodup] at passes
    have within : block.JumpsWithin f ↔
        ((i.opcode = .jmp ∨ ∃ condition, i.opcode = .jcc condition) → ∃ q, jumpPosition f b i = .ok q) := by
      simp only [Block.JumpsWithin, last, some.injEq, forall_eq', jumpPosition_eq_ok nodup]
      refine forall_congr' fun form => ⟨?_, ?_⟩
      · rintro ⟨target, mem, same⟩
        obtain ⟨q, there⟩ := mem_iff_getElem?.1 mem
        exact ⟨q, target, jumpTarget?_eq_some.2 ⟨form, same⟩, there⟩
      · rintro ⟨q, target, jumps, there⟩
        exact ⟨target, mem_of_getElem? there, (jumpTarget?_eq_some.1 jumps).2⟩
    -- An instruction that is no jump leads nowhere.
    have nowhere : (i.opcode ≠ .jmp ∧ ∀ condition, i.opcode ≠ .jcc condition) →
        ∀ q, jumpPosition f b i ≠ .ok q := by
      intro plain q leads
      obtain ⟨target, jumps, -⟩ := (jumpPosition_eq_ok nodup).1 leads
      obtain h | ⟨condition, h⟩ := (jumpTarget?_eq_some.1 jumps).1
      · exact plain.1 h
      · exact plain.2 condition h
    cases op : i.opcode with
    | jmp =>
      simp only [op, Opcode.isTerminator, filter_some, if_true, true_or, forall_const] at within ⊢
      refine ⟨fun next h => ?_, fun w => ?_⟩
      · obtain ⟨q, ok, h⟩ := ok_of_bind.1 h
        cases h
        refine ⟨within.2 ⟨q, ok⟩, by simp, fun q' => ?_⟩
        simp [passes, ok, op, eq_comm]
      · obtain ⟨q, ok⟩ := within.1 w
        exact ⟨[q], by rw [ok]; rfl⟩
    | jcc condition =>
      simp only [op, Opcode.isTerminator, filter_some, if_true, Opcode.jcc.injEq, exists_eq',
        or_true, forall_const] at within ⊢
      refine ⟨fun next h => ?_, fun w => ?_⟩
      · obtain ⟨q, ok, h⟩ := ok_of_bind.1 h
        cases h
        refine ⟨within.2 ⟨q, ok⟩, nodup_cons.2 ⟨by simp, (nodup_next _).filter _⟩, fun q' => ?_⟩
        rw [passes, mem_cons, mem_filter, mem_next]
        by_cases same : q' = q
        · simp [ok, same]
        · simp [ok, op, same, Ne.symm same]
      · obtain ⟨q, ok⟩ := within.1 w
        exact ⟨_, by rw [ok]; rfl⟩
    | ret =>
      have leads := nowhere (by simp [op])
      simp only [op, Opcode.isTerminator, filter_some, if_true, reduceCtorEq, exists_false,
        or_false, false_imp_iff] at within ⊢
      refine ⟨fun next h => ?_, fun _ => ⟨[], rfl⟩⟩
      cases h
      exact ⟨within.2 trivial, nodup_nil, fun q => by simp [passes, leads, op]⟩
    | _ =>
      have leads := nowhere (by simp [op])
      simp only [op, Opcode.isTerminator, filter_some, Bool.false_eq_true, if_false, reduceCtorEq,
        exists_false, or_false, false_imp_iff] at within ⊢
      refine ⟨fun next h => ?_, fun _ => ⟨_, rfl⟩⟩
      cases h
      exact ⟨within.2 trivial, nodup_next _, fun q => by simp [passes, leads, op]⟩

/-- **The flow of control is exact.** It is found just if all jumps at the ends of blocks stay in
the function. Then the positions behind each are those that control can pass to, each once, and what
comes before a position is what that is behind, as often. -/
theorem of_exact (nodup : f.blocks.Nodup) : ((∃ flow, Flow.of lir f = .ok flow) ↔ ∀ b ∈ f.blocks,
      ∃ block, lir.blocks[b]? = some block ∧ block.JumpsWithin f) ∧ ∀ flow, Flow.of lir f = .ok flow
    → flow.blocks = f.blocks ∧ flow.successors.length = f.blocks.length ∧ flow.predecessors.length =
    f.blocks.length ∧ ∀ p < f.blocks.length, (flow.successors.getD p []).Nodup ∧
    ∀ q, (q ∈ flow.successors.getD p [] ↔ f.Passes lir p q) ∧ (q < f.blocks.length →
      (flow.predecessors.getD q []).count p = (flow.successors.getD p []).count q) := by
  have behind : ∀ {flow p}, Flow.of lir f = .ok flow → ∀ lt : p < f.blocks.length, ∃ block,
      lir.blocks[f.blocks[p]]? = some block ∧ Behind lir f p block (flow.successors.getD p []) := by
    intro flow p built lt
    have here := getElem?_eq_getElem lt
    have next := (of_eq_ok built).2.2.2 p _ here
    cases found : lir.blocks[f.blocks[p]]? with
    | none => simp [successorsOf, getBlock, found, bind, Except.bind] at next
    | some block => exact ⟨block, rfl, (successorsOf_spec nodup here found).1 _ next⟩
  refine ⟨⟨?_, fun all => ?_⟩, fun flow built => ?_⟩
  · rintro ⟨flow, built⟩ b hb
    obtain ⟨p, lt, rfl⟩ := mem_iff_getElem.1 hb
    obtain ⟨block, found, behind⟩ := behind built lt
    exact ⟨block, found, behind.within⟩
  · obtain ⟨successors, found⟩ : ∃ successors,
      (f.blocks.zipIdx.mapM fun p => successorsOf lir f p.1 p.2) = .ok successors := by
      refine exists_mapM_ok _ ?_
      rintro ⟨b, p⟩ mem
      have here := mem_zipIdx_iff_getElem?.1 mem
      obtain ⟨block, found, within⟩ := all b (mem_of_getElem? here)
      exact (successorsOf_spec nodup here found).2 within
    exact ⟨_, ok_of_bind.2 ⟨successors, found, rfl⟩⟩
  · obtain ⟨blocks, size, predecessors, -⟩ := of_eq_ok built
    refine ⟨blocks, size, by simp [predecessors], fun p lt => ?_⟩
    obtain ⟨block, -, behind⟩ := behind built lt
    refine ⟨behind.nodup, fun q => ⟨behind.mem q, fun lt' => ?_⟩⟩
    rw [← count_predecessorsOf flow.successors]
    simp [predecessors, lt']

theorem of_exact_twoLoops : ∃ f flow, Liveness.twoLoops.functions[0]? = some f ∧
    f.blocks.Nodup ∧ Flow.of Liveness.twoLoops f = .ok flow ∧
    (1 ∈ flow.successors.getD 1 [] ↔ f.Passes Liveness.twoLoops 1 1) ∧
    (flow.predecessors.getD 1 []).count 2 = (flow.successors.getD 2 []).count 1 := by
  let f : Function := ⟨"f", .int, [0, 1, 2, 3], 0, 4, 4, false⟩
  have nodup : f.blocks.Nodup := by decide
  have ok : (Flow.of Liveness.twoLoops f).toBool = true := by decide +kernel
  cases built : Flow.of Liveness.twoLoops f with
  | error e =>
    rw [built] at ok
    cases ok
  | ok flow =>
    obtain ⟨-, -, -, all⟩ := (of_exact nodup).2 flow built
    exact ⟨f, flow, rfl, nodup, built, ((all 1 (by decide)).2 1).1, ((all 2 (by decide)).2 1).2 (by decide)⟩

end Flow

end EmLang.Lir
