import EmLang.Proofs.Moments

/-!
The books of the allocator between any two instructions. Lowering goes from spot to spot, block by
block, and may fail at any of them; up to there registers and temporaries belong to each other, and
every temporary has one word of the frame that is its own for good.
-/

namespace EmLang.Native.Lowering

open Lir Register Relation

/-! ### Spots between instructions -/

/-- A spot between two instructions of a block: `rest` are left of it, but the first `done` of them
are done already. -/
structure Spot where
  block : Nat
  done : Nat
  rest : List (Instr × LiveSet)
  state : State

/-- The spot at the beginning of a block that is entered in the state `σ`. -/
def Enters (env : Env) (liveness : Liveness) (blocks : List Block) (k : Nat) (σ : State) (p : Spot) : Prop :=
  ∃ block σ', blocks[k]? = some block ∧ enterBlock env (liveness.liveIn.getD k ∅) σ = .ok ((), σ') ∧
    p = ⟨k, 0, block.instructions.zip (liveness.liveAfter.getD k []), σ'⟩

/-- What is done at the end of a block: where no jump ends it, what lives on is spilled. -/
def leaveBlock (block : Block) (out : LiveSet) : Lower Unit :=
  if block.terminator?.isNone then spillLiveOut out else pure ()

/-- Lowering goes from one spot to the next, if it does not fail. -/
inductive Proceeds (env : Env) (liveness : Liveness) (blocks : List Block) : Spot → Spot → Prop where
  | lower {k done : Nat} {i : Instr} {live : LiveSet} {rest : List (Instr × LiveSet)} {σ σ' : State}
      (lowered : lowerInstr env (liveness.liveOut.getD k ∅) i live rest σ = .ok (done, σ')) :
      Proceeds env liveness blocks ⟨k, 0, (i, live) :: rest, σ⟩ ⟨k, done, rest, σ'⟩
  | skip {k done : Nat} {next : Instr × LiveSet} {rest : List (Instr × LiveSet)} {σ : State} :
      Proceeds env liveness blocks ⟨k, done + 1, next :: rest, σ⟩ ⟨k, done, rest, σ⟩
  | leave {k done : Nat} {block : Block} {σ σ' : State} {p : Spot} (found : blocks[k]? = some block)
      (left : leaveBlock block (liveness.liveOut.getD k ∅) σ = .ok ((), σ'))
      (next : Enters env liveness blocks (k + 1) σ'.cut p) :
      Proceeds env liveness blocks ⟨k, done, [], σ⟩ p

variable {env : Env} {liveness : Liveness} {blocks : List Block} {σ σ' τ : State} {p q : Spot}
  {k done : Nat}

/-- Steps that give places to temporaries only lead from `σ` to `σ'`. -/
abbrev Env.Leads (env : Env) (σ σ' : State) : Prop :=
  Reached (fun t => env.function.isTemporary t = true) (fun _ => True) σ σ'

lemma Reached.trans {P : Slot → Prop} {R : CallRecord → Prop} (h : Reached P R σ τ)
    (h' : Reached P R τ σ') : Reached P R σ σ' := ⟨h'.valid, h.steps.trans h'.steps⟩

lemma Valid.lands (valid : Valid env σ) :
    Lands (fun t => env.function.isTemporary t = true) (fun _ => True) (fun _ => True) σ σ :=
  ⟨.refl valid.allocation, fun _ _ => trivial⟩

lemma Enters.leads (h : Enters env liveness blocks k σ p) (valid : Valid env σ) : env.Leads σ p.state := by
  obtain ⟨block, σ', -, entered, rfl⟩ := h
  exact (enterBlock_reaches valid.lands (fun _ _ => id) _ _ entered).toReached

lemma allows_temporary (env : Env) (i : Instr) :
    Allows env (fun t => env.function.isTemporary t = true) (fun _ => True) (fun _ => True) i :=
  ⟨fun _ _ => id, fun _ _ _ _ _ _ _ => trivial, fun _ _ => trivial⟩

/-- All that is done to the state from one spot to the next is done in steps. -/
lemma Proceeds.leads (h : Proceeds env liveness blocks p q) (valid : Valid env p.state) :
    env.Leads p.state q.state := by
  have allows := allows_temporary env
  cases h with
  | lower lowered => exact (lowerInstr_reaches valid.lands _ _ (allows _) (fun _ _ =>
      allows _) _ _ lowered).1.toReached
  | skip => exact .refl valid.allocation
  | @leave k _ block _ σ' _ _ left next =>
    have spilled : Yields (leaveBlock block (liveness.liveOut.getD k ∅)) _ fun _ =>
      Lands _ _ (fun _ => True) _ :=
      yields_ite (fun _ => spillLiveOut_reaches valid.lands _) fun _ => yields_pure.2 valid.lands
    have cut := (spilled _ _ left).toReached.step (.output #[])
    exact cut.trans (next.leads (valid.after cut).1)

lemma leads_of_proceeds (h : ReflTransGen (Proceeds env liveness blocks) p q)
    (valid : Valid env p.state) : env.Leads p.state q.state := by
  induction h with
  | refl => exact .refl valid.allocation
  | tail _ next ih => exact ih.trans (next.leads (valid.after ih).1)

/-- Whenever the instructions of a block can be lowered, there are spots all the way to its end. -/
lemma proceeds_of_lowerInstrs {rest : List (Instr × LiveSet)}
    (lowered : lowerInstrs env (liveness.liveOut.getD k ∅) done rest σ = .ok ((), σ')) :
    ∃ done', ReflTransGen (Proceeds env liveness blocks) ⟨k, done, rest, σ⟩ ⟨k, done', [], σ'⟩ := by
  induction rest generalizing done σ with
  | nil =>
    cases lowered
    exact ⟨done, .refl⟩
  | cons next rest ih =>
    cases done with
    | zero =>
      obtain ⟨done, σ₁, one, others⟩ := bind_eq_ok.1 lowered
      obtain ⟨done', chain⟩ := ih others
      exact ⟨done', .head (.lower one) chain⟩
    | succ done =>
      obtain ⟨done', chain⟩ := ih lowered
      exact ⟨done', .head .skip chain⟩

/-- The books are in order, and what was noted in the `past` is still noted. -/
structure Books (past now : Allocation) : Prop where
  occupant_iff : ∀ r t, now.occupant? r = some t ↔ now.location? t = some (.register r)
  pooled : ∀ r t, now.occupant? r = some t → r ∈ pool ∧ r ≠ scratch ∧ r ≠ rsp ∧ r ≠ rbp
  stacked : ∀ (t : Slot) o, now.location? t = some (.stack o) → now.spillSlots[t]? = some o
  kept : ∀ (t : Slot) o, past.spillSlots[t]? = some o → now.spillSlots[t]? = some o
  own : ∀ (t u : Slot) o, now.spillSlots[t]? = some o → now.spillSlots[u]? = some o → t = u
  listed : ∀ r t, past.occupant? r = some t → isCalleeSaved r = true → now.usedCalleeSaved.count r = 1

lemma Valid.books (valid : Valid env τ) (h : env.Leads τ σ) : Books τ.allocation σ.allocation := by
  obtain ⟨⟨allocation, -, -, apart, -⟩, grows⟩ := valid.after h
  refine ⟨fun _ _ => allocation.occupant_iff, fun r t occupied => ?_, fun _ _ => allocation.stacked,
    fun t o => grows.words (w := .spill t), fun t u o first second => ?_,
    fun r t occupied saved => ?_⟩
  · have pooled := allocation.pooled (allocation.occupant_iff.1 occupied)
    obtain ⟨frame, stack, other⟩ := ne_of_mem_pool pooled
    exact ⟨pooled, other, stack, frame⟩
  · have owned : σ.word? env (.spill u) = some o := second
    exact Owner.spill.inj (apart (w := .spill t) first owned)
  · have noted := valid.allocation.noted (valid.allocation.occupant_iff.1 occupied) saved
    exact List.count_eq_one_of_mem allocation.used.1 (grows.used noted)

/-- **The books are in order between any two instructions**, whatever the function is and whether or
not lowering fails later. From the start steps lead to every spot that lowering comes to, and from
there to every later one; and on any way of steps to it, nothing that was noted is lost: spill slots
stay, and a register that was occupied and has to be given back is listed once. -/
theorem books_of_proceeds {f : Lir.Function} {liveness : Liveness} {blocks : List Block}
    {first p q : Spot} (entered : Enters (.of f) liveness blocks 0 (.start f) first)
    (before : ReflTransGen (Proceeds (.of f) liveness blocks) first p)
    (after : ReflTransGen (Proceeds (.of f) liveness blocks) p q) :
    (Env.of f).Leads (.start f) p.state ∧ (Env.of f).Leads p.state q.state ∧
    Books p.state.allocation q.state.allocation ∧ ∀ τ, (Env.of f).Leads (.start f) τ →
    (Env.of f).Leads τ q.state → Books τ.allocation q.state.allocation := by
  have start := start_valid f
  have begun := entered.leads start
  have leads := begun.trans (leads_of_proceeds before (start.after begun).1)
  have valid := (start.after leads).1
  have onward := leads_of_proceeds after valid
  exact ⟨leads, onward, valid.books onward, fun τ reached rest => (start.after reached).1.books rest⟩

/-- A function with nine temporaries. -/
def ninefold : Lir.Function := { plainly with slotCount := 9 }

/-- Each of nine temporaries gets its value. The last of them lives on in the next block. -/
def filling : Block := ⟨(List.range 9).map fun t => .binary .mov (.slot t) (.imm 1), 0, some 0, false⟩

def fillingBlocks : List Block := [filling, ⟨[], 0, some 1, false⟩]

def fillingLiveness : Liveness :=
  ⟨[∅, {8}], [{8}], [filling.instructions.map fun _ => .ofList (List.range 9)], 0, []⟩

theorem books_of_proceeds_filling : ∃ p q : Spot, p.state.allocation.occupant? rbx = some 8 ∧
    q.state.allocation.occupant? rbx = none ∧ q.state.allocation.location? 8 = some (.stack (-8)) ∧
    Books p.state.allocation q.state.allocation := by
  have run : (enterBlock (.of ninefold) ∅ (.start ninefold)).toOption.any fun first =>
      (lowerInstrs (.of ninefold) {8} 0 (filling.instructions.zip
      (fillingLiveness.liveAfter.getD 0 [])) first.2).toOption.any fun full =>
        full.2.allocation.occupant? rbx = some 8 && (leaveBlock filling {8} full.2).toOption.any fun left =>
          (enterBlock (.of ninefold) {8} left.2.cut).toOption.any fun empty =>
            empty.2.allocation.occupant? rbx = none && empty.2.allocation.location? 8 =
            some (.stack (-8)) := by decide +kernel
  obtain ⟨first, begun, run⟩ := exists_of_any run
  obtain ⟨full, lowered, run⟩ := exists_of_any run
  obtain ⟨occupied, run⟩ := Bool.and_eq_true_iff.1 run
  obtain ⟨left, leaves, run⟩ := exists_of_any run
  obtain ⟨empty, next, run⟩ := exists_of_any run
  obtain ⟨gone, stacked⟩ := Bool.and_eq_true_iff.1 run
  have entered : Enters (.of ninefold) fillingLiveness fillingBlocks 0 (.start ninefold) _ :=
    ⟨_, _, rfl, begun, rfl⟩
  obtain ⟨done,
    chain⟩ : ∃ done, ReflTransGen (Proceeds (.of ninefold) fillingLiveness fillingBlocks) ⟨0,
    0, _, first.2⟩ ⟨0, done, [], full.2⟩ := proceeds_of_lowerInstrs lowered
  have last : Proceeds (.of ninefold) fillingLiveness fillingBlocks ⟨0, done, [], full.2⟩ ⟨1, 0, [], empty.2⟩ :=
    .leave rfl leaves ⟨_, _, rfl, next, rfl⟩
  obtain ⟨-, -, books, -⟩ := books_of_proceeds entered chain (.single last)
  exact ⟨_, _, of_decide_eq_true occupied, of_decide_eq_true gone, of_decide_eq_true stacked, books⟩

end EmLang.Native.Lowering
