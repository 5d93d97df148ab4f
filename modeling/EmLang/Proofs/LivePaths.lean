import EmLang.Lir.Liveness
import Mathlib.Data.List.Forall2
import Mathlib.Logic.Relation

/-!
What it means that a slot is live: from a place in the code a path leads to an instruction that
mentions the slot, and the slot is not declared on the way. Going through the blocks finds exactly
these slots. While it does, no more than they is found, and what was found at the start of a block
has been handed to all blocks before it; a block is no longer pending only when its two ends agree.
-/

namespace EmLang.Lir

open Except List Std.ExtTreeSet

variable {f : Function} {flow : Flow} {i : Instr} {lir : Lir} {p : Nat} {α : Type}

/-! ### Mentions -/

/-- The operand mentions the slot, in the arguments of a callee too. -/
inductive Operand.Mentions (s : Slot) : Operand → Prop where
  | slot : Mentions s (.slot s)
  | argument {symbol : String} {arguments : List Operand} {returnType : Ty} {isExternal : Bool}
      {operand : Operand} (mem : operand ∈ arguments) (mentions : Mentions s operand) :
      Mentions s (.callee symbol arguments returnType isExternal)

def Instr.Mentions (s : Slot) (i : Instr) : Prop := ∃ operand ∈ i.operands, operand.Mentions s

mutual

lemma Operand.mem_slots {s : Slot} : ∀ operand : Operand, s ∈ operand.slots ↔ operand.Mentions s
  | .slot t => by
    rw [slots, mem_singleton]
    constructor
    · rintro rfl
      exact .slot
    · rintro ⟨⟩
      rfl
  | .callee symbol arguments returnType isExternal => by
    rw [slots, Operand.mem_slotsOfAll arguments]
    constructor
    · rintro ⟨operand, mem, mentions⟩
      exact .argument mem mentions
    · rintro ⟨⟩
      exact ⟨_, ‹_›, ‹_›⟩
  | .returnSlot | .block _ | .str _ | .reg _ | .mem _ _ | .imm _ | .flag _ => by
    exact iff_of_false (by simp [slots]) (by rintro ⟨⟩)

lemma Operand.mem_slotsOfAll {s : Slot} : ∀ operands : List Operand, s ∈ slotsOfAll operands ↔
    ∃ operand ∈ operands, operand.Mentions s
  | [] => by simp [slotsOfAll]
  | operand :: operands => by
    simp [slotsOfAll, Operand.mem_slots operand, Operand.mem_slotsOfAll operands]

end

lemma Instr.mem_slots {s : Slot} : s ∈ i.slots ↔ i.Mentions s := by
  simp only [Instr.slots, Instr.Mentions, mem_flatMap, Operand.mem_slots]

/-! ### Sets of slots -/

namespace LiveSet

variable {a b : LiveSet} {s : Slot}

lemma subset_iff : a.subset b = true ↔ ∀ s ∈ a, s ∈ b := by
  simp [subset, mem_toList]

lemma mem_insertAll {slots : List Slot} : s ∈ a.insertAll slots ↔ s ∈ a ∨ s ∈ slots := by
  induction slots generalizing a with
  | nil => simp [insertAll]
  | cons t slots ih =>
    have first : s ∈ a.insert t ↔ s = t ∨ s ∈ a := by
      rw [mem_insert, Std.LawfulEqCmp.compare_eq_iff_eq, eq_comm]
    rw [insertAll, foldl_cons, ← insertAll, ih, first, mem_cons]
    tauto

lemma mem_union : s ∈ a.union b ↔ s ∈ a ∨ s ∈ b := by
  rw [union, mem_insertAll, mem_toList]

end LiveSet

/-- A slot is live before an instruction that mentions it, and before one behind which it is live; a
declaration of the slot ends both. -/
lemma mem_liveBefore {s : Slot} {after : LiveSet} :
    s ∈ liveBefore i after ↔ i ≠ .unary .declare (.slot s) ∧ (i.Mentions s ∨ s ∈ after) := by
  unfold liveBefore
  split
  case h_1 t =>
    have none : t ≠ s → ¬ (Instr.unary .declare (.slot t)).Mentions s := by
      rintro other ⟨operand, mem, mentions⟩
      obtain rfl := mem_singleton.1 mem
      cases mentions
      exact other rfl
    by_cases same : t = s
    · simp [same]
    · simp [same, none same]
  case h_2 other =>
    rw [LiveSet.mem_insertAll, Instr.mem_slots, or_comm]
    exact (and_iff_right fun h => other s h).symm

/-! ### Paths -/

/-- A place in the code of a function: in the block at a position, with so many instructions before
it. -/
structure Point where
  position : Nat
  index : Nat

namespace Flow

variable (lir : Lir) (flow : Flow)

def code (p : Nat) : List Instr :=
  ((flow.blocks[p]?.bind fun b => lir.blocks[b]?).map Block.instructions).getD []

def instr? (a : Point) : Option Instr := (flow.code lir a.position)[a.index]?

/-- Control can go from the one place to the other: over an instruction, or from the end of a block
to the start of one that follows it. -/
inductive Edge : Point → Point → Prop where
  | pass {p k : Nat} {i : Instr} (here : flow.instr? lir ⟨p, k⟩ = some i) : Edge ⟨p, k⟩ ⟨p, k + 1⟩
  | leave {p q : Nat} (leads : q ∈ flow.successors.getD p []) : Edge ⟨p, (flow.code lir p).length⟩ ⟨q, 0⟩

/-- Control can go from the one place to the other, and the slot is not declared between them. -/
def Passes (s : Slot) (a b : Point) : Prop :=
  flow.Edge lir a b ∧ flow.instr? lir a ≠ some (.unary .declare (.slot s))

/-- From the place a path leads to an instruction that mentions the slot and does not declare it,
and the slot is not declared on the way. -/
def Needs (s : Slot) (a : Point) : Prop :=
  ∃ b i, Relation.ReflTransGen (flow.Passes lir s) a b ∧ flow.instr? lir b = some i ∧ i.Mentions s ∧
    i ≠ .unary .declare (.slot s)

variable {lir flow} {s : Slot} {k : Nat}

lemma needs_over (here : flow.instr? lir ⟨p, k⟩ = some i) :
    flow.Needs lir s ⟨p, k⟩ ↔ i ≠ .unary .declare (.slot s) ∧ (i.Mentions s ∨ flow.Needs lir s ⟨p, k + 1⟩) := by
  constructor
  · rintro ⟨b, j, path, there, mentions, other⟩
    obtain rfl | ⟨c, ⟨edge, undeclared⟩, path⟩ := path.cases_head
    · obtain rfl := Option.mem_unique here there
      exact ⟨other, .inl mentions⟩
    · refine ⟨fun same => undeclared (same ▸ here), .inr ?_⟩
      cases edge with
      | pass _ => exact ⟨b, j, path, there, mentions, other⟩
      | leave _ =>
        simp only [instr?, getElem?_length] at here
        cases here
  · rintro ⟨other, mentions | ⟨b, j, path, rest⟩⟩
    · exact ⟨_, i, .refl, here, mentions, other⟩
    · refine ⟨b, j, .head ⟨.pass here, fun declared => other ?_⟩ path, rest⟩
      exact Option.mem_unique here declared

lemma needs_leave : flow.Needs lir s ⟨p, (flow.code lir p).length⟩ ↔
    ∃ q ∈ flow.successors.getD p [], flow.Needs lir s ⟨q, 0⟩ := by
  have done : flow.instr? lir ⟨p, (flow.code lir p).length⟩ = none := getElem?_length _
  constructor
  · rintro ⟨b, j, path, there, rest⟩
    obtain rfl | ⟨c, ⟨edge, -⟩, path⟩ := path.cases_head
    · cases done.symm.trans there
    · generalize hk : (flow.code lir p).length = k at edge done
      cases edge with
      | pass here => cases done.symm.trans here
      | @leave _ q leads => exact ⟨q, leads, b, j, path, there, rest⟩
  · rintro ⟨q, leads, b, j, path, rest⟩
    exact ⟨b, j, .head ⟨.leave leads, done ▸ nofun⟩ path, rest⟩

lemma liveAtStart_drop (out : LiveSet) (here : flow.instr? lir ⟨p, k⟩ = some i) :
    liveAtStart out ((flow.code lir p).drop k) =
    liveBefore i (liveAtStart out ((flow.code lir p).drop (k + 1))) := by
  obtain ⟨lt, rfl⟩ := List.getElem?_eq_some_iff.1 here
  rw [drop_eq_getElem_cons lt]
  rfl

/-- When no more is live at the end of a block than should be, the same holds at every place in it,
and likewise when no less is. -/
lemma liveAtStart_drop_iff (out : LiveSet) (le : k ≤ (flow.code lir p).length) :
    ((s ∈ out → flow.Needs lir s ⟨p, (flow.code lir p).length⟩) →
      s ∈ liveAtStart out ((flow.code lir p).drop k) → flow.Needs lir s ⟨p, k⟩) ∧
    ((flow.Needs lir s ⟨p, (flow.code lir p).length⟩ → s ∈ out) → flow.Needs lir s ⟨p, k⟩ →
      s ∈ liveAtStart out ((flow.code lir p).drop k)) := by
  induction h : (flow.code lir p).length - k generalizing k with
  | zero =>
    obtain rfl : k = (flow.code lir p).length := by omega
    rw [drop_length]
    exact ⟨id, id⟩
  | succ n ih =>
    have lt : k < (flow.code lir p).length := by omega
    have here : flow.instr? lir ⟨p, k⟩ = some (flow.code lir p)[k] := getElem?_eq_getElem lt
    rw [liveAtStart_drop out here, mem_liveBefore, needs_over here]
    obtain ⟨sound, complete⟩ := ih lt (by omega)
    exact ⟨fun right => And.imp_right (Or.imp_right (sound right)),
      fun right => And.imp_right (Or.imp_right (complete right))⟩

lemma mem_liveAtStart_drop {out : LiveSet} (right : s ∈ out ↔
      flow.Needs lir s ⟨p, (flow.code lir p).length⟩) (le : k ≤ (flow.code lir p).length) :
    s ∈ liveAtStart out ((flow.code lir p).drop k) ↔ flow.Needs lir s ⟨p, k⟩ :=
  ⟨(liveAtStart_drop_iff out le).1 right.1, (liveAtStart_drop_iff out le).2 right.2⟩

end Flow

/-! ### Flows of functions -/

lemma ok_of_bind {ε β : Type} {x : Except ε β} {f : β → Except ε α} {a : α} :
    (x >>= f) = .ok a ↔ ∃ b, x = .ok b ∧ f b = .ok a := by
  cases x with
  | error e => exact ⟨nofun, fun ⟨_, run, _⟩ => nomatch run⟩
  | ok b => exact ⟨fun run => ⟨b, rfl, run⟩, fun ⟨_, same, run⟩ => ok.inj same ▸ run⟩

lemma forall₂_of_mapM {ε β : Type} {f : α → Except ε β} {as : List α} {bs : List β} (h : as.mapM f = .ok bs) :
    Forall₂ (fun a b => f a = .ok b) as bs := by
  induction as generalizing bs with
  | nil =>
    cases h
    exact .nil
  | cons a as ih =>
    rw [mapM_cons] at h
    obtain ⟨b, first, h⟩ := ok_of_bind.1 h
    obtain ⟨bs', rest, h⟩ := ok_of_bind.1 h
    cases h
    exact .cons first (ih rest)

lemma exists_mapM_ok {β ε : Type} (act : α → Except ε β) {as : List α}
    (all : ∀ a ∈ as, ∃ b, act a = .ok b) : ∃ bs, as.mapM act = .ok bs := by
  induction as with
  | nil => exact ⟨[], rfl⟩
  | cons a as ih =>
    rw [forall_mem_cons] at all
    obtain ⟨b, hb⟩ := all.1
    obtain ⟨bs, hbs⟩ := ih all.2
    exact ⟨b :: bs, by rw [mapM_cons, hb, hbs]; rfl⟩

/-- The two ways to look at the flow agree. -/
structure Flow.Agrees (flow : Flow) : Prop where
  successors : flow.successors.length = flow.blocks.length
  predecessors : ∀ p < flow.blocks.length, ∀ q, q ∈ flow.predecessors.getD p [] ↔ p ∈ flow.successors.getD q []

lemma Flow.Agrees.predecessor_lt (agrees : flow.Agrees) (lt : p < flow.blocks.length) :
    ∀ q ∈ flow.predecessors.getD p [], q < flow.blocks.length := by
  intro q hq
  rw [agrees.predecessors p lt, getD_eq_getElem?_getD] at hq
  by_contra behind
  rw [getElem?_eq_none (by rw [agrees.successors]; omega)] at hq
  cases hq

namespace Flow

/-- A position is found before another as often as that is behind it. -/
lemma count_predecessorsOf (successors : List (List Nat)) (p q : Nat) :
    (predecessorsOf successors q).count p = (successors.getD p []).count q := by
  have counted : ∀ n p, ((successors.zipIdx n).flatMap fun pair => replicate (pair.1.count q) pair.2).count p =
      if n ≤ p then (successors.getD (p - n) []).count q else 0 := by
    induction successors with
    | nil => simp
    | cons targets successors ih =>
      intro n p
      rw [zipIdx_cons, flatMap_cons, count_append, count_replicate, ih]
      obtain lt | rfl | gt := Nat.lt_trichotomy n p
      · obtain ⟨k, same⟩ : ∃ k, p - n = k + 1 := ⟨p - n - 1, by omega⟩
        simp [same, Nat.ne_of_lt lt, Nat.le_of_lt lt, show n + 1 ≤ p from lt, show p - (n + 1) = k by omega]
      · simp [Nat.not_succ_le_self n]
      · simp [Nat.ne_of_gt gt, Nat.not_le_of_gt gt, show ¬ n + 1 ≤ p by omega]
  simpa [predecessorsOf] using counted 0 p

lemma of_eq_ok (h : Flow.of lir f = .ok flow) :
    flow.blocks = f.blocks ∧ flow.successors.length = f.blocks.length ∧
    flow.predecessors = (range f.blocks.length).map (predecessorsOf flow.successors) ∧
    ∀ p b, f.blocks[p]? = some b → successorsOf lir f b p = .ok (flow.successors.getD p []) := by
  obtain ⟨successors, found, h⟩ := ok_of_bind.1 h
  cases h
  have all := forall₂_of_mapM found
  have size : f.blocks.length = successors.length := by simpa using all.length_eq
  refine ⟨rfl, size.symm, rfl, fun p b here => ?_⟩
  obtain ⟨lt, rfl⟩ := List.getElem?_eq_some_iff.1 here
  have lt' : p < successors.length := size ▸ lt
  simpa [lt'] using all.get (by simpa using lt) lt'

lemma agrees_of (h : Flow.of lir f = .ok flow) : flow.Agrees := by
  obtain ⟨blocks, size, predecessors, -⟩ := of_eq_ok h
  refine ⟨size.trans (congrArg length blocks.symm), fun p lt q => ?_⟩
  have lt' : p < f.blocks.length := blocks ▸ lt
  have here : flow.predecessors.getD p [] = predecessorsOf flow.successors p := by simp [predecessors, lt']
  rw [here, ← count_pos_iff, count_predecessorsOf, count_pos_iff]

end Flow

/-! ### Going through blocks -/

namespace Liveness

def State.inAt (s : State) (p : Nat) : LiveSet := s.liveIn.getD p ∅

def State.outAt (s : State) (p : Nat) : LiveSet := s.liveOut.getD p ∅

lemma getD_set {q : Nat} {l : List α} {a d : α} (lt : p < l.length) :
    (l.set p a).getD q d = if q = p then a else l.getD q d := by
  simp only [getD_eq_getElem?_getD, getElem?_set, eq_comm (a := p), lt, if_true]
  split <;> rfl

lemma getD_replicate (n p : Nat) : (replicate n (∅ : LiveSet)).getD p ∅ = ∅ := by
  rw [getD_eq_getElem?_getD, getElem?_replicate]
  split_ifs <;> rfl

/-- What is live at the start of a block was handed to the blocks at these positions. -/
structure Fed (live : LiveSet) (ps : List Nat) (s s' : State) : Prop where
  liveIn : s'.liveIn = s.liveIn
  history : s'.history = s.history
  length : s'.liveOut.length = s.liveOut.length
  out : ∀ q x, x ∈ s'.outAt q ↔ x ∈ s.outAt q ∨ q ∈ ps ∧ x ∈ live
  kept : ∀ p ∈ s.pending, p ∈ s'.pending
  pending : ∀ p ∈ s'.pending, p ∈ s.pending ∨ p ∈ ps
  same : ∀ q, q ∉ s'.pending → s'.outAt q = s.outAt q

variable {live : LiveSet} {ps : List Nat} {s s' s'' : State}

lemma Fed.refl (live : LiveSet) (s : State) : Fed live [] s s :=
  ⟨rfl, rfl, rfl, by simp, fun _ => id, fun _ => .inl, fun _ _ => rfl⟩

lemma Fed.trans (h : Fed live [p] s s') (h' : Fed live ps s' s'') : Fed live (p :: ps) s s'' where
  liveIn := h'.liveIn.trans h.liveIn
  history := h'.history.trans h.history
  length := h'.length.trans h.length
  out q x := by
    rw [h'.out, h.out, mem_singleton, mem_cons, or_assoc, ← or_and_right]
  kept q hq := h'.kept q (h.kept q hq)
  pending q hq := by
    rw [mem_cons]
    obtain hq | hq := h'.pending q hq
    · exact (h.pending q hq).imp_right fun hq => .inl (mem_singleton.1 hq)
    · exact .inr (.inr hq)
  same q hq := (h'.same q hq).trans (h.same q fun h => hq (h'.kept q h))

lemma fed_feed (live : LiveSet) (lt : p < s.liveOut.length) : Fed live [p] s (feed live s p) := by
  by_cases known : live.subset (s.outAt p) = true
  · rw [show feed live s p = s from if_pos known]
    rw [LiveSet.subset_iff] at known
    refine ⟨rfl, rfl, rfl, fun q x => ⟨.inl, ?_⟩, fun _ => id, fun _ => .inl, fun _ _ => rfl⟩
    rintro (h | ⟨hq, hx⟩)
    · exact h
    · exact mem_singleton.1 hq ▸ known x hx
  · have changed : feed live s p = ⟨s.liveIn, s.liveOut.set p ((s.outAt p).union live),
        if p ∈ s.pending then s.pending else s.pending ++ [p], s.history⟩ := if_neg known
    have waiting q : q ∈ (feed live s p).pending ↔ q ∈ s.pending ∨ q = p := by
      rw [changed]
      split_ifs with already
      · exact ⟨.inl, fun h => h.elim id fun h => h ▸ already⟩
      · simp
    have out q : (feed live s p).outAt q = if q = p then (s.outAt p).union live else s.outAt q := by
      rw [changed]
      exact getD_set lt
    refine ⟨by rw [changed], by rw [changed], by simp [changed], fun q x => ?_, fun q hq => (waiting
      q).2 (.inl hq), fun q hq => ?_, fun q hq => ?_⟩
    · rw [out, mem_singleton]
      split_ifs with same
      · simp [LiveSet.mem_union, same]
      · simp [same]
    · rw [mem_singleton]
      exact (waiting q).1 hq
    · rw [out, if_neg fun same => hq ((waiting q).2 (.inr same))]

lemma fed_foldl (live : LiveSet) (inside : ∀ p ∈ ps, p < s.liveOut.length) :
    Fed live ps s (ps.foldl (feed live) s) := by
  induction ps generalizing s with
  | nil => exact .refl live s
  | cons p ps ih =>
    have first := fed_feed live (inside p (by simp))
    exact first.trans (ih fun q hq => first.length ▸ inside q (by simp [hq]))

/-- The state when the block at `p` has been gone through, at whose start `live` is live. -/
def State.passed (flow : Flow) (live : LiveSet) (s : State) (p : Nat) : State :=
  let s := (flow.predecessors.getD p []).foldl (feed live) { s with history := s.history ++ [(p, live)] }
  { s with liveIn := s.liveIn.set p live }

/-- A block is gone through unless something is no longer live at its start. -/
lemma step_eq_ok {code : List (List Instr)} :
    step f flow code s p = .ok s' ↔ (s.inAt p).subset (liveAtStart (s.outAt p) (code.getD p [])) =
    true ∧ s' = s.passed flow (liveAtStart (s.outAt p) (code.getD p [])) p := by
  unfold step
  dsimp only
  split_ifs with grows
  · exact ⟨fun h => ⟨grows, (ok.inj h).symm⟩, fun h => congrArg ok h.2.symm⟩
  · exact ⟨nofun, fun h => absurd h.1 grows⟩

/-- What is different when a block has been gone through. -/
structure Passed (flow : Flow) (live : LiveSet) (p : Nat) (s s' : State) : Prop where
  sizes : s'.liveIn.length = s.liveIn.length ∧ s'.liveOut.length = s.liveOut.length
  history : s'.history = s.history ++ [(p, live)]
  inAt : ∀ q, s'.inAt q = if q = p then live else s.inAt q
  outAt : ∀ q x, x ∈ s'.outAt q ↔ x ∈ s.outAt q ∨ p ∈ flow.successors.getD q [] ∧ x ∈ live
  kept : ∀ q ∈ s.pending, q ∈ s'.pending
  pending : ∀ q ∈ s'.pending, q ∈ s.pending ∨ q < flow.blocks.length
  same : ∀ q, q ∉ s'.pending → s'.outAt q = s.outAt q

lemma passed_passed (agrees : flow.Agrees) (live : LiveSet) (lt : p < flow.blocks.length)
    (sizeIn : s.liveIn.length = flow.blocks.length) (sizeOut : s.liveOut.length = flow.blocks.length) :
    Passed flow live p s (s.passed flow live p) := by
  have inside : ∀ q ∈ flow.predecessors.getD p [], q < s.liveOut.length :=
    sizeOut.symm ▸ agrees.predecessor_lt lt
  have fed := fed_foldl (s := { s with history := s.history ++ [(p, live)] }) live inside
  unfold State.passed
  generalize (flow.predecessors.getD p []).foldl (feed live) _ = t at fed
  have known : t.liveIn = s.liveIn := fed.liveIn
  refine ⟨⟨by simp [known], fed.length⟩, fed.history, fun q => ?_, fun q x => ?_, fed.kept,
    fun q hq => ?_, fed.same⟩
  · rw [State.inAt, getD_set (by rw [known]; omega), known]
    rfl
  · show x ∈ t.outAt q ↔ _
    rw [fed.out, agrees.predecessors p lt]
    rfl
  · exact (fed.pending q hq).imp_right fun hq => sizeOut ▸ inside q hq

/-- What holds while blocks are gone through. -/
structure Sweeps (lir : Lir) (flow : Flow) (s : State) : Prop where
  sizes : s.liveIn.length = flow.blocks.length ∧ s.liveOut.length = flow.blocks.length
  pending : ∀ p ∈ s.pending, p < flow.blocks.length
  /-- The two ends of a block that is not pending agree. -/
  settled : ∀ p, p ∉ s.pending → ∀ x, x ∈ s.inAt p ↔ x ∈ liveAtStart (s.outAt p) (flow.code lir p)
  handed : ∀ p q, p ∈ flow.successors.getD q [] → ∀ x ∈ s.inAt p, x ∈ s.outAt q
  taken : ∀ q, ∀ x ∈ s.outAt q, ∃ p ∈ flow.successors.getD q [], x ∈ s.inAt p
  needed : ∀ p, ∀ x ∈ s.inAt p, flow.Needs lir x ⟨p, 0⟩

variable {code : List (List Instr)}

lemma sweeps_start (lir : Lir) (flow : Flow) : Sweeps lir flow (start flow.blocks.length) := by
  have noIn p x : x ∉ (start flow.blocks.length).inAt p := by
    rw [State.inAt, start, getD_replicate]
    exact not_mem_empty
  have noOut p x : x ∉ (start flow.blocks.length).outAt p := by
    rw [State.outAt, start, getD_replicate]
    exact not_mem_empty
  refine ⟨by simp [start], by simp [start], fun p out x => ?_, fun p q _ x h => absurd h (noIn p
    x), fun q x h => absurd h (noOut q x), fun p x h => absurd h (noIn p x)⟩
  have none : flow.code lir p = [] := by
    have behind : flow.blocks.length ≤ p := by simpa [start] using out
    simp [Flow.code, behind]
  rw [none]
  exact iff_of_false (noIn p x) (noOut p x)

variable (agrees : flow.Agrees) (same : ∀ p, code.getD p [] = flow.code lir p) (sweeps : Sweeps lir flow s)

include agrees same sweeps

/-- The block that is gone through hands what is live at its start to the blocks before it. -/
lemma step_sweeps {rest : List Nat} (next : s.pending = p :: rest)
    (h : step f flow code { s with pending := rest } p = .ok s') : Sweeps lir flow s' := by
  have lt := sweeps.pending p (by simp [next])
  obtain ⟨sizeIn, sizeOut⟩ := sweeps.sizes
  obtain ⟨grows, passed⟩ := step_eq_ok.1 h
  rw [LiveSet.subset_iff, same] at grows
  rw [same] at passed
  set live := liveAtStart (s.outAt p) (flow.code lir p) with hlive
  obtain ⟨sizes, -, inAt, outAt, kept, pending, unchanged⟩ :=
    passed ▸ passed_passed (s := { s with pending := rest }) agrees live lt sizeIn sizeOut
  -- What is live at the start of a block only grows.
  have grown : ∀ q, ∀ x ∈ s.inAt q, x ∈ s'.inAt q := by
    intro q x hx
    rw [inAt]
    split_ifs with hq
    · exact grows x (hq ▸ hx)
    · exact hx
  refine ⟨⟨sizes.1.trans sizeIn, sizes.2.trans sizeOut⟩, fun q hq => ?_, fun q settled x => ?_,
    fun q r leads x hx => ?_, fun q x hx => ?_, fun q x hx => ?_⟩
  · obtain hq | hq := pending q hq
    · exact sweeps.pending q (by simp [next, show q ∈ rest from hq])
    · exact hq
  · rw [inAt, unchanged q settled]
    split_ifs with hq
    · rw [hlive, hq]
      rfl
    · refine sweeps.settled q (fun waits => settled (kept q ?_)) x
      rw [next] at waits
      exact (mem_cons.1 waits).resolve_left hq
  · rw [inAt] at hx
    rw [outAt]
    split_ifs at hx with hq
    · exact .inr ⟨hq ▸ leads, hx⟩
    · exact .inl (sweeps.handed q r leads x hx)
  · obtain hx | ⟨leads, hx⟩ := (outAt q x).1 hx
    · obtain ⟨r, leads, hx⟩ := sweeps.taken q x hx
      exact ⟨r, leads, grown r x hx⟩
    · exact ⟨p, leads, by rwa [inAt, if_pos rfl]⟩
  · rw [inAt] at hx
    split_ifs at hx with hq
    · have sound := (Flow.liveAtStart_drop_iff (s := x) (s.outAt p)
        (Nat.zero_le (flow.code lir p).length)).1 fun out => ?_
      · exact hq ▸ sound hx
      · obtain ⟨r, leads, hx⟩ := sweeps.taken p x out
        exact Flow.needs_leave.2 ⟨r, leads, sweeps.needed r x hx⟩
    · exact sweeps.needed q x hx

/-- Going through pending blocks ends when none is left. -/
lemma iterate_sweeps {limit n : Nat} (h : iterate f flow code limit n s = .ok s') :
    Sweeps lir flow s' ∧ s'.pending = [] := by
  induction n generalizing s with
  | zero =>
    unfold iterate at h
    split at h
    case h_1 done =>
      cases h
      exact ⟨sweeps, done⟩
    case h_2 => cases h
  | succ n ih =>
    unfold iterate at h
    split at h
    case h_1 done =>
      cases h
      exact ⟨sweeps, done⟩
    case h_2 p rest next =>
      obtain ⟨t, stepped, h⟩ := ok_of_bind.1 h
      exact ih (step_sweeps agrees same sweeps next stepped) h

end Liveness

/-! ### What is found -/

namespace Liveness

variable {liveness : Liveness}

/-- **Liveness that says at every place which slots are needed.** -/
structure Exact (lir : Lir) (flow : Flow) (liveness : Liveness) : Prop where
  sizes : liveness.liveIn.length = flow.blocks.length ∧ liveness.liveOut.length = flow.blocks.length ∧
    liveness.liveAfter.map length = (range flow.blocks.length).map fun p => (flow.code lir p).length
  liveAfter : ∀ p k, k < (flow.code lir p).length → ∀ s,
    s ∈ (liveness.liveAfter.getD p []).getD k ∅ ↔ flow.Needs lir s ⟨p, k + 1⟩
  liveIn : ∀ p s, s ∈ liveness.liveIn.getD p ∅ ↔ flow.Needs lir s ⟨p, 0⟩
  liveOut : ∀ p s, s ∈ liveness.liveOut.getD p ∅ ↔ ∃ q ∈ flow.successors.getD p [], s ∈ liveness.liveIn.getD q ∅

section

variable {s : State} (sweeps : Sweeps lir flow s) (done : s.pending = [])

include sweeps done

/-- A path to a use goes only over places at which the slot is live. -/
lemma Sweeps.mem_of_needs {x : Slot} {a : Point} (needs : flow.Needs lir x a) :
    x ∈ liveAtStart (s.outAt a.position) ((flow.code lir a.position).drop a.index) := by
  obtain ⟨b, i, path, there, mentions, other⟩ := needs
  induction path using Relation.ReflTransGen.head_induction_on with
  | refl =>
    rw [Flow.liveAtStart_drop _ there, mem_liveBefore]
    exact ⟨other, .inl mentions⟩
  | head step path ih =>
    obtain ⟨edge, undeclared⟩ := step
    cases edge with
    | pass here =>
      rw [Flow.liveAtStart_drop _ here, mem_liveBefore]
      exact ⟨fun same => undeclared (same ▸ here), .inr ih⟩
    | @leave p q leads =>
      rw [drop_length]
      exact sweeps.handed q p leads x ((sweeps.settled q (by simp [done]) x).2 ih)

/-- When no block is pending, what was found is right. -/
lemma Sweeps.out_iff (p : Nat) (x : Slot) :
    x ∈ s.outAt p ↔ flow.Needs lir x ⟨p, (flow.code lir p).length⟩ := by
  constructor
  · intro out
    obtain ⟨q, leads, hx⟩ := sweeps.taken p x out
    exact Flow.needs_leave.2 ⟨q, leads, sweeps.needed q x hx⟩
  · intro needs
    simpa [liveAtStart] using sweeps.mem_of_needs done needs

lemma Sweeps.in_iff (p : Nat) (x : Slot) : x ∈ s.inAt p ↔ flow.Needs lir x ⟨p, 0⟩ := by
  refine ⟨sweeps.needed p x, fun needs => ?_⟩
  exact (sweeps.settled p (by simp [done]) x).2 (sweeps.mem_of_needs done needs)

end

lemma getD_liveAfterEach {k : Nat} (out : LiveSet) (is : List Instr) (lt : k < is.length) :
    (liveAfterEach out is).getD k ∅ = liveAtStart out (is.drop (k + 1)) := by
  induction is generalizing k with
  | nil => cases lt
  | cons i is ih =>
    rw [liveAfterEach_cons]
    cases k with
    | zero => rfl
    | succ k => exact ih (Nat.lt_of_succ_lt_succ lt)

lemma length_liveAfterEach (out : LiveSet) (is : List Instr) : (liveAfterEach out is).length = is.length := by
  induction is with
  | nil => rfl
  | cons i is ih => rw [liveAfterEach_cons, length_cons, length_cons, ih]

lemma code_of_mapM {code : List (List Instr)}
    (h : (flow.blocks.mapM fun b => do return (← lir.getBlock b).instructions) = .ok code) :
    code = (range flow.blocks.length).map (flow.code lir) := by
  have all := forall₂_of_mapM h
  refine ext_getElem (by simpa using all.length_eq.symm) fun p lt lt' => ?_
  have lt'' : p < flow.blocks.length := by simpa using lt'
  have here := all.get lt'' lt
  rw [get_eq_getElem, get_eq_getElem, getBlock] at here
  rw [getElem_map, getElem_range, Flow.code, getElem?_eq_getElem lt'', Option.bind_some]
  cases block : lir.blocks[flow.blocks[p]]? with
  | none =>
    rw [block] at here
    cases here
  | some block' =>
    rw [block] at here
    exact (ok.inj here).symm

lemma code_eq_nil (behind : flow.blocks.length ≤ p) : flow.code lir p = [] := by
  simp [Flow.code, behind]

lemma getD_codes (lir : Lir) (flow : Flow) (p : Nat) :
    ((range flow.blocks.length).map (flow.code lir)).getD p [] = flow.code lir p := by
  rw [getD_eq_getElem?_getD, getElem?_map]
  by_cases inside : p < flow.blocks.length
  · rw [getElem?_range inside, Option.map_some, Option.getD_some]
  · rw [getElem?_eq_none (by simpa using inside), code_eq_nil (by omega)]
    rfl

/-- Liveness is what is left when no block is pending. -/
lemma sweeps_of_ok (built : Flow.of lir f = .ok flow)
    (found : Liveness.of lir f flow = .ok liveness) : ∃ s, Sweeps lir flow s ∧ s.pending = [] ∧
    liveness.liveIn = s.liveIn ∧ liveness.liveOut = s.liveOut ∧ liveness.liveAfter =
    zipWith liveAfterEach s.liveOut ((range flow.blocks.length).map (flow.code lir)) := by
  obtain ⟨code, hcode, found⟩ := ok_of_bind.1 found
  obtain rfl := code_of_mapM hcode
  obtain ⟨s, ended, found⟩ := ok_of_bind.1 found
  cases found
  obtain ⟨sweeps, done⟩ :=
    iterate_sweeps (Flow.agrees_of built) (getD_codes lir flow) (sweeps_start lir flow) ended
  exact ⟨s, sweeps, done, rfl, rfl, rfl⟩

/-- **Liveness is exact.** A slot is found to be live exactly where a path leads to a mention of
it. -/
theorem exact_of_ok (built : Flow.of lir f = .ok flow) (found : Liveness.of lir f flow = .ok liveness) :
    liveness.Exact lir flow := by
  obtain ⟨s, sweeps, done, liveIn, liveOut, liveAfter⟩ := sweeps_of_ok built found
  obtain ⟨sizeIn, sizeOut⟩ := sweeps.sizes
  refine ⟨⟨liveIn ▸ sizeIn, liveOut ▸ sizeOut, ?_⟩, fun p k lt x => ?_, liveIn ▸ sweeps.in_iff done,
    fun p x => ?_⟩
  · rw [liveAfter]
    refine ext_getElem (by simp [sizeOut]) fun p lt lt' => ?_
    simp [length_liveAfterEach]
  · have inside : p < flow.blocks.length := by
      by_contra behind
      rw [code_eq_nil (by omega)] at lt
      cases lt
    have here : liveness.liveAfter.getD p [] = liveAfterEach (s.outAt p) (flow.code lir p) := by
      rw [liveAfter, getD_eq_getElem?_getD, getElem?_zipWith, getElem?_map, getElem?_range inside,
        State.outAt, getD_eq_getElem?_getD, getElem?_eq_getElem (sizeOut.symm ▸ inside)]
      rfl
    rw [here, getD_liveAfterEach _ _ lt]
    exact Flow.mem_liveAtStart_drop (sweeps.out_iff done p x) lt
  · rw [liveIn, liveOut, show s.liveOut.getD p ∅ = s.outAt p from rfl, sweeps.out_iff done, Flow.needs_leave]
    exact exists_congr fun q => and_congr_right fun _ => (sweeps.in_iff done q x).symm

/-- Two loops, of which one is a block alone, and a block that nothing leads to. -/
def twoLoops : Lir :=
  let blocks : List (List Instr) := [[.binary .mov (.slot 0) (.imm 5), .unary .jmp (.block 1)],
    [.binary .cmp (.slot 0) (.slot 1), .unary (.jcc .equal) (.block 1)], [.unary .declare (.slot 0),
    .unary .call (.callee "f" [.slot 0, .slot 2] .int false), .unary .jmp (.block 1)],
    [.binary .add (.slot 3) (.slot 3), .nullary .ret]]
  { functions := #[⟨"f", .int, [0, 1, 2, 3], 0, 4, 4, false⟩]
    blocks := (blocks.map fun is => ⟨is, 0, none, false⟩).toArray
    strings := #[] }

theorem exact_twoLoops : ∃ f flow liveness, twoLoops.functions[0]? = some f ∧ Flow.of twoLoops f = .ok flow ∧
    Liveness.of twoLoops f flow = .ok liveness ∧ liveness.Exact twoLoops flow := by
  have found : ((twoLoops.functions[0]?).bind fun f => (Flow.of twoLoops f).toOption.map fun flow =>
      (Liveness.of twoLoops f flow).toBool) = some true := by decide +kernel
  obtain ⟨f, here, found⟩ := Option.bind_eq_some_iff.1 found
  obtain ⟨flow, built, found⟩ := Option.map_eq_some_iff.1 found
  cases flowing : Flow.of twoLoops f with
  | error e => simp [flowing, Except.toOption] at built
  | ok flow' =>
    rw [flowing] at built
    obtain rfl := Option.some.inj built
    cases living : Liveness.of twoLoops f flow' with
    | error e => simp [living, Except.toBool] at found
    | ok liveness => exact ⟨f, flow', liveness, here, flowing, living, exact_of_ok flowing living⟩

end Liveness

end EmLang.Lir
