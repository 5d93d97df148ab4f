import EmLang.Proofs.Listings
import EmLang.Proofs.ReachedStates
import Mathlib.Data.List.Find

/-!
Functions are lowered on their own. Lowering works on the blocks of one function in the table of
all, and on nothing else: it reads no others, and changes no others, as long as no jump leaves the
function.
-/

namespace EmLang.Native

open Lir Layout List Lowering

variable {lir lir' lir₀ : Lir} {S bs : List BlockId} {g g' : Nat} {b t : BlockId} {is : List Instr}

/-! ### A function in two programs -/

/-- Function number `g` of one program is number `g'` of another, with the same blocks in `S`. -/
structure Agree (S : List BlockId) (g g' : Nat) (lir lir' : Lir) : Prop where
  function : lir.functions[g]? = lir'.functions[g']?
  blocks : ∀ b ∈ S, lir.blocks[b]? = lir'.blocks[b]?

/-- Only function number `g` and blocks in `S` differ. -/
structure Confined (S : List BlockId) (g : Nat) (lir lir' : Lir) : Prop where
  strings : lir'.strings = lir.strings
  others : ∀ h, h ≠ g → lir'.functions[h]? = lir.functions[h]?
  elsewhere : ∀ b, b ∉ S → lir'.blocks[b]? = lir.blocks[b]?

/-- Two programs in which a function is lowered that they share. The second was `lir₀` before. -/
structure Tandem (S : List BlockId) (g g' : Nat) (lir₀ lir lir' : Lir) :
    Prop extends Agree S g g' lir lir', Confined S g' lir₀ lir' where
  inside : blocksOf lir g ⊆ S
  jumps : ∀ b ∈ S, jumpsOf (code lir b) ⊆ S

/-- Programs that go on in tandem, with the same result. -/
def InTandem {α : Type} (S : List BlockId) (g g' : Nat) (lir₀ : Lir) (p q : Lir × α) : Prop :=
  Tandem S g g' lir₀ p.1 q.1 ∧ p.2 = q.2

@[elab_as_elim] lemma InTandem.elim {α : Type} {p q : Lir × α} {motive : Lir × α → Lir × α → Prop}
    (h : InTandem S g g' lir₀ p q) (each : ∀ lir lir' a, Tandem S g g' lir₀ lir lir' →
      motive (lir, a) (lir', a)) : motive p q := by
  obtain ⟨lir, a⟩ := p
  obtain ⟨lir', _⟩ := q
  obtain ⟨h, rfl : a = _⟩ := h
  exact each lir lir' a h

lemma mem_jumpsOf : t ∈ jumpsOf is ↔ ∃ i ∈ is, i.jumpTarget? = some t := by simp [jumpsOf]

lemma jumpTarget?_redirect (a c : BlockId) (i : Instr) :
    (redirect a c i).jumpTarget? = i.jumpTarget?.map fun t => if t = a then c else t := by
  fun_cases redirect a c i <;> grind [Instr.jumpTarget?]

lemma mapM_congr {α β ε : Type} {F F' : α → Except ε β} {as : List α}
    (same : ∀ a ∈ as, F a = F' a) : as.mapM F = as.mapM F' := by
  have maps := congrArg (mapM id) (map_congr_left same)
  rwa [mapM_map, mapM_map] at maps

lemma Agree.blocksOf_eq (h : Agree S g g' lir lir') : blocksOf lir g = blocksOf lir' g' :=
    by rw [blocksOf, blocksOf, h.function]

namespace Tandem

variable (h : Tandem S g g' lir₀ lir lir')

include h

/-! ### Reading -/

lemma code_eq (mem : b ∈ S) : code lir b = code lir' b := by rw [code, code, h.blocks b mem]

lemma codes_eq (sub : bs ⊆ S) : bs.map (fun b => (b, code lir b)) = bs.map fun b => (b, code lir' b) :=
  map_congr_left fun b hb => by rw [h.code_eq (sub hb)]

lemma nameOf_eq : nameOf lir g = nameOf lir' g' := by rw [nameOf, nameOf, h.function]

lemma targets_eq (sub : bs ⊆ S) : targets lir bs = targets lir' bs ∧ targets lir bs ⊆ S := by
  refine ⟨flatMap_congr fun b hb => by rw [h.code_eq (sub hb)], fun t ht => ?_⟩
  obtain ⟨b, hb, ht⟩ := mem_flatMap.1 ht
  exact h.jumps b (sub hb) (mem_jumpsOf.2 (mem_filterMap.1 ht))

lemma isTargeted_eq (sub : bs ⊆ S) (t : BlockId) : isTargeted lir bs t = isTargeted lir' bs t := by
  have same := congrArg (any · fun p => p.2.any (·.jumpTarget? = some t)) (h.codes_eq sub)
  rwa [any_map, any_map] at same

lemma verify_eq : verify lir g = verify lir' g' := by
  rw [verify, verify, ← h.blocksOf_eq, ← h.nameOf_eq]
  have same := congrArg (findSome? fun p => findVirtual p.1 p.2 (nameOf lir g)) (h.codes_eq h.inside)
  rwa [findSome?_map, findSome?_map] at same

lemma sub_of_found {f : Lir.Function} (found : lir.functions[g]? = some f) :
    f.blocks ⊆ S := by simpa [blocksOf, found] using h.inside

/-! ### Writing -/

lemma modifyBlock (mem : b ∈ S) (change : Block → Block)
    (jumps : ∀ block, jumpsOf block.instructions ⊆ S → jumpsOf (change block).instructions ⊆ S) :
    Tandem S g g' lir₀ (lir.modifyBlock b change) (lir'.modifyBlock b change) := by
  refine { h with blocks := fun c hc => ?_, elsewhere := fun c hc => ?_, jumps := fun c hc => ?_ }
  · rw [blocks_modifyBlock, blocks_modifyBlock, h.blocks c hc]
  · rw [blocks_modifyBlock, if_neg fun same : c = b => hc (same ▸ mem), h.elsewhere c hc]
  · have kept := h.jumps c hc
    rw [code] at kept ⊢
    rw [blocks_modifyBlock]
    split_ifs
    · cases here : lir.blocks[c]? with
      | none => rintro _ ⟨⟩
      | some block => exact jumps block (by rwa [here] at kept)
    · exact kept

lemma setCode_of_jumps (mem : b ∈ S) (jumps : jumpsOf is ⊆ S) :
    Tandem S g g' lir₀ (setCode lir b is) (setCode lir' b is) :=
  h.modifyBlock mem _ fun _ _ => jumps

lemma setCode_of_sublist (mem : b ∈ S) (less : is <+ code lir b) :
    Tandem S g g' lir₀ (setCode lir b is) (setCode lir' b is) := by
  refine h.setCode_of_jumps mem fun t ht => h.jumps b mem ?_
  obtain ⟨i, hi, jumps⟩ := mem_jumpsOf.1 ht
  exact mem_jumpsOf.2 ⟨i, less.subset hi, jumps⟩

lemma dropSelfMoves_tandem (sub : bs ⊆ S) : Tandem S g g' lir₀ (dropSelfMoves lir bs) (dropSelfMoves lir' bs) :=
  foldl_rel h fun _ hb _ _ h => h.code_eq (sub hb) ▸ h.setCode_of_sublist (sub hb) filter_sublist

lemma dropJumps_tandem (sub : bs ⊆ S) : InTandem S g g' lir₀ (dropJumps lir bs) (dropJumps lir' bs) := by
  refine foldl_rel ⟨h, rfl⟩ fun ⟨b, next⟩ hb _ _ both => InTandem.elim both fun lir lir' changed h => ?_
  have mem : b ∈ S := sub (of_mem_zip hb).1
  simp only [dropJump, ← h.code_eq mem]
  split_ifs
  · exact ⟨h.setCode_of_sublist mem (dropLast_sublist _), rfl⟩
  · exact ⟨h, rfl⟩

lemma retarget_tandem {c : BlockId} (sub : bs ⊆ S) (mem : c ∈ S) (a : BlockId) :
    Tandem S g g' lir₀ (retarget lir bs a c) (retarget lir' bs a c) := by
  refine foldl_rel h fun b hb lir lir' h => h.code_eq (sub hb) ▸ h.setCode_of_jumps (sub hb) fun t ht => ?_
  obtain ⟨_, moved, jumps⟩ := mem_jumpsOf.1 ht
  obtain ⟨i, hi, rfl⟩ := mem_map.1 moved
  rw [jumpTarget?_redirect, Option.map_eq_some_iff] at jumps
  obtain ⟨t, jumps, rfl⟩ := jumps
  split_ifs
  · exact mem
  · exact h.jumps b (sub hb) (mem_jumpsOf.2 ⟨i, hi, jumps⟩)

lemma withBlocks (sub : bs ⊆ S) : Tandem S g g' lir₀ (lir.modifyFunction g
      ({ · with blocks := bs })) (lir'.modifyFunction g' ({ · with blocks := bs })) := by
  refine { h with function := ?_, others := fun k hk => ?_, inside := ?_ }
  · simp only [modifyFunction, Array.getElem?_modify, if_true, h.function]
  · rw [modifyFunction, Array.getElem?_modify, if_neg hk.symm, h.others k hk]
  · rw [blocksOf, modifyFunction, Array.getElem?_modify, if_pos rfl]
    cases lir.functions[g]? with
    | none => rintro _ ⟨⟩
    | some f => exact sub

/-! ### Layout -/

lemma round_tandem : InTandem S g g' lir₀ (round lir g) (round lir' g') := by
  have sub := h.inside
  have dropped := h.dropJumps_tandem sub
  rw [Layout.round, Layout.round, ← h.blocksOf_eq]
  generalize blocksOf lir g = bs at sub dropped ⊢
  refine InTandem.elim dropped fun lir lir' changed h => ?_
  have first : (bs.findIdx? fun b => (code lir b).isEmpty) = bs.findIdx? fun b => (code lir' b).isEmpty := by
    have same := congrArg (findIdx? fun p => p.2.isEmpty) (h.codes_eq sub)
    rwa [findIdx?_map, findIdx?_map] at same
  dsimp only
  rw [first]
  split
  · exact ⟨h, rfl⟩
  case h_2 position _ =>
    have rest : bs.drop (position + 1) ⊆ S := fun _ hb => sub (mem_of_mem_drop hb)
    have less : bs.eraseIdx position ⊆ S := fun _ hb => sub (eraseIdx_subset hb)
    have next : ((bs.drop (position + 1)).find? fun b => !(code lir b).isEmpty) = find?
      (fun b => !(code lir' b).isEmpty) _ := find?_congr fun b hb => by rw [h.code_eq (rest hb)]
    rw [next, h.isTargeted_eq sub]
    split
    case h_1 next found =>
      exact ⟨(h.retarget_tandem sub (rest (mem_of_find?_eq_some found)) _).withBlocks less, rfl⟩
    · split_ifs
      · exact ⟨h, rfl⟩
      · exact ⟨h.withBlocks less, rfl⟩

lemma settle_tandem (n : Nat) : InTandem S g g' lir₀ (settle g n lir) (settle g' n lir') := by
  induction n generalizing lir lir' with
  | zero => exact ⟨h, rfl⟩
  | succ n ih =>
    rw [settle, settle]
    refine InTandem.elim h.round_tandem fun lir lir' result h => ?_
    cases result with
    | done => exact ⟨h, rfl⟩
    | again => exact ih h
    | stuck b => exact ⟨h, congrArg (some <| Failure.emptyTarget b ·) h.nameOf_eq⟩

lemma finalize_tandem : InTandem S g g' lir₀ (finalize lir g) (finalize lir' g') := by
  have missing {bs} (sub : bs ⊆ S) : (bs.any fun b => !decide (b < lir.blocks.size)) =
      bs.any fun b => !decide (b < lir'.blocks.size) := by
    refine Bool.eq_iff_iff.2 (any_eq_true.trans
      (Iff.trans (exists_congr fun b => and_congr_right fun hb => ?_) any_eq_true.symm))
    simp only [Bool.not_eq_true', decide_eq_false_iff_not, not_lt, ← Array.getElem?_eq_none_iff,
      h.blocks b (sub hb)]
  rw [finalize, finalize, ← h.function]
  cases found : lir.functions[g]? with
  | none => exact ⟨h, rfl⟩
  | some f =>
    have sub := h.sub_of_found found
    dsimp only
    rw [missing sub]
    split_ifs
    · exact ⟨h, rfl⟩
    · have tidied := h.dropSelfMoves_tandem sub
      have rounds : roundsFor (dropSelfMoves lir f.blocks) f.blocks =
          roundsFor (dropSelfMoves lir' f.blocks) f.blocks := by
        have same := congrArg (foldr (fun p n => p.2.length + 1 + n) 1) (tidied.codes_eq sub)
        rwa [foldr_map, foldr_map] at same
      rw [rounds]
      refine InTandem.elim (tidied.settle_tandem _) fun lir lir' failure h => ?_
      cases failure with
      | some failure => exact ⟨h, rfl⟩
      | none =>
        have numbered : Tandem S g g' lir₀ (number lir (blocksOf lir g)) (number lir' (blocksOf lir g)) :=
          foldl_rel h fun _ hp _ _ h' => h'.modifyBlock (h.inside (fst_mem_of_mem_zipIdx hp)) _ fun _ => id
        obtain ⟨same, within⟩ := numbered.targets_eq h.inside
        dsimp only
        rw [← h.blocksOf_eq, ← same, missing within]
        split_ifs
        · exact ⟨numbered, rfl⟩
        · exact ⟨foldl_rel numbered fun b hb _ _ h => h.modifyBlock (within hb) _ fun _ => id, rfl⟩

/-! ### Lowering -/

lemma functionCode_eq : functionCode lir g = functionCode lir' g' := by
  have block b (hb : b ∈ S) : lir.getBlock b = lir'.getBlock b := by rw [getBlock, getBlock, h.blocks b hb]
  rw [functionCode, functionCode, getFunction, getFunction, ← h.function]
  cases found : lir.functions[g]? with
  | none => rfl
  | some f =>
    have sub := h.sub_of_found found
    have flows : Flow.of lir f = Flow.of lir' f := by
      unfold Flow.of
      congr 1
      exact mapM_congr fun p hp => by simp only [Flow.successorsOf, block p.1 (sub (fst_mem_of_mem_zipIdx hp))]
    simp only [bind, Except.bind, flows]
    cases built : Flow.of lir' f with
    | error failure => rfl
    | ok flow =>
      have within : flow.blocks ⊆ S := (Flow.of_eq_ok built).1 ▸ sub
      have lives : Liveness.of lir f flow = Liveness.of lir' f flow := by
        unfold Liveness.of
        congr 1
        exact mapM_congr fun b hb => by rw [block b (within hb)]
      have lowers : lowerFunction lir f flow = lowerFunction lir' f flow := by
        funext liveness
        rw [lowerFunction, lowerFunction, mapM_congr fun b hb => block b (within hb)]
      simp only [lives, lowers]

lemma functionCode_inside {codes : List (List Instr)} {report : FunctionReport}
    (coded : functionCode lir g = .ok (bs, codes, report)) :
    bs ⊆ S ∧ ∀ is ∈ codes, jumpsOf is ⊆ S := by
  obtain ⟨f, got, -⟩ := ok_of_bind.1 coded
  have found : lir.functions[g]? = some f := by
    unfold getFunction at got
    cases here : lir.functions[g]? <;> simp_all
  obtain ⟨flow, liveness, flows, -, lowered, rfl⟩ := functionCode_eq_ok found coded
  have within : flow.blocks ⊆ S := (Flow.of_eq_ok flows).1 ▸ h.sub_of_found found
  obtain ⟨blocks, τ, codes', got, -, -, run, jumps⟩ := lowerFunction_reports lowered
  have allows : ∀ block ∈ blocks, ∀ i ∈ block.instructions,
      Allows (.of f) (fun _ => True) (fun _ => True) (· ∈ S) i := by
    intro block mem i hi
    refine ⟨fun _ _ _ => trivial, fun _ _ _ _ _ _ _ => trivial, fun t ht => ?_⟩
    obtain ⟨p, lt, rfl⟩ := mem_iff_getElem.1 mem
    have all := forall₂_of_mapM got
    have here := all.get (all.length_eq ▸ lt) lt
    have own := h.jumps _ (within (get_mem flow.blocks ⟨p, all.length_eq ▸ lt⟩))
    rw [getBlock] at here
    split at here
    · rename_i found
      cases here
      rw [code, found] at own
      exact own (mem_jumpsOf.2 ⟨i, hi, ht⟩)
    · cases here
  obtain ⟨-, -, all⟩ := yields_mapM (fun p hp σ h => lowerBlock_reaches h (fun _ _ _ => trivial)
    (allows p.1 (fst_mem_of_mem_zipIdx hp))) ⟨.refl (new_valid _), by rintro _ ⟨⟩⟩ codes' τ run
  refine ⟨within, fun is mem => ?_⟩
  obtain ⟨is', mem', same⟩ := jumps is mem
  exact same ▸ all is' mem'

lemma lowerInPlace_tandem : InTandem S g g' lir₀ (lowerInPlace lir g) (lowerInPlace lir' g') := by
  rw [lowerInPlace, lowerInPlace, ← h.functionCode_eq]
  cases coded : functionCode lir g with
  | error failure => exact ⟨h, rfl⟩
  | ok result =>
    obtain ⟨bs, codes, report⟩ := result
    obtain ⟨sub, jumps⟩ := h.functionCode_inside coded
    have set : Tandem S g g' lir₀ ((bs.zip codes).foldl (fun lir p => setCode lir p.1 p.2) lir)
      (foldl _ lir' _) := foldl_rel h fun p hp _ _ h =>
      h.setCode_of_jumps (sub (of_mem_zip hp).1) (jumps _ (of_mem_zip hp).2)
    dsimp only
    refine InTandem.elim set.finalize_tandem fun lir lir' failure h => ?_
    cases failure with
    | some failure => exact ⟨h, rfl⟩
    | none =>
      dsimp only
      rw [← h.verify_eq]
      cases verify lir g <;> exact ⟨h, rfl⟩

end Tandem

/-! ### All functions -/

/-- The functions with these numbers have blocks of their own, which their jumps do not leave. -/
structure Apart (lir : Lir) (gs : List Nat) : Prop where
  disjoint : ∀ g ∈ gs, ∀ h ∈ gs, g ≠ h → ∀ b ∈ blocksOf lir g, b ∉ blocksOf lir h
  inside : ∀ g ∈ gs, ∀ b ∈ blocksOf lir g, ∀ t ∈ jumpsOf (code lir b), t ∈ blocksOf lir g

/-- Each function is lowered as it would be alone, and nothing else is changed. -/
lemma lowerEach_alone {gs : List Nat} (apart : Apart lir gs)
    (nodup : gs.Nodup) (done : (lowerEach lir gs).failure = none) :
    (∀ h ∉ gs, (lowerEach lir gs).lir.functions[h]? = lir.functions[h]?) ∧
    (∀ b, (∀ g ∈ gs, b ∉ blocksOf lir g) → (lowerEach lir gs).lir.blocks[b]? = lir.blocks[b]?) ∧
    ∀ (k : Nat) g, gs[k]? = some g → ∀ lir' g', Agree (blocksOf lir g) g g' lir lir' →
    ∃ lir'' report, lowerInPlace lir' g' = (lir'', .ok report) ∧ (lowerEach lir gs).reports[k]? =
    some report ∧ Agree (blocksOf lir g) g g' (lowerEach lir gs).lir lir'' ∧
    Confined (blocksOf lir g) g' lir' lir'' := by
  induction gs generalizing lir with
  | nil => exact ⟨fun _ _ => rfl, fun _ _ => rfl, nofun⟩
  | cons g gs ih =>
    obtain ⟨fresh, nodup⟩ := nodup_cons.1 nodup
    have alone : ∀ {lir' g'}, Agree (blocksOf lir g) g g' lir lir' →
        InTandem (blocksOf lir g) g g' lir' (lowerInPlace lir g) (lowerInPlace lir' g') := fun agree =>
      Tandem.lowerInPlace_tandem { agree with
        strings := rfl, others := fun _ _ => rfl, elsewhere := fun _ _ => rfl, inside :=
        fun _ => id, jumps := apart.inside g mem_cons_self }
    have confined := (alone ⟨rfl, fun _ _ => rfl⟩).1.toConfined
    rw [lowerEach] at done ⊢
    generalize lowered : lowerInPlace lir g = p at done alone confined ⊢
    obtain ⟨lir1, failure | report⟩ := p
    · cases done
    · have kept : ∀ h ∈ gs, Agree (blocksOf lir h) h h lir1 lir := by
        intro h hh
        have other : h ≠ g := fun same => fresh (same ▸ hh)
        exact ⟨confined.others h other, fun b hb =>
          confined.elsewhere b (apart.disjoint h (mem_cons_of_mem _ hh) g mem_cons_self other b hb)⟩
      have apart1 : Apart lir1 gs := by
        refine ⟨fun h hh k hk => ?_, fun h hh => ?_⟩
        · rw [(kept h hh).blocksOf_eq, (kept k hk).blocksOf_eq]
          exact apart.disjoint h (mem_cons_of_mem _ hh) k (mem_cons_of_mem _ hk)
        · rw [(kept h hh).blocksOf_eq]
          intro b hb
          rw [code, (kept h hh).blocks b hb]
          exact apart.inside h (mem_cons_of_mem _ hh) b hb
      obtain ⟨functions, blocks, rest⟩ := ih apart1 nodup done
      have elsewhere : ∀ b, (∀ h ∈ gs, b ∉ blocksOf lir h) → (lowerEach lir1 gs).lir.blocks[b]? =
        lir1.blocks[b]? := fun b hb => blocks b fun h hh => (kept h hh).blocksOf_eq ▸ hb h hh
      refine ⟨fun h hh => ?_, fun b hb => ?_, fun k h here lir' g' agree => ?_⟩
      · rw [mem_cons, not_or] at hh
        exact (functions h hh.2).trans (confined.others h hh.1)
      · rw [forall_mem_cons] at hb
        exact (elsewhere b hb.2).trans (confined.elsewhere b hb.1)
      · cases k with
        | zero =>
          obtain rfl : g = h := Option.some.inj here
          obtain ⟨tandem, result⟩ := alone agree
          refine ⟨_, report, Prod.ext rfl result.symm, rfl,
            ⟨(functions g fresh).trans tandem.function, fun b hb => ?_⟩, tandem.toConfined⟩
          refine (elsewhere b fun h hh => ?_).trans (tandem.blocks b hb)
          exact apart.disjoint g mem_cons_self h (mem_cons_of_mem _ hh) (fun same => fresh (same ▸ hh)) b hb
        | succ k =>
          obtain ⟨function, same⟩ := kept h (mem_of_getElem? here)
          have lowered := rest k h here lir' g'
          rw [(kept h (mem_of_getElem? here)).blocksOf_eq] at lowered
          exact lowered ⟨function.trans agree.function, fun b hb => (same b hb).trans (agree.blocks b hb)⟩

/-- **Functions are lowered independently.** What becomes of a function of a program, with its
blocks and the report on it, becomes of it in every program that has this function, whatever else is
there and whatever was lowered before; and lowering it there changes nothing else. -/
theorem lower_independent
    (apart : Apart lir (range lir.functions.size)) (done : (lower lir).failure = none)
    (here : g < lir.functions.size) (agree : Agree (blocksOf lir g) g g' lir lir') :
    ∃ lir'' report, lowerInPlace lir' g' = (lir'', .ok report) ∧
    (lower lir).reports[g]? = some report ∧ Agree (blocksOf lir g) g g' (lower lir).lir lir'' ∧
    Confined (blocksOf lir g) g' lir' lir'' ∧ (Apart lir' (range lir'.functions.size) →
      (lower lir').failure = none → (lower lir').reports[g']? = some report ∧
      Agree (blocksOf lir g) g g' (lower lir).lir (lower lir').lir) := by
  obtain ⟨lir'', report, lowered, reported, final, confined⟩ :=
    (lowerEach_alone apart nodup_range done).2.2 g g (getElem?_range here) lir' g' agree
  refine ⟨lir'', report, lowered, reported, final, confined, fun apart' done' => ?_⟩
  have here' : g' < lir'.functions.size := by
    obtain ⟨lt, -⟩ := Array.getElem?_eq_some_iff.1 (agree.function.symm.trans (Array.getElem?_eq_getElem here))
    exact lt
  obtain ⟨_, _, lowered', reported', final', -⟩ :=
    (lowerEach_alone apart' nodup_range done').2.2 g' g' (getElem?_range here') lir' g' ⟨rfl, fun _ _ => rfl⟩
  obtain ⟨rfl, ⟨⟩⟩ := Prod.mk.inj (lowered.symm.trans lowered')
  exact ⟨reported', final.function.trans final'.function.symm, fun b hb =>
    (final.blocks b hb).trans (final'.blocks b (agree.blocksOf_eq ▸ hb)).symm⟩

/-- A loop over three blocks, with another function between them. -/
def besideLoop (other : List Instr) : Lir where
  functions := #[⟨"loop", .int, [0, 2, 3], 0, 0, 0, true⟩, ⟨"other", .int, [1], 0, 0, 0, true⟩]
  blocks := #[⟨[.unary .jmp (.block 2)], 0, none, false⟩, ⟨other, 1, none, false⟩,
    ⟨[.unary (.jcc .less) (.block 0)], 0, none, false⟩, ⟨[.nullary .ret], 0, none, false⟩]
  strings := #[]

theorem lower_independent_besideLoop : ∃ lir report, lowerInPlace (besideLoop []) 0 =
    (lir, .ok report) ∧ (lower (besideLoop [.nullary .ret])).reports[0]? = some report ∧
    Agree [0, 2, 3] 0 0 (lower (besideLoop [.nullary .ret])).lir lir ∧
    Confined [0, 2, 3] 0 (besideLoop []) lir := by
  have apart : Apart (besideLoop [.nullary .ret]) (range 2) := ⟨by decide, by decide⟩
  have done : (lower (besideLoop [.nullary .ret])).failure = none := by decide +kernel
  have agree : Agree [0, 2, 3] 0 0 (besideLoop [.nullary .ret]) (besideLoop []) := ⟨rfl, by decide⟩
  obtain ⟨lir, report, lowered, reported, final, confined, -⟩ :=
    lower_independent (g := 0) apart done (by decide) agree
  exact ⟨lir, report, lowered, reported, final, confined⟩

end EmLang.Native
