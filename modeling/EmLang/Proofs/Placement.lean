import EmLang.Native.Lowering
import Mathlib.Data.List.Nodup
import Mathlib.Tactic.Common

/-!
What an allocation says, and how it stays consistent: a register has an occupant exactly when that
slot is located in it, and a slot that is on the stack is in its own spill slot.
-/

namespace EmLang.Native

open Lir List Option Register Std.ExtTreeMap

namespace Allocation

variable (a : Allocation) (s t : Slot) (r q : Register) {o : Int} {p : Register × Slot}
  {place : Location}

/-! ### What updates do -/

@[simp] lemma location?_vacate : (a.vacate s).location? t = a.location? t := by
  unfold vacate
  split <;> rfl

lemma occupant?_vacate : (a.vacate s).occupant? q = if a.location? s =
    some (.register q) then none else a.occupant? q := by
  unfold vacate
  split
  case h_1 r h =>
    simp only [occupant?, getElem?_erase, h, Std.LawfulEqCmp.compare_eq_iff_eq, some.injEq,
      Location.register.injEq]
  case h_2 h => rw [if_neg (h q)]

lemma location?_bind : (a.bind s r).location? t = if t = s then some (.register r) else a.location? t := by
  rw [← location?_vacate a s t]
  simp only [bind, location?, Std.ExtTreeMap.getElem?_insert, Std.LawfulEqCmp.compare_eq_iff_eq,
    eq_comm (a := t)]

lemma occupant?_bind : (a.bind s r).occupant? q = if q = r then some s else if a.location? s =
    some (.register q) then none else a.occupant? q := by
  rw [← occupant?_vacate]
  simp only [bind, occupant?, Std.ExtTreeMap.getElem?_insert, Std.LawfulEqCmp.compare_eq_iff_eq,
    eq_comm (a := q)]

lemma location?_moveToStack (o : Int) :
    (a.moveToStack s o).location? t = if t = s then some (.stack o) else a.location? t := by
  rw [← location?_vacate a s t]
  simp only [moveToStack, location?, Std.ExtTreeMap.getElem?_insert,
    Std.LawfulEqCmp.compare_eq_iff_eq, eq_comm (a := t)]

lemma occupant?_moveToStack (o : Int) : (a.moveToStack s o).occupant? q = if a.location? s =
    some (.register q) then none else a.occupant? q :=
  occupant?_vacate ..

lemma usedCalleeSaved_bind : (a.bind s r).usedCalleeSaved =
    if isCalleeSaved r = true ∧ r ∉ a.usedCalleeSaved then a.usedCalleeSaved ++ [r] else a.usedCalleeSaved := by
  unfold bind vacate
  split <;> rfl

lemma frame_bind : (a.bind s r).frame = a.frame := by
  unfold bind vacate
  split <;> rfl

lemma spillSlots_bind : (a.bind s r).spillSlots = a.spillSlots := by
  unfold bind vacate
  split <;> rfl

lemma usedCalleeSaved_moveToStack (o : Int) : (a.moveToStack s o).usedCalleeSaved = a.usedCalleeSaved := by
  unfold moveToStack vacate
  split <;> rfl

lemma frame_moveToStack (o : Int) : (a.moveToStack s o).frame = a.frame := by
  unfold moveToStack vacate
  split <;> rfl

lemma spillSlots_moveToStack (o : Int) : (a.moveToStack s o).spillSlots = a.spillSlots := by
  unfold moveToStack vacate
  split <;> rfl

lemma location?_spillSlot : (a.spillSlot s).1.location? t = a.location? t := by
  unfold spillSlot
  split <;> rfl

/-! ### Consistency -/

variable {a s t r q} {temporary : Slot → Prop}

/-- Slots and registers agree on who is where. Only temporaries are placed, in registers of the
pool, whose use is noted, or in their spill slots. -/
structure Valid (temporary : Slot → Prop) (a : Allocation) : Prop where
  occupant_iff : ∀ {r t}, a.occupant? r = some t ↔ a.location? t = some (.register r)
  pooled : ∀ {t r}, a.location? t = some (.register r) → r ∈ pool
  noted : ∀ {t r}, a.location? t = some (.register r) → isCalleeSaved r = true → r ∈ a.usedCalleeSaved
  stacked : ∀ {t o}, a.location? t = some (.stack o) → a.spillSlots[t]? = some o
  temporary : ∀ {t place}, a.location? t = some place → temporary t
  used : a.usedCalleeSaved.Nodup ∧ ∀ r ∈ a.usedCalleeSaved, isCalleeSaved r = true

lemma location?_bind_cases (h : (a.bind s r).location? t = some place) :
    t = s ∧ place = .register r ∨ t ≠ s ∧ a.location? t = some place := by
  rw [location?_bind] at h
  split_ifs at h with ht
  · exact .inl ⟨ht, (some.inj h).symm⟩
  · exact .inr ⟨ht, h⟩

lemma location?_moveToStack_cases (h : (a.moveToStack s o).location? t = some place) :
    t = s ∧ place = .stack o ∨ t ≠ s ∧ a.location? t = some place := by
  rw [location?_moveToStack] at h
  split_ifs at h with ht
  · exact .inl ⟨ht, (some.inj h).symm⟩
  · exact .inr ⟨ht, h⟩

namespace Valid

/-- Once a slot is taken out of its register, the others agree as before. -/
lemma occupant_iff_of_ne (valid : a.Valid temporary) (other : t ≠ s) :
    (if a.location? s = some (.register q) then none else a.occupant? q) = some t ↔
    a.location? t = some (.register q) := by
  split_ifs with h
  · refine iff_of_false (nofun) fun h' => other ?_
    rw [← valid.occupant_iff] at h h'
    exact mem_unique h' h
  · exact valid.occupant_iff

/-- What remains valid when slots are forgotten. -/
lemma forget (valid : a.Valid temporary) {b : Allocation}
    (occupant_iff : ∀ {r t}, b.occupant? r = some t ↔ b.location? t = some (.register r))
    (location : ∀ {t place}, b.location? t = some place → a.location? t = some place)
    (used : b.usedCalleeSaved = a.usedCalleeSaved) (spillSlots : b.spillSlots = a.spillSlots) :
    b.Valid temporary where
  occupant_iff := occupant_iff
  pooled h := valid.pooled (location h)
  noted h hr := used ▸ valid.noted (location h) hr
  stacked h := spillSlots ▸ valid.stacked (location h)
  temporary h := valid.temporary (location h)
  used := used ▸ valid.used

lemma mem_used_bind (h : isCalleeSaved r = true) : r ∈ (a.bind s r).usedCalleeSaved := by
  rw [usedCalleeSaved_bind]
  split_ifs with noted
  · simp
  · by_contra missing
    exact noted ⟨h, missing⟩

lemma used_bind_of_mem (h : q ∈ a.usedCalleeSaved) : q ∈ (a.bind s r).usedCalleeSaved := by
  rw [usedCalleeSaved_bind]
  split_ifs
  · simp [h]
  · exact h

variable (valid : a.Valid temporary)

include valid

lemma bind (free : a.occupant? r = none) (pooled : r ∈ pool) (hs : temporary s) :
    (a.bind s r).Valid temporary where
  occupant_iff {q t} := by
    rw [occupant?_bind, location?_bind]
    by_cases hq : q = r <;> by_cases ht : t = s
    · simp [hq, ht]
    · have elsewhere : a.location? t ≠ some (.register r) := fun h => by
        rw [← valid.occupant_iff, free] at h
        cases h
      rw [if_pos hq, if_neg ht, hq]
      exact iff_of_false (fun h => ht (some.inj h).symm) elsewhere
    · have other : r ≠ q := fun h => hq h.symm
      rw [if_neg hq, if_pos ht, ht]
      split_ifs with h
      · simp [other]
      · simp [other, valid.occupant_iff, h]
    · rw [if_neg hq, if_neg ht]
      exact valid.occupant_iff_of_ne ht
  pooled {t q} h := by
    obtain ⟨-, ⟨⟩⟩ | ⟨-, h⟩ := location?_bind_cases h
    · exact pooled
    · exact valid.pooled h
  noted {t q} h hq := by
    obtain ⟨-, ⟨⟩⟩ | ⟨-, h⟩ := location?_bind_cases h
    · exact mem_used_bind hq
    · exact used_bind_of_mem (valid.noted h hq)
  stacked {t o} h := by
    obtain ⟨-, ⟨⟩⟩ | ⟨-, h⟩ := location?_bind_cases h
    rw [spillSlots_bind]
    exact valid.stacked h
  temporary {t place} h := by
    obtain ⟨rfl, -⟩ | ⟨-, h⟩ := location?_bind_cases h
    · exact hs
    · exact valid.temporary h
  used := by
    obtain ⟨nodup, saved⟩ := valid.used
    rw [usedCalleeSaved_bind]
    split_ifs with h
    · refine ⟨nodup_append.2 ⟨nodup, by simp, ?_⟩, fun q hq => ?_⟩
      · intro q hq x hx
        obtain rfl := mem_singleton.1 hx
        exact fun same => h.2 (same ▸ hq)
      · obtain hq | hq := mem_append.1 hq
        · exact saved q hq
        · exact mem_singleton.1 hq ▸ h.1
    · exact ⟨nodup, saved⟩

lemma moveToStack (own : a.spillSlots[s]? = some o) (hs : temporary s) :
    (a.moveToStack s o).Valid temporary where
  occupant_iff {q t} := by
    rw [occupant?_moveToStack, location?_moveToStack]
    by_cases ht : t = s
    · rw [if_pos ht, ht]
      split_ifs with h
      · simp
      · simp [valid.occupant_iff, h]
    · rw [if_neg ht]
      exact valid.occupant_iff_of_ne ht
  pooled {t q} h := by
    obtain ⟨-, ⟨⟩⟩ | ⟨-, h⟩ := location?_moveToStack_cases h
    exact valid.pooled h
  noted {t q} h hq := by
    obtain ⟨-, ⟨⟩⟩ | ⟨-, h⟩ := location?_moveToStack_cases h
    rw [usedCalleeSaved_moveToStack]
    exact valid.noted h hq
  stacked {t o'} h := by
    rw [spillSlots_moveToStack]
    obtain ⟨rfl, ⟨⟩⟩ | ⟨-, h⟩ := location?_moveToStack_cases h
    · exact own
    · exact valid.stacked h
  temporary {t place} h := by
    obtain ⟨rfl, -⟩ | ⟨-, h⟩ := location?_moveToStack_cases h
    · exact hs
    · exact valid.temporary h
  used := by
    rw [usedCalleeSaved_moveToStack]
    exact valid.used

/-- Words that are handed out are those of slots that had none. -/
lemma spillSlot (s : Slot) :
    (a.spillSlot s).1.Valid temporary ∧ (a.spillSlot s).1.spillSlots[s]? = some (a.spillSlot s).2 := by
  unfold Allocation.spillSlot
  split
  case h_1 known => exact ⟨valid, known⟩
  case h_2 unknown =>
    refine ⟨⟨valid.occupant_iff, valid.pooled, valid.noted, fun {u o} location => ?_,
      valid.temporary, valid.used⟩, getElem?_insert_self⟩
    have before := valid.stacked location
    rw [Std.ExtTreeMap.getElem?_insert, if_neg]
    · exact before
    · rw [Std.LawfulEqCmp.compare_eq_iff_eq]
      rintro rfl
      cases unknown.symm.trans before

end Valid

/-! ### Emptying registers -/

/-- From `a` to `b` some registers are emptied, and their slots are nowhere. -/
structure Releases (P : Register → Prop) (a b : Allocation) : Prop where
  location : ∀ {t place}, b.location? t = some place ↔ a.location? t = some place ∧
    ∀ r, place = .register r → ¬ P r
  occupant : ∀ {r t}, b.occupant? r = some t ↔ a.occupant? r = some t ∧ ¬ P r
  frame : b.frame = a.frame
  spillSlots : b.spillSlots = a.spillSlots
  used : b.usedCalleeSaved = a.usedCalleeSaved

namespace Releases

variable {P Q : Register → Prop} {b c : Allocation}

lemma refl (a : Allocation) : Releases (fun _ => False) a a := ⟨by simp, by simp, rfl, rfl, rfl⟩

variable (h : Releases P a b)

include h

lemma trans (h' : Releases Q b c) : Releases (fun r => P r ∨ Q r) a c where
  location := by
    intro t place
    rw [h'.location, h.location, and_assoc, ← forall_and]
    simp only [not_or, imp_and]
  occupant := by
    intro r t
    rw [h'.occupant, h.occupant, not_or, and_assoc]
  frame := h'.frame.trans h.frame
  spillSlots := h'.spillSlots.trans h.spillSlots
  used := h'.used.trans h.used

lemma congr (same : ∀ r, P r ↔ Q r) : Releases Q a b :=
  funext (fun r => propext (same r)) ▸ h

/-- It matters only which of the occupied registers are emptied. -/
lemma congr_of_occupied (valid : a.Valid temporary)
    (same : ∀ r t, a.occupant? r = some t → (P r ↔ Q r)) : Releases Q a b where
  location := by
    intro t place
    rw [h.location]
    refine and_congr_right fun here => forall_congr' fun r => imp_congr_right fun hr => not_congr (same r t ?_)
    exact valid.occupant_iff.2 (hr ▸ here)
  occupant := by
    intro r t
    rw [h.occupant]
    exact and_congr_right fun here => not_congr (same r t here)
  frame := h.frame
  spillSlots := h.spillSlots
  used := h.used

lemma valid (valid : a.Valid temporary) : b.Valid temporary := by
  refine valid.forget ?_ (fun here => (h.location.1 here).1) h.used h.spillSlots
  intro r t
  rw [h.occupant, h.location, valid.occupant_iff]
  refine and_congr_right fun _ => ⟨fun keep q hq => ?_, fun keep => keep r rfl⟩
  cases hq
  exact keep

end Releases

lemma Valid.release (valid : a.Valid temporary) (r : Register) : Releases (· = r) a (a.release r) := by
  unfold Allocation.release
  split
  case h_1 free =>
    refine ⟨fun {t place} => ⟨fun here => ⟨here, fun q hq hr => ?_⟩, And.left⟩,
      fun {q t} => ⟨fun here => ⟨here, fun hr => ?_⟩, And.left⟩,
      rfl, rfl, rfl⟩
    · rw [hq, hr, ← valid.occupant_iff, free] at here
      cases here
    · rw [hr, free] at here
      cases here
  case h_2 s occupied =>
    have here := valid.occupant_iff.1 occupied
    refine ⟨fun {t place} => ?_, fun {q t} => ?_, rfl, rfl, rfl⟩
    · simp only [location?] at here ⊢
      simp only [here, if_true, getElem?_erase, Std.LawfulEqCmp.compare_eq_iff_eq]
      by_cases hs : s = t
      · subst hs
        simp [here, eq_comm]
      · rw [if_neg hs]
        refine ⟨fun ht => ⟨ht, fun q hq hr => hs ?_⟩, And.left⟩
        have occupied' := valid.occupant_iff.2 (hr ▸ hq ▸ ht)
        exact mem_unique occupied occupied'
    · simp only [occupant?, getElem?_erase, Std.LawfulEqCmp.compare_eq_iff_eq, eq_comm (a := r)]
      by_cases hq : q = r <;> simp [hq]

lemma Valid.releaseAll (valid : a.Valid temporary) (l : List (Register × Slot)) :
    Releases (fun r => r ∈ l.map Prod.fst) a (l.foldl (fun a p => a.release p.1) a) := by
  induction l generalizing a with
  | nil => exact (Releases.refl a).congr (by simp)
  | cons p l ih =>
    have first := valid.release p.1
    exact (first.trans (ih (first.valid valid))).congr (by simp)

lemma mem_occupied : p ∈ a.occupied ↔ p.1 ∈ pool ∧ a.occupant? p.1 = some p.2 := by
  obtain ⟨r, t⟩ := p
  simp only [occupied, mem_filterMap, map_eq_some_iff, Prod.mk.injEq]
  constructor
  · rintro ⟨q, hq, t', ht, rfl, rfl⟩
    exact ⟨hq, ht⟩
  · rintro ⟨hr, ht⟩
    exact ⟨r, hr, t, ht, rfl, rfl⟩

lemma mem_occupiedCallerSaved : p ∈ a.occupiedCallerSaved ↔ p.1 ∈ pool ∧
    a.occupant? p.1 = some p.2 ∧ isCallerSaved p.1 = true := by
  rw [occupiedCallerSaved, mem_filter, mem_occupied, and_assoc]

lemma Valid.releaseCallerSaved (valid : a.Valid temporary) : Releases (fun r =>
      isCallerSaved r = true) a (a.occupiedCallerSaved.foldl (fun a p => a.release p.1) a) := by
  refine (valid.releaseAll _).congr_of_occupied valid fun r t occupied => ?_
  rw [List.mem_map]
  constructor
  · rintro ⟨p, hp, rfl⟩
    exact (mem_occupiedCallerSaved.1 hp).2.2
  · exact fun caller => ⟨(r, t), mem_occupiedCallerSaved.2
      ⟨valid.pooled (valid.occupant_iff.1 occupied), occupied, caller⟩, rfl⟩

lemma nodup_occupied (a : Allocation) : (a.occupied.map Prod.fst).Nodup := by
  have same : a.occupied.map Prod.fst = pool.filter fun r => (a.occupant? r).isSome := by
    rw [occupied, map_filterMap, ← filterMap_eq_filter]
    refine filterMap_congr fun r _ => ?_
    cases h : a.occupant? r <;> simp [Option.guard, h]
  rw [same]
  exact List.Nodup.filter _ (by decide)

lemma Valid.releaseDead (valid : a.Valid temporary) (live : LiveSet) :
    Releases (fun r => ∃ t, a.occupant? r = some t ∧ t ∉ live) a (a.releaseDead live) := by
  refine (valid.releaseAll _).congr fun r => ?_
  simp [occupant?, mem_toList_iff_getElem?_eq_some, Std.ExtTreeSet.mem_iff_contains,
    -Std.ExtTreeSet.contains_iff_mem]

lemma Valid.clear (valid : a.Valid temporary) : Releases (fun r => ∃ t, a.occupant? r = some t) a a.clear := by
  refine (valid.releaseAll _).congr fun r => ?_
  simp only [List.mem_map, mem_occupied, Prod.exists, exists_and_right, exists_eq_right]
  exact ⟨fun ⟨t, _, h⟩ => ⟨t, h⟩, fun ⟨t, h⟩ => ⟨t, valid.pooled (valid.occupant_iff.1 h), h⟩⟩

/-! ### Finding registers -/

variable {excluded : List Register}

lemma findFree?_some (h : a.findFree? excluded = some r) : r ∈ pool ∧ a.occupant? r = none ∧ r ∉ excluded := by
  have found := find?_some h
  simp only [isFree, Bool.and_eq_true, isNone_iff_eq_none, decide_eq_true_eq] at found
  exact ⟨mem_of_find?_eq_some h, found.1, found.2⟩

lemma chooseVictim?_some (h : a.chooseVictim? excluded = some r) :
    r ∈ pool ∧ (∃ t, a.occupant? r = some t) ∧ r ∉ excluded := by
  have found := find?_some h
  simp only [isFree, Bool.and_eq_true, Bool.not_eq_true', isNone_eq_false_iff, isSome_iff_exists,
    decide_eq_true_eq] at found
  exact ⟨mem_of_find?_eq_some h, found.1, found.2⟩

/-- A register can be had unless all are excluded. -/
lemma findFree?_or_chooseVictim? (hr : r ∈ pool) (allowed : r ∉ excluded)
    (none : a.findFree? excluded = none) : ∃ q, a.chooseVictim? excluded = some q := by
  cases h : a.chooseVictim? excluded with
  | some q => exact ⟨q, rfl⟩
  | none =>
    have busy := find?_eq_none.1 none r hr
    have free := find?_eq_none.1 h r hr
    simp [allowed] at busy free
    rw [free] at busy
    cases busy

end Allocation

/-- The places that temporaries can be in are no frame registers. -/
lemma ne_of_mem_pool {r : Register} (h : r ∈ pool) : r ≠ rbp ∧ r ≠ rsp ∧ r ≠ scratch := by
  revert h
  cases r <;> decide

end EmLang.Native
