import EmLang.Proofs.CallLowering

/-!
The frame of a function. Homes are words of their own, and when a function has begun, its arguments
are in the homes of its parameters; when it ends, registers are as they were.
-/

namespace EmLang.Native

open Cpu Homes Lir List Register Std.ExtTreeMap

/-! ### Homes -/

namespace Homes

variable {parameterCount y : Nat} {frame frame' : Frame} {slots : List Slot} {offsets : List Int}
  {x : Nat} {o : Int}

/-- A slot is an argument that comes on the stack. -/
def OnStack (parameterCount : Nat) (x : Nat) : Prop := x < parameterCount ∧ argumentRegisters.length ≤ x

/-- The home of a slot: a stack argument is where it is, and everything else gets a word between the
ends of the frame before and after. -/
structure Home (parameterCount : Nat) (frame frame' : Frame) (x : Slot) (o : Int) : Prop where
  stack : OnStack parameterCount x → o = stackArgumentOffset x
  word : ¬ OnStack parameterCount x → 8 ∣ o + frame.size ∧ -frame'.size ≤ o ∧ o < -frame.size

/-- The homes that a list of slots gets. The words lie below each other. -/
structure Placing (parameterCount : Nat) (slots : List Slot) (frame frame' : Frame)
    (offsets : List Int) : Prop where
  size : frame.size ≤ frame'.size ∧ 8 ∣ frame'.size - frame.size
  homes : Forall₂ (Home parameterCount frame frame') slots offsets
  below : (slots.zip offsets).Pairwise fun p q => ¬ OnStack parameterCount p.1 →
    ¬ OnStack parameterCount q.1 → q.2 < p.2

lemma placing_placeAll (parameterCount : Nat) (frame : Frame) (slots : List Slot) :
    Placing parameterCount slots frame (placeAll parameterCount frame slots).1
    (placeAll parameterCount frame slots).2 := by
  induction slots generalizing frame with
  | nil => exact ⟨by simp [placeAll], .nil, .nil⟩
  | cons x slots ih =>
    by_cases onStack : OnStack parameterCount x
    · have rest := ih frame
      have here : place parameterCount frame x = (frame, stackArgumentOffset x) := if_pos onStack
      simp only [placeAll, here]
      exact ⟨rest.size, .cons ⟨fun _ => rfl, fun other => absurd onStack other⟩ rest.homes,
        .cons (fun _ _ other => absurd onStack other) rest.below⟩
    · have wordSize : Native.word = 8 := rfl
      have rest := ih ⟨frame.size + 8⟩
      have here : place parameterCount frame x = (⟨frame.size + 8⟩, -(frame.size + 8)) := if_neg onStack
      obtain ⟨le, whole⟩ := rest.size
      simp only [placeAll, here] at le whole ⊢
      refine ⟨by omega, .cons ⟨fun other => absurd other onStack, fun _ =>
        by omega⟩ (rest.homes.imp fun y o home => ?_), .cons (fun q hq _ other => ?_) rest.below⟩
      · refine ⟨home.stack, fun other => ?_⟩
        have inside := home.word other
        simp only at inside
        omega
      · have home := forall₂_iff_zip.1 rest.homes |>.2 hq
        have inside := home.word other
        simp only at inside
        omega

lemma stackArgumentOffset_eq (k : Nat) : stackArgumentOffset k = 16 + 8 * ((k - 6 : Nat) : Int) := by
  have count : argumentRegisters.length = 6 := rfl
  unfold stackArgumentOffset Native.word
  omega

lemma onStack_iff : OnStack parameterCount x ↔ x < parameterCount ∧ 6 ≤ x := Iff.rfl

variable (f : Lir.Function)

lemma placing_of : Placing f.parameterCount (range f.declaredCount) .empty (of f .empty).1
    (of f .empty).2.offsets :=
  placing_placeAll ..

lemma length_of : (of f .empty).2.offsets.length = f.declaredCount := by
  rw [← length_range (n := f.declaredCount)]
  exact (placing_of f).homes.length_eq.symm

lemma home_of (here : (of f .empty).2.offsets[x]? = some o) :
    Home f.parameterCount .empty (of f .empty).1 x o := by
  have placing := placing_of f
  obtain ⟨lt, rfl⟩ := List.getElem?_eq_some_iff.1 here
  have lt' : x < (range f.declaredCount).length := placing.homes.length_eq ▸ lt
  have home := placing.homes.get lt' lt
  rwa [get_eq_getElem, getElem_range] at home

lemma eq_of_home (hx : (of f .empty).2.offsets[x]? = some o)
    (hy : (of f .empty).2.offsets[y]? = some o) : x = y := by
  have placing := placing_of f
  have homeX := home_of f hx
  have homeY := home_of f hy
  have empty : Frame.empty.size = 0 := rfl
  -- Of two slots that get words, the word of the later one is below that of the other.
  have below : ∀ {x y : Nat}, x < y → (of f .empty).2.offsets[x]? = some o →
      (of f .empty).2.offsets[y]? = some o → ¬ OnStack f.parameterCount x →
      ¬ OnStack f.parameterCount y → False := by
    intro x y less hx hy hx' hy'
    obtain ⟨ltX, rfl⟩ := List.getElem?_eq_some_iff.1 hx
    obtain ⟨ltY, same⟩ := List.getElem?_eq_some_iff.1 hy
    have length := length_of f
    have pair := pairwise_iff_getElem.1 placing.below x y (by simp; omega) (by simp; omega) less
    simp only [getElem_zip, getElem_range] at pair
    exact absurd (pair hx' hy') (by exact fun h => lt_irrefl _ (same ▸ h))
  by_cases hx' : OnStack f.parameterCount x <;> by_cases hy' : OnStack f.parameterCount y
  · have same := (homeX.stack hx').symm.trans (homeY.stack hy')
    rw [stackArgumentOffset_eq, stackArgumentOffset_eq] at same
    rw [onStack_iff] at hx' hy'
    omega
  · have up := homeX.stack hx'
    have down := homeY.word hy'
    rw [stackArgumentOffset_eq] at up
    omega
  · have up := homeY.stack hy'
    have down := homeX.word hx'
    rw [stackArgumentOffset_eq] at up
    omega
  · obtain less | same | less := lt_trichotomy x y
    · exact (below less hx hy hx' hy').elim
    · exact same
    · exact (below less hy hx hy' hx').elim

private lemma exists_mapM {α β : Type} {g : α → Option β} {as : List α} (all : ∀ a ∈ as, ∃ b, g a = some b) :
    ∃ bs, as.mapM g = some bs ∧ Forall₂ (fun a b => g a = some b) as bs := by
  induction as with
  | nil => exact ⟨[], rfl, .nil⟩
  | cons a as ih =>
    rw [forall_mem_cons] at all
    obtain ⟨b, hb⟩ := all.1
    obtain ⟨bs, hbs, rest⟩ := ih all.2
    exact ⟨b :: bs, by rw [mapM_cons, hb, hbs]; rfl, .cons hb rest⟩

lemma registerParameters?_of (few : f.parameterCount ≤ f.declaredCount) :
    ∃ parameters, (of f .empty).2.registerParameters? = some parameters ∧
    ∀ r o, (r, o) ∈ parameters ↔ ∃ k < f.parameterCount, argumentRegisters[k]? = some r ∧
    (of f .empty).2.offsets[k]? = some o := by
  have mem {r k} : (r, k) ∈ (argumentRegisters.take f.parameterCount).zipIdx ↔
      k < f.parameterCount ∧ argumentRegisters[k]? = some r := by
    rw [mem_zipIdx_iff_getElem?, getElem?_take]
    split_ifs with lt <;> simp [lt]
  have all : ∀ p ∈ (argumentRegisters.take f.parameterCount).zipIdx,
      ∃ q, (do return (p.1, ← (of f .empty).2.offsets[p.2]?) : Option (Register × Int)) = some q := by
    rintro ⟨r, k⟩ h
    have lt : k < (of f .empty).2.offsets.length := by
      rw [length_of]
      exact (mem.1 h).1.trans_le few
    exact ⟨_, by rw [getElem?_eq_getElem lt]; rfl⟩
  obtain ⟨parameters, found, each⟩ := exists_mapM all
  have read {p : Register × Nat} {q : Register × Int} :
      (do return (p.1, ← (of f .empty).2.offsets[p.2]?) : Option (Register × Int)) = some q ↔
      p.1 = q.1 ∧ (of f .empty).2.offsets[p.2]? = some q.2 := by
    obtain ⟨r, o⟩ := q
    cases (of f .empty).2.offsets[p.2]? <;> simp
  refine ⟨parameters, found, fun r o => ⟨fun h => ?_, fun ⟨k, lt, here, home⟩ => ?_⟩⟩
  · obtain ⟨i, hi, same⟩ := mem_iff_getElem.1 h
    have hi' : i < (argumentRegisters.take f.parameterCount).zipIdx.length := each.length_eq ▸ hi
    have at_ := read.1 (each.get hi' hi)
    simp only [get_eq_getElem, same] at at_
    have mem' := mem.1 (getElem_mem hi' : ((argumentRegisters.take f.parameterCount).zipIdx)[i] ∈ _)
    exact ⟨_, mem'.1, at_.1 ▸ mem'.2, at_.2⟩
  · obtain ⟨i, hi, same⟩ := mem_iff_getElem.1 (mem.2 ⟨lt, here⟩)
    have hi' : i < parameters.length := each.length_eq ▸ hi
    have at_ := read.1 (each.get hi hi')
    simp only [get_eq_getElem, same, home] at at_
    have found : parameters[i] = (r, o) := Prod.ext at_.1.symm (Option.some.inj at_.2).symm
    exact found ▸ getElem_mem hi'

end Homes

/-! ### Words for saved registers -/

namespace Frame

lemma alignedSize_spec (frame : Frame) : 16 ∣ frame.alignedSize ∧ frame.size ≤ frame.alignedSize ∧
    frame.alignedSize ≤ frame.size + 15 := by
  have step : alignment = 16 := rfl
  unfold alignedSize
  rw [step]
  omega

/-- The words that are handed out one after the other. -/
structure Handing {α : Type} (frame frame' : Frame) (as : List α) (words : List (α × Int)) : Prop where
  owners : words.map Prod.fst = as
  size : frame'.size = frame.size + 8 * as.length
  inside : ∀ p ∈ words, 8 ∣ p.2 + frame.size ∧ -frame'.size ≤ p.2 ∧ p.2 < -frame.size
  below : words.Pairwise fun p q => q.2 < p.2

lemma handing_allocateAll {α : Type} (frame : Frame) (as : List α) :
    Handing frame (frame.allocateAll as).1 as (frame.allocateAll as).2 := by
  induction as generalizing frame with
  | nil => exact ⟨rfl, by simp [allocateAll], nofun, .nil⟩
  | cons a as ih =>
    have rest := ih ⟨frame.size + 8⟩
    have here : frame.allocateAll (a :: as) = ((Frame.mk (frame.size + 8)).allocateAll as |>.1,
      (a, -(frame.size + 8)) :: ((Frame.mk (frame.size + 8)).allocateAll as).2) := rfl
    have size := rest.size
    simp only [here]
    refine ⟨by simp [rest.owners], by simp only [size, length_cons]; omega, forall_mem_cons.2 ⟨?_,
      fun p hp => ?_⟩, .cons (fun p hp => ?_) rest.below⟩
    · simp only [size]
      omega
    · have inside := rest.inside p hp
      simp only at inside
      omega
    · have inside := rest.inside p hp
      simp only at inside
      omega

end Frame

/-! ### Beginning and end -/

def storeInstr (p : Register × Int) : Instr := .binary .mov (frameWord p.2) (.reg p.1)

def loadInstr (p : Register × Int) : Instr := .binary .mov (.reg p.1) (frameWord p.2)

variable {M : Setting} {s : Cpu} {F : Int} {adjusts : Bool} {l : List (Register × Int)}

lemma storeAll_passes (near : ∀ p ∈ l, Near p.2) (apart : ∀ p ∈ l, ∀ q ∈ l, p.2 = q.2 → p.1 = q.1) :
    ∃ s', Passes M (l.map storeInstr) s s' ∧ (∀ p ∈ l, s'.word p.2 = s.reg p.1) ∧
    Keeps (fun _ => False) (· ∈ l.map Prod.snd) s s' := by
  induction l generalizing s with
  | nil => exact ⟨s, .nil M s, nofun, .refl _ _ s⟩
  | cons p l ih =>
    rw [forall_mem_cons] at near
    obtain ⟨s', passes, words, keeps⟩ := ih (s := s.setWord p.2 (s.reg p.1)) near.2 fun q hq q' hq' =>
      apart q (by simp [hq]) q' (by simp [hq'])
    have first : Keeps (fun _ => False) (· ∈ (p :: l).map Prod.snd) s (s.setWord p.2 (s.reg p.1)) :=
      .setWord s _ near.1.spaced (by simp)
    refine ⟨s', .cons (perform_mov_word M.strings near.1 rfl rfl) passes,
      forall_mem_cons.2 ⟨?_, fun q hq => words q hq⟩,
      first.trans (keeps.mono (fun _ => id) fun o ho => by simp only [map_cons, mem_cons, ho, or_true])⟩
    by_cases again : p.2 ∈ l.map Prod.snd
    · obtain ⟨q, hq, same⟩ := mem_map.1 again
      rw [← same, words q hq, apart p (by simp) q (by simp [hq]) same.symm]
      rfl
    · rw [keeps.word p.2 near.1.spaced again, word_setWord_self]

lemma loadAll_passes (near : ∀ p ∈ l, Near p.2) (distinct : (l.map Prod.fst).Nodup)
    (other : ∀ p ∈ l, p.1 ≠ rbp) : ∃ s', Passes M (l.map loadInstr) s s' ∧
    (∀ p ∈ l, s'.reg p.1 = s.word p.2) ∧ Keeps (· ∈ l.map Prod.fst) (fun _ => False) s s' := by
  induction l generalizing s with
  | nil => exact ⟨s, .nil M s, nofun, .refl _ _ s⟩
  | cons p l ih =>
    rw [forall_mem_cons] at near other
    obtain ⟨fresh, distinct⟩ := nodup_cons.1 distinct
    obtain ⟨s', passes, regs, keeps⟩ := ih (s := s.set p.1 (s.word p.2)) near.2 distinct other.2
    have first : Keeps (· ∈ (p :: l).map Prod.fst) (fun _ => False) s (s.set p.1 (s.word p.2)) :=
      .set s _ other.1 (by simp)
    refine ⟨s', .cons (perform_mov_reg p.1 (.word near.1) nofun) passes,
      forall_mem_cons.2 ⟨?_, fun q hq => ?_⟩, first.trans (keeps.mono (fun r hr => ?_) fun _ => id)⟩
    · rw [keeps.reg p.1 fresh, reg_set_self]
    · rw [regs q hq, word_set _ _ _ other.1]
    · simp only [map_cons, mem_cons, hr, or_true]

def enterCode (F : Int) (adjusts : Bool) : List Instr :=
  [.unary .push (.reg rbp), .binary .mov (.reg rbp) (.reg rsp)]
    ++ if adjusts then [.binary .sub (.reg rsp) (.imm (Int64.ofInt F))] else []

def leaveCode (adjusts : Bool) : List Instr :=
  (if adjusts then [.binary .mov (.reg rsp) (.reg rbp)] else []) ++ [.unary .pop (.reg rbp)]

/-- A frame is set up below the return address. -/
structure Entered (F : Int) (adjusts : Bool) (s s' : Cpu) : Prop where
  frame : s'.reg rbp = s.reg rsp - 8
  deep : Deep (if adjusts then F else 0) s'
  others : ∀ r, r ≠ rbp → r ≠ rsp → s'.reg r = s.reg r
  saved : s'.word 0 = s.reg rbp
  words : ∀ o, Spaced o → o ≠ 0 → s'.word o = s.memory.load (s.reg rsp - 8 + BitVec.ofInt 64 o)

lemma enter_passes (M : Setting) (s : Cpu) (adjusts : Bool) (small : 0 ≤ F ∧ F ≤ 2147483647) :
    ∃ s', Passes M (enterCode F adjusts) s s' ∧ Entered F adjusts s s' := by
  let s1 : Cpu := (s.push (s.reg rbp)).set rbp (s.reg rsp - 8)
  have frame : s1.reg rbp = s.reg rsp - 8 := reg_set_self ..
  have stack : s1.reg rsp = s.reg rsp - 8 := by
    exact s.reg_set_self rsp _
  have passes : Passes M [.unary .push (.reg rbp), .binary .mov (.reg rbp) (.reg rsp)] s s1 := by
    refine .cons rfl (.single ?_)
    congr 2
  have zero : Spaced 0 := ⟨by omega, by omega, by omega⟩
  have address : s.reg rsp - 8 = s.reg rsp - 8 + BitVec.ofInt 64 0 := (add_zero _).symm
  have memory : s1.memory = s.memory.store (s.reg rsp - 8 + BitVec.ofInt 64 0) (s.reg rbp) := address ▸ rfl
  have entered : Entered 0 false s s1 := by
    refine ⟨frame, ?_, fun r hr hr' => ?_, ?_, fun o spaced other => ?_⟩
    · show s1.reg rsp = s1.reg rbp + BitVec.ofInt 64 0
      rw [stack, frame, ← address]
    · rw [reg_set_of_ne _ _ hr]
      exact reg_set_of_ne _ _ hr'
    · rw [Cpu.word, Cpu.address, frame, memory, Memory.load_store]
    · rw [Cpu.word, Cpu.address, frame, memory, Memory.load_store_spaced zero spaced other]
  cases adjusts with
  | false =>
    exact ⟨s1, by simpa [enterCode] using passes, entered.frame, entered.deep, entered.others,
      entered.saved, entered.words⟩
  | true =>
    obtain ⟨s', passes', deep, keeps⟩ :=
      shift_passes (M := M) (.inl ⟨rfl, (zero_add F).symm⟩) small entered.deep
    refine ⟨s', passes.append passes', ?_, deep, fun r hr hr' => ?_, ?_, fun o spaced other => ?_⟩
    · rw [keeps.reg rbp (by decide), entered.frame]
    · rw [keeps.reg r hr', entered.others r hr hr']
    · rw [keeps.word 0 zero id, entered.saved]
    · rw [keeps.word o spaced id, entered.words o spaced other]

lemma leave_passes (M : Setting) (s : Cpu) (adjusts : Bool) (level : adjusts = false → s.reg rsp =
      s.reg rbp) : ∃ s', Passes M (leaveCode adjusts) s s' ∧ s'.reg rbp = s.word 0 ∧ s'.reg rsp =
    s.reg rbp + 8 ∧ s'.memory = s.memory ∧ ∀ r, r ≠ rbp → r ≠ rsp → s'.reg r = s.reg r := by
  have pops (s1 : Cpu) (level : s1.reg rsp = s1.reg rbp) : ∃ s', Passes M
      [.unary .pop (.reg rbp)] s1 s' ∧ s'.reg rbp = s1.word 0 ∧ s'.reg rsp = s1.reg rbp + 8 ∧
      s'.memory = s1.memory ∧ ∀ r, r ≠ rbp → r ≠ rsp → s'.reg r = s1.reg r := by
    refine ⟨s1.pop rbp, .single rfl, ?_, ?_, rfl, fun r hr hr' => ?_⟩
    · rw [Cpu.pop, Cpu.reg_set_self, Cpu.word, Cpu.address, level]
      exact congrArg _ (add_zero _).symm
    · rw [pop, reg_set_of_ne _ _ (by decide), reg_set_self, level]
    · rw [pop, reg_set_of_ne _ _ hr, reg_set_of_ne _ _ hr']
  cases adjusts with
  | false => exact pops s (level rfl)
  | true =>
    have keeps : Keeps (· = rsp) (fun _ => False) s (s.set rsp (s.reg rbp)) := .set s _ (by decide) rfl
    have frame : (s.set rsp (s.reg rbp)).reg rbp = s.reg rbp := keeps.reg rbp (by decide)
    obtain ⟨s', passes, base, stack, memory, others⟩ :=
      pops (s.set rsp (s.reg rbp)) ((reg_set_self ..).trans frame.symm)
    refine ⟨s', .cons rfl passes, ?_, ?_, memory, fun r hr hr' => ?_⟩
    · rw [base, word_set _ _ _ (by decide)]
    · rw [stack, frame]
    · rw [others r hr hr', keeps.reg r hr']

namespace Lowering

variable (f : Lir.Function)

/-- A function before it is lowered, with the homes of its variables. -/
def Env.of : Env := ⟨f, (Homes.of f .empty).2⟩

/-- Where lowering starts. -/
def State.start : State := ⟨.new (of f .empty).1, ∅, [], #[]⟩

lemma location?_new (frame : Frame) (t : Slot) : (Allocation.new frame).location? t = none := getElem?_empty

lemma occupant?_new (frame : Frame) (r : Register) : (Allocation.new frame).occupant? r = none := getElem?_empty

lemma new_valid {temporary : Slot → Prop} (frame : Frame) : (Allocation.new frame).Valid temporary := by
  have nowhere {t place} (h : (Allocation.new frame).location? t = some place) : False :=
    nomatch (location?_new _ _).symm.trans h
  refine ⟨fun {r t} => ?_, fun h => (nowhere h).elim, fun h => (nowhere h).elim,
    fun h => (nowhere h).elim, fun h => (nowhere h).elim, .nil,
    nofun⟩
  exact iff_of_false (by simp [occupant?_new]) nowhere

/-- At first, homes are all that there is. -/
lemma start_valid : Valid (Env.of f) (State.start f) := by
  have placing := placing_of f
  have size : 8 ∣ (of f .empty).1.size ∧ 0 ≤ (of f .empty).1.size := by
    obtain ⟨le, whole⟩ := placing.size
    have empty : Frame.empty.size = 0 := rfl
    omega
  have words {w o} (h : (State.start f).word? (Env.of f) w = some o) : ∃ x, w = .home x ∧
      (of f .empty).2.offsets[x]? = some o := by
    cases w with
    | home x => exact ⟨x, rfl, h⟩
    | spill t => cases getElem?_empty.symm.trans h
    | save r => cases getElem?_empty.symm.trans h
  refine ⟨new_valid _, Homes.length_of f, ?_, ?_, size⟩
  · rintro o ⟨w, h⟩
    obtain ⟨(x : Nat), -, here⟩ := words h
    have home := home_of f here
    have top : (Env.of f).top = 16 + 8 * ((f.parameterCount - 6 : Nat) : Int) := stackArgumentOffset_eq _
    have frame : (State.start f).allocation.frame.size = (of f .empty).1.size := rfl
    have empty : Frame.empty.size = 0 := rfl
    by_cases onStack : Homes.OnStack f.parameterCount x
    · rw [home.stack onStack, stackArgumentOffset_eq]
      rw [onStack_iff] at onStack
      omega
    · have inside := home.word onStack
      omega
  · intro w w' o h h'
    obtain ⟨x, rfl, hx⟩ := words h
    obtain ⟨y, rfl, hy⟩ := words h'
    rw [eq_of_home f hx hy]

end Lowering

end EmLang.Native
