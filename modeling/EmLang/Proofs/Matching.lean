import EmLang.Proofs.Building
import EmLang.Proofs.CodeRuns
import EmLang.Proofs.TypeSoundness

/-!
When a run on blocks is as far as a run on the tree. The variables of the innermost call are in
their slots, as words or texts; after a fault the run on blocks has trapped, and has printed the
same.

The run on the tree has a bound on its depth. Where that is used up, the run on blocks has made a
number of steps that grows with the bound.
-/

namespace EmLang.Lir

open Array Option

/-- The datum stands for the value. -/
inductive Stands : Value → Datum → Prop where
  | number (n : Int64) : Stands (.number n) (.word n)
  | bool (b : Bool) : Stands (.bool b) (.word (if b then 1 else 0))
  | string (s : String) : Stands (.string s) (.text s)

/-- What a run on the tree has done to the outside. -/
def outside (s : Eval.State) : World := ⟨s.output, s.readings⟩

/-- The program was accepted and built. -/
structure Fits (env : Eval.Env) (lir : Lir) : Prop where
  checked : env.Checked
  count : lir.functions.size = env.scope.functions.size
  builds : ∀ f function, env.scope.function? f = some function →
    Nonempty (Builds env.ast env.scope lir f function)

/-- The variables belong to the function `f`. -/
def Owned (scope : Scope) (f : FunId) (vars : List VarId) : Prop :=
  ∀ v ∈ vars, ∃ x, scope.var? v = some x ∧ x.function = f

/-- The variables of the innermost call, which is one of the function `f`, are in their slots. -/
def Holds (scope : Scope) (f : FunId) (s : Eval.State) (slots : Slot → Option Datum) : Prop :=
  ∀ v x value, scope.var? v = some x → x.function = f → s.var? v = some value →
    ∃ d, slots x.slot = some d ∧ Stands value d

/-- The body of the function `f` runs, and the variables `vars` can be seen. -/
structure Within (env : Eval.Env) (f : FunId) (function : EmLang.Function) (vars : List VarId)
    (s : Eval.State) : Prop extends Eval.Fit env.scope f vars s where
  found : env.scope.function? f = some function
  owned : Owned env.scope f vars

/-- The run on blocks is at the code, where the run on the tree is in the state `s`. -/
structure At (env : Eval.Env) (f : FunId) (code : List Instr) (slots : Slot → Option Datum)
    (callers : List (Ty × Activation Datum)) (s : Eval.State) (S : Progress) : Prop where
  trapped : s.halted = true → S = .trapped s.output
  running : s.halted = false → ∃ result, S = .running ⟨⟨code, slots, result⟩, callers, outside s⟩
  holds : s.halted = false → Holds env.scope f s slots

/-- The run on blocks has printed what the run on the tree has, and has trapped if that was
halted. -/
def Shows (t : Eval.State) (S : Progress) : Prop :=
  (t.halted = true → S = .trapped t.output) ∧
  (t.halted = false → ∃ m, S = .running m ∧ m.world.output = t.output)

/-- Where the bound on the depth is used up, the run on blocks has come so far. -/
def Strays (env : Eval.Env) (lir : Lir) (S : Progress) (far : Nat → Prop) (fault : Eval.Fault)
    (t : Eval.State) : Prop :=
  fault = .outOfFuel → ∃ k S', Goes lir env.clock k S S' ∧ Shows t S' ∧ far k

section

variable {env : Eval.Env} {lir : Lir} {f g : FunId} {function : EmLang.Function} {vars : List VarId}
  {s t : Eval.State} {slots slots' : Slot → Option Datum} {callers : List (Ty × Activation Datum)}
  {S S' : Progress} {code : List Instr} {far' far : Nat → Prop} {fault : Eval.Fault}
  {scope : Scope}

lemma At.of_trapped (halted : s.halted = true) (h : S = .trapped s.output) : At env f code slots callers s S :=
  ⟨fun _ => h, fun unhalted => (by cases halted.symm.trans unhalted),
    fun unhalted => by cases halted.symm.trans unhalted⟩

lemma At.of_running {result : Option Datum} (unhalted : s.halted = false)
    (h : S = .running ⟨⟨code, slots, result⟩, callers, outside s⟩)
    (holds : Holds env.scope f s slots) : At env f code slots callers s S :=
  ⟨fun halted => (by cases halted.symm.trans unhalted), fun _ => ⟨result, h⟩, fun _ => holds⟩

lemma At.shows (h : At env f code slots callers s S) : Shows s S := by
  refine ⟨h.trapped, fun unhalted => ?_⟩
  obtain ⟨result, rfl⟩ := h.running unhalted
  exact ⟨_, rfl, rfl⟩

lemma Shows.of_trapped (halted : t.halted = true) (h : S = .trapped t.output) : Shows t S :=
  ⟨fun _ => h, fun unhalted => by cases halted.symm.trans unhalted⟩

variable {v : VarId} {x : Variable} {site : Site} {lo hi : Slot}

lemma Strays.here (shows : Shows s S) (h : far 0) (fault : Eval.Fault) : Strays env lir S far fault s :=
  fun _ => ⟨0, S, .refl S, shows, h⟩

lemma Strays.imp (h : Strays env lir S far fault t) (more : ∀ k, far k → far' k) :
    Strays env lir S far' fault t := by
  intro hfault
  obtain ⟨k, T, goes, shows, enough⟩ := h hfault
  exact ⟨k, T, goes, shows, more k enough⟩

lemma Strays.after {k : Nat} (goes : Goes lir env.clock k S S')
    (h : Strays env lir S' far fault t) (more : ∀ j, far j → far' (k + j)) : Strays env lir S far' fault t := by
  intro hfault
  obtain ⟨j, T, goes', shows, enough⟩ := h hfault
  exact ⟨k + j, T, goes.trans goes', shows, more j enough⟩

lemma Within.goes (h : Within env f function vars s) (goes : Eval.Goes env.scope f s t) :
    Within env f function vars t :=
  ⟨h.toFit.goes goes, h.found, h.owned⟩

/-! ### Variables and slots -/

lemma Fits.slotted (h : Fits env lir) : env.scope.Slotted := by
  obtain ⟨report, checked⟩ := h.checked
  exact checked.slotted

section

variable (h : Fits env lir) (found : env.scope.function? g = some function)

include h found

lemma Fits.named : lir.functionNamed? function.name = lir.functions[g]? := by
  obtain ⟨b⟩ := h.builds g function found
  unfold functionNamed?
  cases hfind : lir.functions.find? (·.name = function.name) with
  | none =>
    rw [find?_eq_none] at hfind
    exact absurd (decide_eq_true rfl) (hfind _ (mem_of_getElem? b.found))
  | some other =>
    obtain ⟨i, hi, rfl⟩ := mem_iff_getElem.1 (mem_of_find?_eq_some hfind)
    have name : (lir.functions[i]).name = function.name := by simpa using find?_some hfind
    -- The function at that place was built from one of the same name, and names are distinct.
    obtain ⟨function', found'⟩ : ∃ function', env.scope.function? i = some function' :=
      ⟨_, getElem?_eq_getElem (h.count ▸ hi)⟩
    obtain ⟨b'⟩ := h.builds i function' found'
    have built := b'.found
    rw [getElem?_eq_getElem hi, some.injEq] at built
    rw [built] at name
    obtain ⟨report, checked⟩ := h.checked
    obtain rfl := checked.names i g function' function found' found name
    rw [getElem?_eq_getElem hi]

lemma Fits.entry : ∃ b : Builds env.ast env.scope lir g function, lir.firstCode? function.name =
    some (b.body ++ b.ending) := by
  obtain ⟨b⟩ := h.builds g function found
  refine ⟨b, ?_⟩
  simp only [firstCode?, h.named found, b.found, bind_some, List.head?_cons]
  exact b.entryCode

end

lemma slot_lt (slotted : scope.Slotted) (found : scope.function? f = some function)
    (declared : scope.var? v = some x) (owned : x.function = f) : x.slot < function.locals.length := by
  obtain ⟨owner, howner, hslot⟩ := slotted.owner v x declared
  rw [owned, found] at howner
  cases howner
  exact (List.getElem?_eq_some_iff.1 hslot).1

lemma slot_inj {w : VarId} {y : Variable} (slotted : scope.Slotted) (hx : scope.var? v = some x)
    (hy : scope.var? w = some y) (same : x.function = y.function) (slot : x.slot = y.slot) : v = w := by
  obtain ⟨owner, howner, hslot⟩ := slotted.owner v x hx
  obtain ⟨owner', howner', hslot'⟩ := slotted.owner w y hy
  rw [same, howner', some.injEq] at howner
  subst howner
  rw [slot, hslot', some.injEq] at hslot
  exact hslot.symm

lemma Holds.temporaries (h : Holds env.scope f s slots)
    (slotted : env.scope.Slotted) (found : env.scope.function? f = some function)
    (same : ∀ i < function.locals.length, slots' i = slots i) : Holds env.scope f s slots' := by
  intro v x value declared owned hv
  rw [same _ (slot_lt slotted found declared owned)]
  exact h v x value declared owned hv

lemma Holds.same (h : Holds env.scope f s slots) (frames : t.frames = s.frames) :
    Holds env.scope f t slots := by
  intro v x value declared owned hv
  refine h v x value declared owned ?_
  rw [← hv, Eval.State.var?, Eval.State.var?, frames]

/-- Storing a value changes one variable and nothing else that matters. -/
lemma bindVariable_sets {F : Eval.Fault → Eval.State → Prop}
    (frames : s.frames ≠ []) (v : VarId) (value : Value) : Ends (Eval.bindVariable v value) s
    (fun _ t => (∀ w, t.var? w = if w = v then some value else s.var? w) ∧ t.halted = s.halted ∧
      outside t = outside s ∧ t.frames ≠ []) F := by
  cases hframes : s.frames with
  | nil => exact absurd hframes frames
  | cons frame outer =>
    simp only [Eval.bindVariable, ends_bind, ends_get, hframes, ends_modify]
    refine ⟨fun w => ?_, trivial, rfl, List.cons_ne_nil _ _⟩
    rw [Eval.State.var?_cons, Std.ExtTreeMap.getElem?_insert]
    have old : s.var? w = frame[w]? := by rw [Eval.State.var?, hframes]; rfl
    by_cases h : w = v
    · simp [h]
    · simp [h, Ne.symm h, old]

lemma Holds.bind {d : Datum} (h : Holds env.scope f s slots) (slotted : env.scope.Slotted)
    {value : Value} (declared : env.scope.var? v = some x) (owned : x.function = f)
    (stands : Stands value d) (sets : ∀ w, t.var? w = if w = v then some value else s.var? w) :
    Holds env.scope f t (Function.update slots x.slot (some d)) := by
  intro w y value' hy owner hw
  rw [sets] at hw
  split_ifs at hw with same
  · subst same
    rw [declared, some.injEq] at hy
    cases hw
    subst hy
    exact ⟨d, Function.update_self .., stands⟩
  · have other : y.slot ≠ x.slot := fun h => same (slot_inj slotted hy declared (owner.trans owned.symm) h)
    rw [Function.update_of_ne other]
    exact h w y value' hy owner hw

section

variable (slotted : site.scope.Slotted) (found : site.scope.function? f = some function)
  (owned : Owned site.scope f vars) {i mid : Slot}

include slotted found owned

/-- A slot of an expression that is not a variable is a temporary of its own. -/
lemma own_temporary (own : site.Own vars lo hi i) (high : function.locals.length ≤ i) : lo ≤ i ∧ i < hi := by
  obtain ⟨v, hv, x, hx, rfl⟩ | h := own
  · obtain ⟨y, hy, owner⟩ := owned v hv
    rw [hx, some.injEq] at hy
    subst hy
    exact absurd (slot_lt slotted found hx owner) (Nat.not_lt.2 high)
  · exact h

/-- Later code leaves a temporary of earlier code alone. -/
lemma temporary_unwritten {operands : List Operand} (own : site.Own vars lo mid i)
    (high : function.locals.length ≤ i) (later : site.OwnSlots vars mid hi code operands) :
    i ∉ writes code := by
  intro written
  have before := own_temporary slotted found owned own high
  have behind := own_temporary slotted found owned (later.writes i written) high
  exact absurd behind.1 (Nat.not_le.2 before.2)

/-- The value of a new variable is not in the variable's slot before. -/
lemma operand_other (declared : site.scope.var? v = some x) (owner : x.function = f)
    (fresh : v ∉ vars) (low : function.locals.length ≤ lo) {operand : Operand}
    (own : site.OwnSlots vars lo hi code [operand]) : operand ≠ .slot x.slot := by
  rintro rfl
  obtain ⟨w, hw, y, hy, same⟩ | ⟨high, -⟩ := own.operands x.slot (by simp)
  · obtain ⟨y', hy', owner'⟩ := owned w hw
    obtain rfl : y = y' := mem_unique hy hy'
    obtain rfl := slot_inj slotted hy declared (owner'.trans owner.symm) same
    exact fresh hw
  · exact absurd (slot_lt slotted found declared owner) (Nat.not_lt.2 (low.trans high))

end

/-- Operators that have code work on numbers. -/
lemma yields_words {a b ty : Ty} {op : BinaryOp} (yields : op.Yields a b ty)
    (arithmetic : op.isComparison = false) (words : a ≠ .string) : a = .int ∧ b = .int := by
  cases yields with
  | join => exact absurd rfl words
  | arithmetic _ => exact ⟨rfl, rfl⟩
  | equality h _ => obtain rfl | rfl := h <;> cases arithmetic
  | order h => obtain rfl | rfl | rfl | rfl := h <;> cases arithmetic

end

end EmLang.Lir
