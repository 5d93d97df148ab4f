import EmLang.Proofs.Typing

/-!
The variables of a scope and their slots: every variable stands in the list of its function, at the
position that is its slot. Declaring variables keeps this and takes nothing away.
-/

namespace EmLang.Scope

open List Option

variable {f : FunId} {function : Function} {v : VarId} {change : Function → Function}

/-! ### Look-ups after a change -/

section Lookups

variable (scope : Scope) {x : Variable}

lemma function?_modifyFunction (f g : FunId) (change : Function → Function) :
    (scope.modifyFunction f change).function? g = if f =
    g then (scope.function? g).map change else scope.function? g := by
  simp [modifyFunction, function?, Array.getElem?_modify]

/-- A function after the change was there before it. -/
lemma exists_of_modifyFunction {g : FunId} (h : (scope.modifyFunction f change).function? g = some function) :
    ∃ old, scope.function? g = some old ∧ (function = change old ∨ function = old) := by
  rw [function?_modifyFunction] at h
  split_ifs at h
  · obtain ⟨old, hold, rfl⟩ := map_eq_some_iff.1 h
    exact ⟨old, hold, .inl rfl⟩
  · exact ⟨function, h, .inr rfl⟩

@[simp] lemma var?_modifyFunction (f : FunId) (change : Function → Function) (v : VarId) :
    (scope.modifyFunction f change).var? v = scope.var? v := rfl

lemma var?_lt (h : scope.var? v = some x) : v < scope.vars.size := by
  by_contra hn
  simp [var?, Array.getElem?_eq_none (Nat.le_of_not_lt hn)] at h

lemma var?_declareVariable (name : String) (ty : Ty) (f : FunId) (isParameter : Bool) (v : VarId) :
    (scope.declareVariable name ty f isParameter).1.var? v =
      if v = scope.vars.size then some ⟨name, ty, f, scope.declaredCount f⟩ else scope.var? v := by
  simp only [declareVariable, var?_modifyFunction]
  simp only [var?, Array.getElem?_push]

lemma function?_declareVariable (name : String) (ty : Ty) (f : FunId) (isParameter : Bool)
    (g : FunId) : (scope.declareVariable name ty f isParameter).1.function? g = if f =
    g then (scope.function? g).map fun function =>
        { function with
          locals := function.locals ++ [scope.vars.size]
          parameters := if isParameter then function.parameters ++ [scope.vars.size] else function.parameters }
      else scope.function? g := by
  simp only [declareVariable, function?_modifyFunction]
  rfl

lemma var?_declareVariable_of (h : scope.var? v = some x) (name : String) (ty : Ty) (f : FunId)
    (isParameter : Bool) : (scope.declareVariable name ty f isParameter).1.var? v = some x := by
  rw [var?_declareVariable, if_neg (scope.var?_lt h).ne, h]

end Lookups

/-! ### Slots -/

/-- Variables and slots agree. -/
structure Slotted (scope : Scope) : Prop where
  owner : ∀ v x, scope.var? v = some x →
    ∃ function, scope.function? x.function = some function ∧ function.locals[x.slot]? = some v
  slot : ∀ f function i v, scope.function? f = some function → function.locals[i]? = some v →
    ∃ x, scope.var? v = some x ∧ x.function = f ∧ x.slot = i
  parameters : ∀ f function, scope.function? f = some function → function.parameters <+: function.locals

section

variable {scope : Scope}

lemma declaredCount_of (h : scope.function? f = some function) :
    scope.declaredCount f = function.locals.length := by
  simp [declaredCount, h]

/-- A new variable gets the next slot of its function. A parameter is declared before all other
variables. -/
lemma Slotted.declareVariable {isParameter : Bool} (h : scope.Slotted) (name : String) (ty : Ty)
    (found : scope.function? f = some function) (first : isParameter = true → function.parameters =
      function.locals) : (scope.declareVariable name ty f isParameter).1.Slotted where
  owner v x hv := by
    rw [var?_declareVariable] at hv
    rw [function?_declareVariable]
    split_ifs at hv with hvar
    · cases hv
      rw [if_pos rfl, found, declaredCount_of found]
      exact ⟨_, rfl, by simp [hvar]⟩
    · obtain ⟨owner, howner, hslot⟩ := h.owner v x hv
      rw [howner]
      obtain hf | hf := eq_or_ne f x.function
      · rw [if_pos hf]
        exact ⟨_, rfl, (getElem?_append_left (List.getElem?_eq_some_iff.1 hslot).1).trans hslot⟩
      · rw [if_neg hf]
        exact ⟨owner, rfl, hslot⟩
  slot g other i v hg hi := by
    rw [function?_declareVariable] at hg
    rw [var?_declareVariable]
    have old o (ho : scope.function? g = some o) (hi : o.locals[i]? = some v) : ∃ x,
        (if v = scope.vars.size then some ⟨name, ty, f, scope.declaredCount f⟩ else scope.var? v) = some x ∧
          x.function = g ∧ x.slot = i := by
      obtain ⟨x, hx, hslot⟩ := h.slot g o i v ho hi
      exact ⟨x, (if_neg (scope.var?_lt hx).ne).trans hx, hslot⟩
    obtain rfl | hf := eq_or_ne f g
    · rw [if_pos rfl, found, map_some, some.injEq] at hg
      subst hg
      obtain hlt | hge := Nat.lt_or_ge i function.locals.length
      · exact old function found (by rwa [getElem?_append_left hlt] at hi)
      · rw [getElem?_append_right hge, getElem?_singleton] at hi
        split_ifs at hi with h0
        cases hi
        rw [if_pos rfl, declaredCount_of found]
        exact ⟨_, rfl, rfl, by simp only; omega⟩
    · rw [if_neg hf] at hg
      exact old other hg hi
  parameters g other hg := by
    rw [function?_declareVariable] at hg
    obtain rfl | hf := eq_or_ne f g
    · rw [if_pos rfl, found, map_some, some.injEq] at hg
      subst hg
      cases isParameter with
      | true => simp [first rfl]
      | false => exact (h.parameters f function found).trans (prefix_append _ _)
    · rw [if_neg hf] at hg
      exact h.parameters g other hg

lemma Slotted.modifyFunction (h : scope.Slotted) (f : FunId)
    (locals : ∀ function, (change function).locals = function.locals)
    (parameters : ∀ function, (change function).parameters = function.parameters) :
    (scope.modifyFunction f change).Slotted := by
  refine ⟨fun v x hv => ?_, fun g other i v hg hi => ?_, fun g other hg => ?_⟩
  · obtain ⟨owner, howner, hslot⟩ := h.owner v x hv
    rw [function?_modifyFunction, howner]
    split_ifs
    · exact ⟨_, rfl, by rwa [locals]⟩
    · exact ⟨owner, rfl, hslot⟩
  · obtain ⟨o, ho, rfl | rfl⟩ := exists_of_modifyFunction scope hg
    · exact h.slot g o i v ho (locals o ▸ hi)
    · exact h.slot g _ i v ho hi
  · obtain ⟨o, ho, rfl | rfl⟩ := exists_of_modifyFunction scope hg
    · rw [locals, parameters]
      exact h.parameters g o ho
    · exact h.parameters g _ ho

/-- The parameters of a function have its first slots. -/
lemma Slotted.parameter_slot (h : scope.Slotted) (found : scope.function? f = some function)
    (mem : v ∈ function.parameters) : ∃ x, scope.var? v = some x ∧ x.function = f ∧
    x.slot < function.parameters.length := by
  obtain ⟨i, lt, rfl⟩ := mem_iff_getElem.1 mem
  have here : function.locals[i]? = some function.parameters[i] := by
    rw [← prefix_iff_getElem?.1 (h.parameters f function found) i lt]
  obtain ⟨x, hx, owner, rfl⟩ := h.slot f function i _ found here
  exact ⟨x, hx, owner, lt⟩

/-! ### Declaring only adds -/

/-- The one scope has all variables of the other and the same functions, apart from variables added
to them. -/
structure Grows (scope scope' : Scope) : Prop where
  vars : ∀ v x, scope.var? v = some x → scope'.var? v = some x
  functions : ∀ f function, scope.function? f = some function →
    ∃ more, scope'.function? f = some { function with locals := function.locals ++ more }
  size : scope'.functions.size = scope.functions.size

namespace Grows

variable {scope' scope'' : Scope}

lemma refl (scope : Scope) : scope.Grows scope :=
  ⟨fun _ _ h => h, fun _ function h => ⟨[], by simpa using h⟩, rfl⟩

lemma trans (h : scope.Grows scope') (h' : scope'.Grows scope'') : scope.Grows scope'' := by
  refine ⟨fun v x hv => h'.vars v x (h.vars v x hv), fun f function hf => ?_, h'.size.trans h.size⟩
  obtain ⟨more, hmore⟩ := h.functions f function hf
  obtain ⟨more', hmore'⟩ := h'.functions f _ hmore
  exact ⟨more ++ more', by simpa using hmore'⟩

lemma ext (h : scope.Grows scope') : scope.Extends scope' := by
  refine ⟨h.vars, fun f function hf => ?_⟩
  obtain ⟨more, hmore⟩ := h.functions f function hf
  exact ⟨_, hmore, rfl, rfl, rfl⟩

/-- No function is added. -/
lemma function_of (h : scope.Grows scope') (found : scope'.function? f = some function) :
    ∃ old more, scope.function? f = some old ∧ function = { old with locals := old.locals ++ more } := by
  have lt : f < scope.functions.size := by
    rw [← h.size]
    exact (Array.getElem?_eq_some_iff.1 found).1
  obtain ⟨old, here⟩ : ∃ old, scope.function? f = some old := ⟨_, Array.getElem?_eq_getElem lt⟩
  obtain ⟨more, hmore⟩ := h.functions f old here
  exact ⟨old, more, here, mem_unique found hmore⟩

lemma declareVariable (scope : Scope) (name : String) (ty : Ty) (f : FunId) :
    scope.Grows (scope.declareVariable name ty f false).1 := by
  refine ⟨fun v x hv => scope.var?_declareVariable_of hv .., fun g function hg => ?_,
    by simp [Scope.declareVariable, modifyFunction]⟩
  rw [function?_declareVariable, hg]
  obtain hf | hf := eq_or_ne f g
  · rw [if_pos hf]
    exact ⟨[scope.vars.size], rfl⟩
  · rw [if_neg hf]
    exact ⟨[], by simp⟩

end Grows

end

end EmLang.Scope
