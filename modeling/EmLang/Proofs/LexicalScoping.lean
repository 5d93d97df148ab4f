import EmLang.Proofs.Accepting
import EmLang.Proofs.Execution
import EmLang.Proofs.Lexical
import Mathlib.Data.List.Nodup

/-!
The evaluator follows lexical scoping. It keeps one flat frame for each call, and finds variables by
what the resolver wrote into the tree; the interpreter by names keeps stacks of scopes. Both are run
side by side. At each moment the variables that the resolver had in scope there stand for the
bindings of the open scopes, one by one, and so a name means the same to both. The scopes are the
ones of the resolver as well, and when one is left its variables are forgotten, although they still
have values in the frame.
-/

namespace EmLang

open Eval List Text

variable {f : FunId} {function : Function} {x : Variable}

/-- The state in which `report` was reported before all else. -/
def Eval.State.under (report : Report) (s : Eval.State) : Eval.State :=
  { s with report := report.append s.report }

lemma Report.append_add (report report' : Report) (d : Diagnostic) :
    report.append (report'.add d) = (report.append report').add d := by
  cases h : d.severity <;> simp [append, add, h]

namespace Lexical

variable {scopes : Scopes} {callers : List Scopes} {locals : List (List VarId)} {outer : List Frame}
  {r : Report} {s : Eval.State} {t : State} {α β : Type} {flat : Eval.Run α} {named : Run α}
  {P : α → Eval.State → State → Prop} {Q : β → Eval.State → State → Prop} {scope : Scope}
  {frame : Frame} {vars : List VarId} {bindings : Bindings} {name : String} {v : VarId}

/-! ### Steps that do not touch variables -/

/-- All but the open calls. -/
def bare (s : Eval.State) : Eval.State := { s with frames := [] }

/-- The step does the same whatever the open calls are and whatever was reported before, and leaves
the calls alone. -/
def Blind {α : Type} (act : Eval.Run α) : Prop :=
  ∀ (r : Report) (frames : List Frame) (c : Eval.State), (act.run.run c).2.frames = c.frames ∧
    act.run.run { c.under r with frames } = ((act.run.run c).1, { (act.run.run c).2.under r with frames })

namespace Blind

variable {α β : Type} {act : Eval.Run α} {later : α → Eval.Run β}

lemma pure (a : α) : Blind (pure a) := fun _ _ _ => ⟨rfl, rfl⟩

lemma throw (fault : Fault) : Blind (throw fault : Eval.Run α) := fun _ _ _ => ⟨rfl, rfl⟩

lemma bind (h : Blind act) (h' : ∀ a, Blind (later a)) : Blind (act >>= later) := by
  intro r frames c
  obtain ⟨kept, run⟩ := h r frames c
  simp only [ExceptT.run_bind, StateT.run_bind, run]
  generalize act.run.run c = result at kept
  obtain ⟨fault | a, c'⟩ := result
  · exact ⟨kept, rfl⟩
  · obtain ⟨kept', run'⟩ := h' a r frames c'
    exact ⟨kept'.trans kept, run'⟩

lemma setReturned (b : Bool) : Blind (modify ({ · with returned := b }) : Eval.Run Unit) :=
    fun _ _ _ => ⟨rfl, rfl⟩

lemma setLast (value : Option Value) : Blind (setLast value) := fun _ _ _ => ⟨rfl, rfl⟩

lemma isHalted : Blind isHalted := fun _ _ _ => ⟨rfl, rfl⟩

lemma expectNumber (v : Value) : Blind (expectNumber v) := by
  cases v <;> exact fun _ _ _ => ⟨rfl, rfl⟩

lemma expectBool (v : Value) : Blind (expectBool v) := by
  cases v <;> exact fun _ _ _ => ⟨rfl, rfl⟩

lemma halt (problem : Problem) (span : Span) : Blind (halt problem span) := by
  refine fun r frames c => ⟨rfl, ?_⟩
  have same := Report.append_add r c.report ⟨problem, span⟩
  exact congrArg (fun report =>
    (Except.ok Value.void, ({ c with frames, report, halted := true } : Eval.State))) same.symm

lemma divide (op : BinaryOp) (left right : Int64) (span : Span) : Blind (divide op left right span) := by
  unfold Eval.divide
  split_ifs
  · exact halt _ _
  · exact halt _ _
  all_goals exact pure _

lemma operate (op : BinaryOp) (left right : Value) (span : Span) : Blind (operate op left right span) := by
  have numbers : ∀ next : Int64 → Int64 → Eval.Run Value, (∀ l r, Blind (next l r)) →
      Blind (do next (← Eval.expectNumber left) (← Eval.expectNumber right)) := fun next h =>
    (expectNumber left).bind fun l => (expectNumber right).bind fun r => h l r
  cases op with
  | eq | ne => exact pure _
  | add =>
    cases left with
    | string l =>
      cases right with
      | string r => exact pure _
      | _ => exact numbers _ fun _ _ => pure _
    | _ => exact numbers _ fun _ _ => pure _
  | div | rem => exact numbers _ fun l r => divide _ l r span
  | _ => exact numbers _ fun _ _ => pure _

lemma callBuiltin (env : Eval.Env) (b : Builtin) (arguments : List Value) :
    Blind (callBuiltin env b arguments) := by
  cases b with
  | print | tick => exact fun _ _ _ => ⟨rfl, rfl⟩
  | toText =>
    cases arguments with
    | nil => exact throw _
    | cons => exact pure _

lemma defaultReturn (function : Function) : Blind (defaultReturn function) := by
  unfold Eval.defaultReturn
  split <;> exact fun _ _ _ => ⟨rfl, rfl⟩

end Blind

/-! ### Two runs side by side -/

/-- Both runs come to the same end: a value, and then `Q` of it and of the states they end in, or a
fault, in states that differ in the open calls and in what was reported before only. -/
def Agrees {α : Type} (r : Report) (flat : Eval.Run α) (named : Run α) (s : Eval.State) (t : State)
    (Q : α → Eval.State → State → Prop) : Prop :=
  match flat.run.run s, named.run.run t with
  | (.ok a, s'), (.ok b, t') => b = a ∧ Q a s' t'
  | (.error fault, s'), (.error fault', t') => fault' = fault ∧ bare s' = t'.core.under r
  | _, _ => False

section

variable (h : Agrees r flat named s t P)

include h

/-- Either both runs have a value, or both have a fault. -/
lemma Agrees.ends : (∃ a s' t', flat.run.run s = (.ok a, s') ∧ named.run.run t = (.ok a, t') ∧
      P a s' t') ∨ ∃ fault s' t', flat.run.run s = (.error fault, s') ∧
    named.run.run t = (.error fault, t') ∧ bare s' = t'.core.under r := by
  unfold Agrees at h
  revert h
  generalize flat.run.run s = result
  generalize named.run.run t = result'
  obtain ⟨fault | a, s'⟩ := result
  · obtain ⟨fault' | b, t'⟩ := result'
    · rintro ⟨rfl, core⟩
      exact .inr ⟨fault', s', t', rfl, rfl, core⟩
    · exact fun h => h.elim
  · obtain ⟨fault' | b, t'⟩ := result'
    · exact fun h => h.elim
    · rintro ⟨rfl, h⟩
      exact .inl ⟨b, s', t', rfl, rfl, h⟩

lemma Agrees.bind {later : α → Eval.Run β}
    {later' : α → Run β} (further : ∀ a s' t', P a s' t' → Agrees r (later a) (later' a) s' t' Q) :
    Agrees r (flat >>= later) (named >>= later') s t Q := by
  unfold Agrees
  simp only [ExceptT.run_bind, StateT.run_bind]
  obtain ⟨a, s', t', run, run', done⟩ | ⟨fault, s', t', run, run', core⟩ := h.ends
  · rw [run, run']
    exact further a s' t' done
  · rw [run, run']
    exact ⟨rfl, core⟩

lemma Agrees.imp {R : α → Eval.State → State → Prop} (hi : ∀ a s' t', P a s' t' → R a s' t') :
    Agrees r flat named s t R := by
  unfold Agrees
  obtain ⟨a, s', t', run, run', done⟩ | ⟨fault, s', t', run, run', core⟩ := h.ends
  · rw [run, run']
    exact ⟨rfl, hi a s' t' done⟩
  · rw [run, run']
    exact ⟨rfl, core⟩

end

lemma Agrees.same (h : Agrees r flat named s t fun _ s' t' => bare s' = t'.core.under r) :
    (named.run.run t).1 = (flat.run.run s).1 ∧ bare (flat.run.run s).2 = (named.run.run t).2.core.under r := by
  obtain ⟨a, s', t', run, run', core⟩ | ⟨fault, s', t', run, run', core⟩ := h.ends
  · rw [run, run']
    exact ⟨rfl, core⟩
  · rw [run, run']
    exact ⟨rfl, core⟩

lemma agrees_pure (a : α) (h : P a s t) : Agrees r (pure a : Eval.Run α) (pure a : Run α) s t P := ⟨rfl, h⟩

lemma agrees_throw (fault : Fault) (h : bare s = t.core.under r) :
    Agrees r (throw fault : Eval.Run α) (throw fault : Run α) s t P := ⟨rfl, h⟩

lemma agrees_get {later : Eval.State → Eval.Run β} {later' : State → Run β}
    (h : Agrees r (later s) (later' t) s t Q) : Agrees r (get >>= later) (get >>= later') s t Q := h

lemma agrees_modify {f' : State → State} {later : PUnit.{1} → Eval.Run β} {later' : PUnit.{1} →
      Run β} {f : Eval.State → Eval.State} (h : Agrees r (later ()) (later' ()) (f s) (f' t) Q) :
    Agrees r (modify f >>= later) (modify f' >>= later') s t Q := h

lemma Agrees.between {flat : Eval.Run Unit} {named : Run Unit} {f g : State → State} {Q : Unit →
      Eval.State → State → Prop} (h : Agrees r flat named s (f t) fun _ s' t' => Q () s' (g t')) :
    Agrees r flat (do modify f; named; modify g) s t Q := by
  have run : (do modify f; named; modify g : Run Unit).run.run t = match named.run.run (f t) with
      | (.ok _, t') => (.ok (), g t')
      | (.error fault, t') => (.error fault, t') := by
    show ((named >>= fun _ => modify g).run.run (f t)) = _
    rw [ExceptT.run_bind, StateT.run_bind]
    generalize named.run.run (f t) = result
    obtain ⟨fault | _, t'⟩ := result <;> rfl
  unfold Agrees
  rw [run]
  obtain ⟨_, s', t', run, run', done⟩ | ⟨fault, s', t', run, run', core⟩ := h.ends
  · rw [run, run']
    exact ⟨rfl, done⟩
  · rw [run, run']
    exact ⟨rfl, core⟩

lemma Agrees.map {f : α → β} (h : Agrees r flat named s t fun a => Q (f a)) :
    Agrees r (f <$> flat) (f <$> named) s t Q := by
  exact h.bind fun a s' t' h => agrees_pure (f a) h

/-! ### Variables and bindings -/

/-- The variable has the name and the value of the binding. -/
def Stands (scope : Scope) (frame : Frame) (v : VarId) (binding : String × Value) : Prop :=
  (∃ x, scope.var? v = some x ∧ x.name = binding.1) ∧ frame[v]? = some binding.2

/-- The variables in scope, scope by scope, stand for the bindings of the innermost call. -/
structure Alike (r : Report) (scope : Scope) (locals : List (List VarId)) (outer : List Frame)
    (callers : List Scopes) (s : Eval.State) (t : State) : Prop where
  core : bare s = t.core.under r
  nodup : locals.flatten.Nodup
  innermost : ∃ frame scopes, s.frames = frame :: outer ∧ t.calls = scopes :: callers ∧
    Forall₂ (Forall₂ (Stands scope frame)) locals scopes

/-- From states that are alike both runs come to the same end, in states that are alike. -/
def Follows {α : Type} (r : Report) (scope : Scope) (locals : List (List VarId))
    (outer : List Frame) (callers : List Scopes) (flat : Eval.Run α) (named : Run α) : Prop :=
  ∀ s t, Alike r scope locals outer callers s t → Agrees r flat named s t fun _ =>
  Alike r scope locals outer callers

lemma Follows.bind {later : α → Eval.Run β}
    {later' : α → Run β} (h : Follows r scope locals outer callers flat named)
    (further : ∀ a, Follows r scope locals outer callers (later a) (later' a)) :
    Follows r scope locals outer callers (flat >>= later) (named >>= later') :=
  fun s t alike => (h s t alike).bind fun a => further a

lemma Follows.map {f : α → β} (h : Follows r scope locals outer callers flat named) :
    Follows r scope locals outer callers (f <$> flat) (f <$> named) :=
  fun s t alike => Agrees.map (Q := fun _ => Alike r scope locals outer callers) (h s t alike)

lemma follows_pure (a : α) : Follows r scope locals outer callers (pure a) (pure a) :=
    fun _ _ alike => agrees_pure a alike

lemma Blind.follows {act : Eval.Run α} (blind : Blind act) :
    Follows r scope locals outer callers act (rest act) := by
  intro s t h
  obtain ⟨calls, core⟩ := t
  have same : s = { core.under r with frames := s.frames } := by
    have core := h.core
    rw [← show { bare s with frames := s.frames } = s from rfl, core]
  obtain ⟨kept, run⟩ := blind r s.frames core
  rw [← same] at run
  have named : (Lexical.rest act).run.run ⟨calls,
    core⟩ = ((act.run.run core).1, ⟨calls, (act.run.run core).2⟩) := rfl
  unfold Agrees
  rw [named, run]
  have none : (act.run.run core).2.frames = [] := kept.trans (congrArg Eval.State.frames h.core).symm
  generalize act.run.run core = result at none
  obtain ⟨fault | a, c⟩ := result
  · exact ⟨rfl, by rw [bare, ← none]; rfl⟩
  · exact ⟨rfl, by rw [bare, ← none]; rfl, h.nodup, h.innermost⟩

lemma Alike.stopped (h : Alike r scope locals outer callers s t) : t.core.stopped = s.stopped :=
  (congrArg Eval.State.stopped h.core).symm

/-- The binding that a name means is the one of the variable that it was found to refer to. -/
lemma lookup_of_means (stands : Forall₂ (Stands scope frame) vars bindings) (means : scope.Means vars name v) :
    ∃ value, bindings.lookup name = some value ∧ frame[v]? = some value := by
  obtain ⟨later, earlier, x, rfl, hx, named, others⟩ := means
  induction later generalizing bindings with
  | nil =>
    obtain _ | ⟨⟨⟨x', hx', named'⟩, value⟩, -⟩ := stands
    obtain rfl := Option.mem_unique hx hx'
    exact ⟨_, by rw [lookup_cons, ← named', named]; simp, value⟩
  | cons w later ih =>
    obtain _ | ⟨⟨⟨y, hy, named'⟩, -⟩, tail⟩ := stands
    obtain ⟨⟨y', hy', different⟩, others⟩ := forall_mem_cons.1 others
    obtain rfl := Option.mem_unique hy hy'
    obtain ⟨value, found, here⟩ := ih tail others
    refine ⟨value, ?_, here⟩
    rename_i binding _
    obtain ⟨other, old⟩ := binding
    rw [lookup_cons]
    rw [beq_false_of_ne fun same => different (named'.trans same.symm)]
    exact found

lemma lookup?_eq (scopes : Scopes) (name : String) : lookup? scopes name = scopes.flatten.lookup name := by
  induction scopes with
  | nil => rfl
  | cons bindings scopes ih =>
    rw [flatten_cons, lookup_append, ← ih, lookup?, findSome?_cons]
    cases bindings.lookup name <;> rfl

/-- Where a name is found is either among the first variables or behind them, and then none of them
has the name. -/
lemma means_append {rest : List VarId} (means : scope.Means (vars ++ rest) name v) :
    scope.Means vars name v ∨ (∀ w ∈ vars, ∃ y, scope.var? w = some y ∧ y.name ≠ name) ∧
    scope.Means rest name v := by
  obtain ⟨later, earlier, x, same, hx, named, others⟩ := means
  obtain ⟨more, rfl, split⟩ | ⟨more, rfl, split⟩ := append_eq_append_iff.1 same
  · refine .inr ⟨fun w hw => others w (mem_append_left more hw), more, earlier, x, split, hx, named,
      fun w hw => ?_⟩
    exact others w (mem_append_right vars hw)
  · cases more with
    | nil => exact .inr ⟨by simpa using others, [], earlier, x, split.symm, hx, named, by simp⟩
    | cons w more =>
      cases split
      exact .inl ⟨later, more, x, rfl, hx, named, others⟩

lemma lookup_none (stands : Forall₂ (Stands scope frame) vars bindings)
    (others : ∀ w ∈ vars, ∃ y, scope.var? w = some y ∧ y.name ≠ name) : bindings.lookup name = none := by
  induction stands with
  | nil => rfl
  | @cons w binding vars bindings head _ ih =>
    obtain ⟨⟨y, hy, different⟩, others⟩ := forall_mem_cons.1 others
    obtain ⟨⟨y', hy', named⟩, -⟩ := head
    obtain rfl := Option.mem_unique hy hy'
    obtain ⟨other, old⟩ := binding
    rw [lookup_cons, beq_false_of_ne fun same => different (named.trans same.symm)]
    exact ih others

lemma Stands.insert {binding : String × Value} {w : VarId} (h : Stands scope frame w binding)
    (other : w ≠ v) (value : Value) : Stands scope (frame.insert v value) w binding := by
  refine ⟨h.1, ?_⟩
  have apart : ¬ compare v w = .eq := fun same => other (by simpa using same : v = w).symm
  rw [Std.ExtTreeMap.getElem?_insert, if_neg apart, h.2]

lemma forall₂_insert (stands : Forall₂ (Stands scope frame) vars bindings) (other : v ∉ vars) (value : Value) :
    Forall₂ (Stands scope (frame.insert v value)) vars bindings := by
  induction stands with
  | nil => exact .nil
  | cons head _ ih =>
    rw [mem_cons, not_or] at other
    exact .cons (head.insert (Ne.symm other.1) value) (ih other.2)

lemma stands_insert (declared : scope.var? v = some x) (value : Value) :
    Stands scope (frame.insert v value) v (x.name, value) :=
  ⟨⟨x, declared, rfl⟩, Std.ExtTreeMap.getElem?_insert_self⟩

lemma rebind_stands (stands : Forall₂ (Stands scope frame) vars bindings)
    (nodup : vars.Nodup) (means : scope.Means vars name v) (value : Value) :
    Forall₂ (Stands scope (frame.insert v value)) vars (rebind name value bindings) := by
  obtain ⟨later, earlier, x, rfl, hx, named, others⟩ := means
  induction later generalizing bindings with
  | nil =>
    obtain _ | ⟨⟨⟨x', hx', named'⟩, -⟩, tail⟩ := stands
    obtain rfl := Option.mem_unique hx hx'
    rename_i binding bindings
    obtain ⟨other, old⟩ := binding
    obtain rfl : x.name = other := named'
    rw [rebind, if_pos named.symm]
    exact .cons (stands_insert hx value) (forall₂_insert tail (nodup_cons.1 nodup).1 value)
  | cons w later ih =>
    obtain _ | ⟨head, tail⟩ := stands
    rename_i binding bindings
    obtain ⟨other, old⟩ := binding
    obtain ⟨⟨y, hy, different⟩, others⟩ := forall_mem_cons.1 others
    obtain ⟨⟨y', hy', named'⟩, -⟩ := id head
    obtain rfl := Option.mem_unique hy hy'
    obtain ⟨fresh, nodup⟩ := nodup_cons.1 nodup
    rw [rebind, if_neg fun same => different (named'.trans same.symm)]
    refine .cons (head.insert ?_ value) (ih tail nodup others)
    rintro rfl
    simp at fresh

section

variable (stands : Forall₂ (Forall₂ (Stands scope frame)) locals scopes)

include stands

lemma forall₂_insert_all (other : v ∉ locals.flatten) (value : Value) :
    Forall₂ (Forall₂ (Stands scope (frame.insert v value))) locals scopes := by
  induction stands with
  | nil => exact .nil
  | cons head _ ih =>
    rw [flatten_cons, mem_append, not_or] at other
    exact .cons (forall₂_insert head other.1 value) (ih other.2)

/-- An assignment to a variable changes the binding that the name means. -/
lemma assign?_stands (nodup : locals.flatten.Nodup) (means : scope.Means locals.flatten name v)
    (value : Value) : ∃ scopes', assign? name value scopes = some scopes' ∧
    Forall₂ (Forall₂ (Stands scope (frame.insert v value))) locals scopes' := by
  induction stands with
  | nil => exact absurd means.mem (by simp)
  | @cons vars bindings locals scopes head tail ih =>
    obtain ⟨nodupHead, nodupTail, apart⟩ := nodup_append.1 nodup
    obtain here | ⟨others, behind⟩ := means_append means
    · obtain ⟨old, found, -⟩ := lookup_of_means head here
      refine ⟨_, by rw [assign?, found]; rfl, .cons (rebind_stands head nodupHead here value) ?_⟩
      exact forall₂_insert_all tail (fun mem => apart v here.mem v mem rfl) value
    · obtain ⟨scopes', assigned, stands'⟩ := ih nodupTail behind
      refine ⟨bindings :: scopes', by rw [assign?, lookup_none head others, assigned]; rfl, .cons ?_ stands'⟩
      exact forall₂_insert head (fun mem => apart v mem v behind.mem rfl) value

end

/-! ### Reading and storing -/

lemma follows_read {name : Span} (means : scope.Means locals.flatten name.literal v) :
    Follows r scope locals outer callers (do
      match (some v).bind (← get).var? with
      | some value => return some value
      | none => throw (.unbound name.literal)) (some <$> read name.literal) := by
  intro s t h
  obtain ⟨frame, scopes, frames, calls, stands⟩ := h.innermost
  obtain ⟨value, found, here⟩ := lookup_of_means (rel_flatten stands) means
  have known : s.var? v = some value := by
    rw [Eval.State.var?, frames]
    exact here
  have named : t.calls.head?.bind (lookup? · name.literal) = some value := by
    rw [calls]
    exact (lookup?_eq scopes name.literal).trans found
  unfold Lexical.read
  rw [map_bind]
  refine agrees_get ?_
  simp only [Option.bind_some, known, named]
  exact agrees_pure (some value) h

lemma follows_assign (means : scope.Means locals.flatten name v) (value : Value) :
    Follows r scope locals outer callers (bindVariable v value) (assign name value) := by
  intro s t h
  obtain ⟨frame, scopes, frames, calls, stands⟩ := h.innermost
  obtain ⟨scopes', assigned, stands'⟩ := assign?_stands stands h.nodup means value
  refine agrees_get ?_
  simp only [frames, calls, assigned]
  exact ⟨rfl, h.core, h.nodup, frame.insert v value, scopes', rfl, rfl, stands'⟩

lemma Alike.declare (h : Alike r scope (vars :: locals) outer callers s t)
    (declared : scope.var? v = some x) (fresh : v ∉ (vars :: locals).flatten) (value : Value) :
    Agrees r (bindVariable v value) (declare x.name value) s t fun _ =>
    Alike r scope ((v :: vars) :: locals) outer callers := by
  obtain ⟨frame, scopes, frames, calls, stands⟩ := h.innermost
  obtain _ | ⟨head, tail⟩ := id stands
  refine agrees_get ?_
  simp only [frames, calls]
  refine ⟨rfl, h.core, nodup_cons.2 ⟨fresh, h.nodup⟩, frame.insert v value, _, rfl, rfl, ?_⟩
  rw [flatten_cons, mem_append, not_or] at fresh
  exact .cons (.cons (stands_insert declared value) (forall₂_insert head fresh.1 value))
    (forall₂_insert_all tail fresh.2 value)

/-! ### Declarations -/

section Declarations

variable {p : Program}

lemma declaration?_function {ty : Ty} (keyword name : Span)
    (parameters : List Parameter) (returnType : Option ReturnType) (body : Body)
    (bound : Option FunId) (returns : Resolution.returnTypeOf returnType = some ty) :
    declaration? (.function keyword name parameters returnType body bound) =
    some ⟨name.literal, parameters.map (·.name.literal), ty, body.statements⟩ := by
  cases returnType with
  | none =>
    cases returns
    rfl
  | some written =>
    have named : Ty.ofName? written.typeName.literal = some ty := returns
    simp [declaration?, named]

variable (checked : p.Checked) (found : p.scope.function? f = some function)

include checked found

lemma findDeclaration_eq
    (notMain : f ≠ Scope.main) : ∃ parameters : List Parameter, findDeclaration p.ast function.name =
      some ⟨function.name, parameters.map (·.name.literal), function.returnType, function.body⟩ ∧
    Forall₂ (Resolution.Names p.scope) function.parameters parameters := by
  have written : ∀ {id : StmtId} {g : FunId} {other : Function}, p.Declares id g other →
      ∃ parameters : List Parameter, (p.ast.stmt? id).bind (declaration? ·.kind) = some ⟨other.name,
      parameters.map (·.name.literal), other.returnType, other.body⟩ ∧
      Forall₂ (Resolution.Names p.scope) other.parameters parameters := by
    rintro id g other ⟨keyword, name, parameters, returnType, body, here, named, -, same, names, returns⟩
    obtain ⟨node, hnode, hkind⟩ := Option.map_eq_some_iff.1 here
    refine ⟨parameters, ?_, names⟩
    rw [hnode, Option.bind_some, hkind, declaration?_function _ _ _ _ _ _ returns, named, same]
  obtain ⟨id, listed, declared⟩ := checked.declared f function found notMain
  obtain ⟨parameters, here, -⟩ := written declared
  unfold findDeclaration
  cases first : (p.ast.topLevel.filterMap fun id => (p.ast.stmt? id).bind (declaration? ·.kind)).find?
      (·.name = function.name) with
  | none => exact absurd (find?_eq_none.1 first _ (mem_filterMap.2 ⟨id, listed, here⟩)) (by simp)
  | some d =>
    have same : d.name = function.name := by simpa using find?_some first
    obtain ⟨id', listed', here'⟩ := mem_filterMap.1 (mem_of_find?_eq_some first)
    -- what is found is a declaration of some function, and no other function has the name
    have declares : declares p.ast id' = true := by
      obtain ⟨node, hnode, hkind⟩ := Option.bind_eq_some_iff.1 here'
      have shape : p.ast.stmtShape? id' = some node.kind.erase := by rw [Ast.stmtShape?, hnode]; rfl
      rw [declares_of_shape shape, StmtKind.isDeclaration_erase]
      cases kind : node.kind with
      | function => rfl
      | _ =>
        rw [kind] at hkind
        cases hkind
    obtain ⟨g, other, found', -, declared'⟩ := checked.listed id' listed' declares
    obtain ⟨parameters', here'', names⟩ := written declared'
    obtain rfl := Option.mem_unique here' here''
    obtain rfl := checked.names g f other function found' found same
    obtain rfl := Option.mem_unique found found'
    exact ⟨parameters', rfl, names⟩

/-- No variable is a parameter twice. -/
lemma parameters_nodup : function.parameters.Nodup := by
  refine (checked.slotted.parameters f function found).sublist.nodup (nodup_iff_getElem?_ne_getElem?.2 ?_)
  intro i j lt bound same
  obtain ⟨x, hx, -, slot⟩ := checked.slotted.slot f function i _ found (getElem?_eq_getElem (lt.trans bound))
  obtain ⟨y, hy, -, slot'⟩ :=
    checked.slotted.slot f function j _ found (same ▸ getElem?_eq_getElem (lt.trans bound))
  obtain rfl := Option.mem_unique hx hy
  exact absurd (slot.symm.trans slot') lt.ne

end Declarations

/-! ### Expressions -/

section

variable (p : Program) (clock : Nat → Int64)

/-- With the bound `n` on the depth both runs agree on typed expressions. -/
def Expressions (n : Nat) : Prop :=
  ∀ {r : Report} {e : ExprId} {ty : Ty} {locals : List (List VarId)}
    {outer : List Frame} {callers : List Scopes}, HasType p.ast p.scope locals.flatten e ty →
    Follows r p.scope locals outer callers
    (Eval.expression ⟨p.ast, p.scope, clock⟩ n e) (expression ⟨p.ast, clock⟩ n e)

def Calls (n : Nat) : Prop :=
  ∀ {r : Report} {g : FunId} {function : Function} {arguments : List Value}
    {locals : List (List VarId)} {outer : List Frame} {callers : List Scopes}, p.scope.function? g =
    some function → g ≠ Scope.main → arguments.length = function.parameters.length →
    Follows r p.scope locals outer callers (Eval.call ⟨p.ast, p.scope, clock⟩ n g arguments)
    (call ⟨p.ast, clock⟩ n function.name arguments)

variable {p clock} {n : Nat} {vars : List VarId}

lemma callBuiltin_congr (env env' : Eval.Env) (clock : env.clock = env'.clock) (b : Builtin)
    (arguments : List Value) : callBuiltin env b arguments = callBuiltin env' b arguments := by
  cases b with
  | tick => simp only [callBuiltin, clock]
  | print | toText => rfl

lemma collect_agrees {tys : List Ty} (h : Expressions p clock n)
    {es : List ExprId} (typed : HasTypes p.ast p.scope locals.flatten es tys)
    (alike : Alike r p.scope locals outer callers s t) :
    Agrees r (Eval.collect (Eval.expression ⟨p.ast, p.scope, clock⟩ n) es)
    (collect (expression ⟨p.ast, clock⟩ n) es) s t fun result s' t' =>
    Alike r p.scope locals outer callers s' t' ∧
    ∀ values, result = some values → values.length = es.length := by
  induction es generalizing tys s t with
  | nil => exact agrees_pure _ ⟨alike, by simp⟩
  | cons e es ih =>
    obtain _ | ⟨head, tail⟩ := typed
    refine (h head s t alike).bind fun value s1 t1 alike1 => ?_
    refine (Blind.isHalted.follows _ _ alike1).bind fun halted s2 t2 alike2 => ?_
    cases halted with
    | true => exact agrees_pure _ ⟨alike2, by simp⟩
    | false =>
      refine (ih tail alike2).bind fun values s3 t3 ⟨alike3, length⟩ => ?_
      refine agrees_pure _ ⟨alike3, fun all hall => ?_⟩
      obtain ⟨values, rfl, rfl⟩ := Option.map_eq_some_iff.1 hall
      simp [length values rfl]

lemma expression_agrees (h : Expressions p clock n) (hc : Calls p clock n) : Expressions p clock (n + 1) := by
  intro r e ty locals outer callers typed
  obtain ⟨node, hnode, -, parts⟩ := typed.node
  simp only [Eval.expression, expression, hnode]
  generalize node.kind = kind at parts ⊢
  cases kind with
  | number | string | bool => exact follows_pure _
  | var name bound =>
    obtain ⟨v, x, rfl, -, -, -, means⟩ := parts
    exact follows_read means
  | assign name equals value bound =>
    obtain ⟨typed, v, x, rfl, -, -, -, means⟩ := parts
    exact (h typed).bind fun value => (follows_assign means _).bind fun _ => follows_pure _
  | binary op place left right =>
    obtain ⟨a, b, leftTyped, rightTyped, -⟩ := parts
    refine (h leftTyped).bind fun left => (h rightTyped).bind fun right =>
      Blind.isHalted.follows.bind fun halted => ?_
    cases halted with
    | true => exact follows_pure _
    | false => exact (Blind.operate _ _ _ _).follows.map
  | negate minus operand =>
    refine (h parts.1).bind fun value => Blind.isHalted.follows.bind fun halted => ?_
    cases halted with
    | true => exact follows_pure _
    | false => exact (Blind.expectNumber _).follows.bind fun number => follows_pure _
  | paren => exact h parts
  | call callee leftParen arguments rightParen target =>
    intro s t alike
    obtain ⟨types, typed⟩ := ExprKind.Typed.arguments parts
    refine (collect_agrees h typed alike).bind ?_
    rintro values s1 t1 ⟨alike1, length⟩
    cases values with
    | none => exact agrees_pure _ alike1
    | some values =>
      cases target with
      | function f =>
        obtain ⟨function, xs, found, declared, typed, -, notMain, named, unknown⟩ := parts
        have count : values.length = function.parameters.length := by
          rw [length values rfl, typed.length_eq, length_map, ← length_map some, ← declared, length_map]
        simp only [unknown]
        rw [← named]
        exact (hc found notMain count).map _ _ alike1
      | builtin b =>
        obtain ⟨types, -, takes, -, named⟩ := parts
        simp only [named, callBuiltin_congr ⟨p.ast, p.scope, clock⟩ ⟨p.ast, .initial, clock⟩ rfl]
        exact (Blind.callBuiltin _ _ _).follows.map _ _ alike1
      | unresolved => cases parts
  | error => cases parts

/-! ### Statements -/

/-- What holds after statements: the innermost scope has more variables, and those in scope are
`vars` if the statements were run to their end. -/
def Passes (r : Report) (scope : Scope) (head : List VarId) (tail : List (List VarId))
    (outer : List Frame) (callers : List Scopes) (vars : List VarId) (s : Eval.State) (t : State) :
    Prop :=
  ∃ new, Alike r scope ((new ++ head) :: tail) outer callers s t ∧
  (s.stopped = false → ((new ++ head) :: tail).flatten = vars)

variable (p clock) in
def Blocks (n : Nat) : Prop :=
  ∀ {r : Report} {f : FunId} {vars vars' : List VarId} {ids : List StmtId}
    {head : List VarId} {tail : List (List VarId)} {outer : List Frame} {callers : List Scopes}
    {s : Eval.State} {t : State}, StmtsTyped p.ast p.scope f vars ids vars' → Alike r p.scope
    (head :: tail) outer callers s t → (s.stopped = false → (head :: tail).flatten = vars) →
    Agrees r (Eval.block ⟨p.ast, p.scope, clock⟩ n ids) (block ⟨p.ast, clock⟩ n ids) s t fun _ =>
    Passes r p.scope head tail outer callers vars'

variable (p clock) in
def Statements (n : Nat) : Prop :=
  ∀ {r : Report} {f : FunId} {vars vars' : List VarId} {id : StmtId} {head : List VarId} {tail :
    List (List VarId)} {outer : List Frame} {callers : List Scopes} {s : Eval.State} {t : State},
    StmtTyped p.ast p.scope f vars id vars' → Alike r p.scope (head :: tail) outer callers s t →
    (s.stopped = false → (head :: tail).flatten = vars) → Agrees r
    (Eval.statement ⟨p.ast, p.scope, clock⟩ n id) (statement ⟨p.ast, clock⟩ n id) s t fun _ =>
    Passes r p.scope head tail outer callers vars'

variable (p clock) in
def Loops (n : Nat) : Prop :=
  ∀ {r : Report} {f : FunId} {inner : List VarId} {condition : ExprId}
    {ids : List StmtId} {locals : List (List VarId)} {outer : List Frame} {callers : List Scopes},
    HasType p.ast p.scope locals.flatten condition .bool →
    StmtsTyped p.ast p.scope f locals.flatten ids inner → Follows r p.scope locals outer callers
    (Eval.loop ⟨p.ast, p.scope, clock⟩ n condition ids) (loop ⟨p.ast, clock⟩ n condition ids)

lemma block_agrees (h : Statements p clock n) : Blocks p clock (n + 1) := by
  intro r f vars vars' ids head tail outer callers s t typed alike same
  simp only [Eval.block, block]
  induction ids generalizing vars head s t with
  | nil =>
    obtain ⟨⟩ := typed
    exact agrees_pure _ ⟨[], alike, same⟩
  | cons id ids ih =>
    obtain _ | ⟨first, others⟩ := typed
    refine (h first alike same).bind ?_
    rintro _ s1 t1 ⟨new, alike1, same1⟩
    refine (ih others alike1 same1).imp ?_
    rintro _ s2 t2 ⟨new', alike2, same2⟩
    refine ⟨new' ++ new, ?_, ?_⟩
    · rwa [append_assoc]
    · rwa [append_assoc]

/-- Statements in a scope of their own leave nothing behind. -/
lemma inScope_agrees (h : Blocks p clock n) {inner : List VarId}
    {ids : List StmtId} (typed : StmtsTyped p.ast p.scope f locals.flatten ids inner) :
    Follows r p.scope locals outer callers
    (Eval.block ⟨p.ast, p.scope, clock⟩ n ids) (inScope (block ⟨p.ast, clock⟩ n ids)) := by
  intro s t alike
  obtain ⟨frame, scopes, frames, calls, stands⟩ := alike.innermost
  have opened : Alike r p.scope ([] :: locals) outer callers s
    { t with calls := t.calls.modifyHead ([] :: ·) } := ⟨alike.core, alike.nodup, frame,
    [] :: scopes, frames, by rw [calls]; rfl, .cons .nil stands⟩
  refine Agrees.between ((h typed opened fun _ => rfl).imp fun _ s' t' ⟨new, alike', _⟩ => ?_)
  obtain ⟨frame', scopes', frames', calls', stands'⟩ := alike'.innermost
  obtain _ | ⟨-, stands'⟩ := stands'
  refine ⟨alike'.core, alike.nodup, frame', _, frames', ?_, stands'⟩
  rw [calls']
  rfl

/-- The condition of a branch or a loop. -/
lemma condition_agrees (h : Expressions p clock n)
    {condition : ExprId} (typed : HasType p.ast p.scope locals.flatten condition .bool)
    (alike : Alike r p.scope locals outer callers s t)
    {next : Bool → Eval.Run Unit} {next' : Bool → Run Unit} {Q : Unit → Eval.State → State → Prop}
    (halted : ∀ s' t', Alike r p.scope locals outer callers s' t' → Q () s' t')
    (further : ∀ holds s' t', Alike r p.scope locals outer callers s' t' →
      Agrees r (next holds) (next' holds) s' t' Q) : Agrees r (do
      let value := (← Eval.expression ⟨p.ast, p.scope, clock⟩ n condition).getD .void
      setLast none
      if ← isHalted then return
      let holds ← expectBool value
      next holds) (do
      let value := (← expression ⟨p.ast, clock⟩ n condition).getD .void
      rest (setLast none)
      if ← rest isHalted then return
      let holds ← rest (expectBool value)
      next' holds) s t Q := by
  refine (h typed s t alike).bind fun value s1 t1 alike1 => ?_
  refine ((Blind.setLast none).follows _ _ alike1).bind fun _ s2 t2 alike2 => ?_
  refine (Blind.isHalted.follows _ _ alike2).bind fun stopped s3 t3 alike3 => ?_
  cases stopped with
  | true => exact agrees_pure _ (halted s3 t3 alike3)
  | false => exact ((Blind.expectBool _).follows _ _ alike3).bind further

lemma loop_agrees (h : Expressions p clock n) (hb : Blocks p clock n) (hl : Loops p clock n) :
    Loops p clock (n + 1) := by
  intro r f inner condition ids locals outer callers typed bodyTyped s t alike
  simp only [Eval.loop, loop]
  refine condition_agrees h typed alike (fun _ _ alike1 => alike1) fun holds s1 t1 alike1 => ?_
  cases holds with
  | false => exact agrees_pure _ alike1
  | true =>
    refine (inScope_agrees hb bodyTyped _ _ alike1).bind fun _ s2 t2 alike2 => ?_
    refine agrees_get ?_
    rw [alike2.stopped]
    split_ifs
    · exact agrees_pure _ alike2
    · exact hl typed bodyTyped _ _ alike2

lemma Alike.passes {head : List VarId}
    {tail : List (List VarId)} (alike : Alike r p.scope (head :: tail) outer callers s t) :
    Passes r p.scope head tail outer callers (head :: tail).flatten s t :=
  ⟨[], alike, fun _ => rfl⟩

lemma statement_agrees (h : Expressions p clock n) (hb : Blocks p clock n) (hl : Loops p clock n) :
    Statements p clock (n + 1) := by
  intro r f vars vars' id head tail outer callers s t typed alike same
  simp only [Eval.statement, statement]
  refine agrees_get ?_
  rw [alike.stopped]
  by_cases stopped : s.stopped = true
  · rw [if_pos stopped, if_pos stopped]
    exact agrees_pure _ ⟨[], alike, fun running => absurd (stopped.symm.trans running) (by simp)⟩
  rw [if_neg stopped, if_neg stopped]
  obtain rfl := same (by simpa using stopped)
  obtain ⟨node, hnode, is⟩ := typed.node
  simp only [hnode]
  cases typed with
  | expr here typed =>
    simp only [is here]
    refine (h typed s t alike).bind fun value s1 t1 alike1 => ?_
    exact ((Blind.setLast _).follows _ _ alike1).imp fun _ s2 t2 alike2 => alike2.passes
  | @letVar vars _ keyword name ascription init v x here typed fresh declared owned _ named =>
    simp only [is here]
    refine (h typed s t alike).bind fun value s1 t1 alike1 => ?_
    refine ((Blind.setLast none).follows _ _ alike1).bind fun _ s2 t2 alike2 => ?_
    rw [← named]
    refine (alike2.declare declared fresh _).imp fun _ s3 t3 alike3 => ?_
    exact ⟨[v], alike3, fun _ => rfl⟩
  | ret here notMain found typed =>
    simp only [is here, pure_bind]
    refine (h typed s t alike).bind fun value s1 t1 alike1 => ?_
    refine ((Blind.setLast _).follows _ _ alike1).bind fun _ s2 t2 alike2 => ?_
    exact ((Blind.setReturned true).follows _ _ alike2).imp fun _ s3 t3 alike3 => alike3.passes
  | retVoid here notMain found void =>
    simp only [is here, pure_bind]
    refine ((Blind.setLast _).follows _ _ alike).bind fun _ s1 t1 alike1 => ?_
    exact ((Blind.setReturned true).follows _ _ alike1).imp fun _ s2 t2 alike2 => alike2.passes
  | ifThen here typed thenTyped =>
    simp only [is here]
    refine condition_agrees h typed alike (fun _ _ alike1 => alike1.passes) fun holds s1 t1 alike1 => ?_
    cases holds with
    | true => exact (inScope_agrees hb thenTyped _ _ alike1).imp fun _ s2 t2 alike2 => alike2.passes
    | false => exact agrees_pure _ (alike1.passes)
  | ifElse here typed thenTyped elseTyped =>
    simp only [is here]
    refine condition_agrees h typed alike (fun _ _ alike1 => alike1.passes) fun holds s1 t1 alike1 => ?_
    cases holds with
    | true => exact (inScope_agrees hb thenTyped _ _ alike1).imp fun _ s2 t2 alike2 => alike2.passes
    | false => exact (inScope_agrees hb elseTyped _ _ alike1).imp fun _ s2 t2 alike2 => alike2.passes
  | whileLoop here typed bodyTyped =>
    simp only [is here]
    exact (hl typed bodyTyped _ _ alike).imp fun _ s1 t1 alike1 => alike1.passes
  | function here =>
    simp only [is here]
    exact agrees_pure _ (alike.passes)

/-! ### Calls -/

lemma bindAll_agrees {arguments : List Value} {bound parameters : List VarId}
    {written : List Parameter} (names : Forall₂ (Resolution.Names p.scope) parameters written)
    (count : arguments.length = parameters.length) (nodup : (parameters.reverse ++ bound).Nodup)
    (alike : Alike r p.scope [bound] outer callers s t) : Agrees r
    ((parameters.zip arguments).forM fun (parameter, argument) => bindVariable parameter argument)
    (((written.map (·.name.literal)).zip arguments).forM fun (parameter, argument) =>
      declare parameter argument) s t fun _ =>
    Alike r p.scope [parameters.reverse ++ bound] outer callers := by
  induction names generalizing arguments bound s t with
  | nil => exact agrees_pure _ alike
  | @cons v parameter parameters written head _ ih =>
    obtain ⟨x, declared, name⟩ := head
    obtain _ | ⟨argument, arguments⟩ := arguments
    · cases count
    rw [reverse_cons, append_assoc] at nodup ⊢
    have fresh : v ∉ [bound].flatten := by
      have := (nodup_append.1 nodup).2.1
      simpa using (nodup_cons.1 this).1
    rw [map_cons, zip_cons_cons, zip_cons_cons, ← name]
    refine (alike.declare declared fresh argument).bind fun _ s1 t1 alike1 => ?_
    exact ih (by simpa using count) nodup alike1

/-- The value of a call whose statements have been run. -/
def settle (function : Function) : Eval.Run Value := do
  let s ← get
  let value ← if s.returned then pure (s.last.getD .void) else defaultReturn function
  modify ({ · with returned := false })
  return value

lemma Blind.settle (function : Function) : Blind (settle function) := by
  intro r frames s
  have ending : ∀ value : Value, Blind (do modify ({ · with returned := false }); return value) := fun value =>
    (setReturned false).bind fun _ => pure value
  have steps : Blind (do
      let value ← if s.returned then Pure.pure (s.last.getD .void) else Eval.defaultReturn function
      modify ({ · with returned := false })
      return value) := by
    split_ifs
    · exact (pure _).bind ending
    · exact (defaultReturn function).bind ending
  exact steps r frames s

lemma call_agrees (checked : p.Checked) (hb : Blocks p clock n) : Calls p clock (n + 1) := by
  intro r g function arguments locals outer callers found notMain count s t alike
  obtain ⟨written, declaration, names⟩ := findDeclaration_eq checked found notMain
  obtain ⟨vars, typed⟩ := checked.bodies g function found
  obtain ⟨frame, scopes, frames, calls, stands⟩ := alike.innermost
  simp only [Eval.call, call, found, declaration]
  have opened : Alike r p.scope [[]] (frame :: outer) (scopes :: callers) { s with frames := ∅ :: s.frames }
      { t with calls := [[]] :: t.calls } :=
    ⟨alike.core, by simp, ∅, [[]], by rw [frames], by rw [calls], .cons .nil .nil⟩
  have nodup : (function.parameters.reverse ++ []).Nodup := by
    rw [append_nil, nodup_reverse]
    exact parameters_nodup checked found
  refine agrees_modify ?_
  refine (bindAll_agrees names count nodup opened).bind fun _ s1 t1 alike1 => ?_
  refine (hb typed alike1 fun _ => by simp).bind ?_
  rintro _ s2 t2 ⟨new, alike2, _⟩
  obtain ⟨frame', scopes', frames', calls', -⟩ := alike2.innermost
  refine agrees_modify ?_
  -- back in the call that was left before
  have left : Alike r p.scope locals outer callers { s2 with frames :=
    s2.frames.tail } { t2 with calls := t2.calls.tail } := ⟨alike2.core, alike.nodup, frame, scopes,
    by rw [frames']; rfl, by rw [calls']; rfl, stands⟩
  exact (Blind.settle function).follows _ _ left

/-! ### Runs -/

variable (p clock) in
/-- Both runs agree with the bound `n` on the depth. -/
structure AgreesAt (n : Nat) : Prop where
  expression : Expressions p clock n
  call : Calls p clock n
  block : Blocks p clock n
  statement : Statements p clock n
  loop : Loops p clock n

theorem agreesAt (checked : p.Checked) (n : Nat) : AgreesAt p clock n := by
  induction n with
  | zero =>
    exact {
      expression := fun _ _ _ alike => by rw [Eval.expression, expression]; exact agrees_throw _ alike.core
      call := fun _ _ _ _ _ alike => by rw [Eval.call, call]; exact agrees_throw _ alike.core
      block := fun _ alike _ => by rw [Eval.block, block]; exact agrees_throw _ alike.core
      statement := fun _ alike _ => by rw [Eval.statement, statement]; exact agrees_throw _ alike.core
      loop := fun _ _ _ _ alike => by rw [Eval.loop, loop]; exact agrees_throw _ alike.core }
  | succ n ih =>
    exact {
      expression := expression_agrees ih.expression ih.call
      call := call_agrees checked ih.block
      block := block_agrees ih.statement
      statement := statement_agrees ih.expression ih.block ih.loop
      loop := loop_agrees ih.expression ih.block ih.loop }

variable (clock) in
lemma main_agrees {c : Eval.State} (checked : p.Checked) (fuel : Nat) (same : bare s = c.under r) :
    Agrees r (Eval.main ⟨p.ast, p.scope, clock⟩ fuel) (main ⟨p.ast, clock⟩ fuel) s ⟨[], c⟩
      fun _ s' t' => bare s' = t'.core.under r := by
  obtain ⟨function, found, -, parameters⟩ := checked.main
  obtain ⟨vars, typed⟩ := checked.bodies _ _ found
  rw [parameters, reverse_nil] at typed
  simp only [Eval.main, main, found, ← checked.outside function found]
  have opened : Alike r p.scope [[]] s.frames [] { s with frames := ∅ :: s.frames } ⟨[[[]]], c⟩ :=
    ⟨same, by simp, ∅, [[]], rfl, rfl, .cons .nil .nil⟩
  refine agrees_modify ?_
  refine ((agreesAt checked fuel).block typed opened fun _ => rfl).bind fun _ s₁ t₁ ⟨new, alike, _⟩ => ?_
  refine agrees_modify ?_
  refine agrees_get ?_
  have halted : t₁.core.halted = s₁.halted := (congrArg Eval.State.halted alike.core).symm
  simp only [halted]
  exact agrees_pure _ alike.core

end

end Lexical

namespace Program

/-- **The evaluator follows lexical scoping.** Run by nothing but its names, an accepted program
comes to the same end, with the same output, reports and notes, whatever the clock shows and
whatever the bound on the depth is. -/
theorem run_eq_runByName {text : List Char} {p : Program}
    (h : Program.compile text = .ok p) (clock : Nat → Int64) (fuel : Nat) :
    (p.ast.runByName p.report clock fuel).1 = (p.run clock fuel).1 ∧
    (p.ast.runByName p.report clock fuel).2.core = { (p.run clock fuel).2 with frames := [] } := by
  have start : Lexical.bare (.start p.report) = Eval.State.under .empty (.start p.report) := rfl
  obtain ⟨result, core⟩ := (Lexical.main_agrees clock (checked_of_compile h) fuel start).same
  exact ⟨result, core.symm⟩

/-- A parameter that hides another, and variables that hide it in bodies that are run again and
again. -/
def layers : List Char :=
  ("fx down(n: int, n: int) -> int \x7b let r = 0; while r < 3 { let n = n + 1; r = r + n; } " ++
    "if n > 0 \x7b let n = n - 1; return down(9, n) + r; \x7d return n; \x7d\n" ++
    "let r = 1;\nprint(down(7, 2));\nlet r = r + r;\nprint(r);").toList

theorem run_layers : ∃ p, compile layers = .ok p ∧ (p.run (fun _ => 0) 40).1 = .ok (.number 0) ∧
    (p.run (fun _ => 0) 40).2.output = #[.number 7, .number 2] := by
  have runs : ((compile layers).map fun p =>
      decide ( (p.ast.runByName p.report (fun _ => 0) 40).1.toOption = some (.number 0) ∧
      (p.ast.runByName p.report (fun _ => 0) 40).2.core.output = #[.number 7, .number 2])).toOption
      = some true := by
    rw [show layers = _ from String.toList_append.trans
      (congrArg₂ _ (Token.toList_ofList_append ..) String.toList_ofList)]
    decide +kernel
  obtain ⟨p, accepted, runs⟩ := exists_of_check runs
  obtain ⟨value, output⟩ := of_decide_eq_true runs
  obtain ⟨same, core⟩ := run_eq_runByName accepted (fun _ => 0) 40
  refine ⟨p, accepted, ?_, ?_⟩
  · rw [← same]
    cases hvalue : (p.ast.runByName p.report (fun _ => 0) 40).1 with
    | ok v =>
      rw [hvalue] at value
      exact congrArg Except.ok (Option.some.inj value)
    | error =>
      rw [hvalue] at value
      cases value
  · rw [← output, core]

end Program

end EmLang
