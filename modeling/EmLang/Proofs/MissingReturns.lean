import EmLang.Proofs.Faults

/-!
The note that a call ended without a `return`. It is made exactly for the calls in which no `return`
was executed. Where no fault halted the program, such a call executed its body to the end; but a
fault cuts bodies short, and the note is made then as well.
-/

namespace EmLang

open List Option

variable {arguments : List Value} {f : FunId} {s t : Eval.State}

namespace Eval

variable {F : Fault → State → Prop} {Q : Unit → State → Prop}

/-- While the run is busy with the task, it executes a `return`, and not one of a further call. -/
inductive Returns (env : Env) : Moment → Prop where
  | here {n : Nat} {id : StmtId} {s : State} {node : Stmt} {keyword : Text.Span}
      {value : Option ExprId} (running : s.stopped = false) (here : env.ast.stmt? id = some node)
      (kind : node.kind = .ret keyword value) : Returns env ⟨n + 1, .statement id, s⟩
  | within {m m' : Moment} (begins : Begins env m m') (own : m'.task.isBody = true)
      (returns : Returns env m') : Returns env m

variable {env : Env} {n : Nat} {id : StmtId} {ids : List StmtId} {condition : ExprId}
  {m m' : Moment}

/-! ### A `return` that is executed ends the body -/

/-- Where the run ends with the task, it has returned. -/
def Moment.Returned (env : Env) (m : Moment) : Prop :=
  Ends (m.task.run env m.fuel) m.state (fun _ t => t.returned = true) fun _ _ => True

lemma ends_of_running {act next : Run Unit} (running : s.stopped = false)
    (h : Ends next s Q F) : Ends (do if (← get).stopped then act else next) s Q F := by
  rw [ends_bind, ends_get, ends_ite]
  exact ⟨fun stopped => by simp [running] at stopped, fun _ => h⟩

/-- What runs behind the condition, where it holds or not. -/
lemma ends_condition {b : Bool} {next : Bool → Run Unit}
    (first : Gives (expression env n condition) s (some (.bool b)) t) (unhalted : t.halted = false)
    (h : Ends (next b) { t with last := none } Q F) : Ends (do
      let value := (← expression env n condition).getD .void
      setLast none
      if ← isHalted then return
      let b ← expectBool value
      next b) s Q F := by
  rw [ends_bind]
  refine first.ends ?_
  simp only [setLast, isHalted, ends_bind, ends_modify, ends_get, ends_pure, ends_ite]
  exact ⟨fun halted => absurd halted (by simp [unhalted]), fun _ => h⟩

/-- A body that has returned in a part of it skips the rest. -/
lemma Begins.returned (begins : Begins env m m') (own : m'.task.isBody = true)
    (outer : m.task.isBody = true) (h : m'.Returned env) : m.Returned env := by
  have skips : ∀ {t : State} {k : Nat} {ids : List StmtId}, t.returned = true →
      Ends (ids.forM (statement env (k + 1))) t (fun _ u => u.returned = true) fun _ _ => True := by
    intro t k ids returned
    refine (forM_skips (by simp [State.stopped, returned])).mono ?_
    rintro _ _ rfl
    exact returned
  simp only [Moment.Returned] at h ⊢
  cases begins with
  | body => cases outer
  | evaluated | condition | tested => cases own
  | @listed n s t before after id first =>
    simp only [Task.run, ends_map, block] at h ⊢
    rw [show (before ++ id :: after).forM (statement env n) = before.forM (statement env n) >>=
      fun _ => (id :: after).forM (statement env n) from forM_append, ends_bind]
    refine first.ends ?_
    rw [ends_forM_cons]
    obtain _ | k := n
    · rw [statement]
      trivial
    · exact h.mono fun _ u returned => skips returned
  | @branch n s t id node keyword condition thenBody elseBody b body running here kind first unhalted chosen =>
    simp only [Task.run, ends_map, statement, here, kind] at h ⊢
    refine ends_of_running running (ends_condition first unhalted ?_)
    cases b with
    | true =>
      cases chosen
      exact h
    | false =>
      obtain rfl : elseBody = some body := chosen
      exact h
  | looped running here kind =>
    simp only [Task.run, ends_map, statement, here, kind] at h ⊢
    exact ends_of_running running h
  | repeated first unhalted =>
    simp only [Task.run, ends_map, loop] at h ⊢
    refine ends_condition first unhalted ?_
    rw [if_pos rfl, ends_bind]
    refine h.mono fun _ u returned => ?_
    rw [ends_bind, ends_get, ends_ite]
    exact ⟨fun _ => returned, fun running => absurd (by simp [State.stopped, returned]) running⟩
  | again first unhalted second running =>
    simp only [Task.run, ends_map, loop] at h ⊢
    refine ends_condition first unhalted ?_
    rw [if_pos rfl, ends_bind]
    refine second.ends ?_
    exact ends_of_running running h
  | _ => cases outer

/-- A body in which a `return` is executed returns. -/
lemma Returns.returned (returns : Returns env m) (body : m.task.isBody = true) : m.Returned env := by
  induction returns with
  | @here n id s node keyword value running here kind =>
    simp only [Moment.Returned, Task.run, ends_map, statement, here, kind]
    refine ends_of_running running ?_
    cases value with
    | none => rfl
    | some e =>
      rw [ends_bind]
      exact (ends_self _ s).imp (fun _ _ _ => rfl) fun _ _ _ => trivial
  | within begins own _ ih => exact begins.returned own body (ih own)

/-! ### A body in which none is executed does not return -/

/-- What has not returned does not return. -/
def Unreturned (s t : State) : Prop := s.returned = false → t.returned = false

instance : Leaving Unreturned fun _ _ => True where
  refl _ fresh := fresh
  fault _ := trivial
  trans h h' fresh := h' (h fresh)
  fault_trans _ _ := trivial
  last _ _ fresh := fresh
  frames _ _ fresh := fresh

/-- The task is sound, and no `return` is executed while the run is busy with it. -/
def Moment.Goes (env : Env) (m : Moment) : Prop := m.Sound env ∧ (m.task.isBody = true → ¬ Returns env m)

lemma bodies_go (checked : env.Checked) : ∀ n, BodiesLeave env (Moment.Goes env) Unreturned (fun _ _ => True) n
  | 0 => bodiesLeave_zero
  | n + 1 => by
    have watches : Watches env (Moment.Goes env) Unreturned := by
      refine ⟨fun m m' body ⟨sound, goes⟩ begins => ⟨(begins.sound checked sound).1, fun own returns => ?_⟩, ?_⟩
      · exact goes body (.within begins own returns)
      · rintro n id s node keyword value t ⟨-, goes⟩ running here kind
        exact absurd (.here running here kind) (goes rfl)
    refine bodiesLeave_succ watches (bodies_go checked n) fun e s ⟨sound, _⟩ => ?_
    obtain ⟨typed, fit⟩ | _ := sound
    refine ((soundAt checked _).expression _ _ _ _ _ typed fit).imp (fun _ t done _ => ?_) fun _ _ _ => trivial
    exact done.running

/-! ### Calls -/

/-- Every statement of the list is executed, and so the end is reached. -/
def RunsThrough (env : Env) (n : Nat) (ids : List StmtId) (s : State) : Prop :=
  ∀ before after, ids = before ++ after → ∃ t, Gives (before.forM (statement env n)) s ⟨⟩ t ∧ t.stopped = false

lemma RunsThrough.running (through : RunsThrough env n ids s)
    (gives : Gives (block env (n + 1) ids) s () t) : t.stopped = false := by
  obtain ⟨u, gives', running⟩ := through ids [] (append_nil _).symm
  rw [block] at gives
  obtain ⟨⟩ := gives.symm.trans gives'
  exact running

lemma runsThrough_of_gives (gives : Gives (ids.forM (statement env n)) s ⟨⟩ t)
    (running : t.stopped = false) : RunsThrough env n ids s := by
  rintro before after rfl
  rw [show (before ++ after).forM (statement env n) = before.forM (statement env n) >>= fun _ =>
    after.forM (statement env n) from forM_append] at gives
  obtain ⟨_, u, first, rest⟩ := gives_bind.1 gives
  refine ⟨u, first, ?_⟩
  cases after with
  | nil =>
    obtain ⟨⟩ := rest
    exact running
  | cons id after =>
    obtain _ | n := n
    · obtain ⟨_, _, head, -⟩ := gives_bind.1 rest
      rw [statement] at head
      cases head
    · by_contra stopped
      have same : t = u := Gives.of_ends rest (forM_skips (F := fun _ _ => True) (by simpa using stopped))
      exact stopped (same ▸ running)

/-- A call executes the `return`s of its body. -/
lemma returns_call {function : Function} (found : env.scope.function? f = some function)
    (entered : Gives (enter function.parameters arguments) s () t) :
    Returns env ⟨n + 1, .call f arguments, s⟩ ↔ Returns env ⟨n, .block function.body, t⟩ := by
  refine ⟨fun returns => ?_, .within (.body found entered) rfl⟩
  obtain _ | ⟨begins, -, returns⟩ := returns
  cases begins with
  | body found' entered' =>
    obtain rfl := mem_unique found found'
    obtain ⟨⟩ := entered.symm.trans entered'
    exact returns

lemma leave_notes (function : Function) : Ends (leave function) s (fun _ t => t.halted = s.halted ∧
      (s.returned = true → t.notes = s.notes) ∧ (s.returned = false → t.notes = s.notes ++
      (DefaultNote.of? function.name function.returnType).toArray)) fun _ _ => True := by
  simp only [leave, closeFrame, defaultReturn, ends_bind, ends_modify, ends_get, ends_pure, ends_ite]
  refine ⟨fun returned => ⟨trivial, fun _ => trivial, fun h => ?_⟩, fun returned => ?_⟩
  · simp [h] at returned
  · cases DefaultNote.of? function.name function.returnType <;> simp [returned, ends_pure,
      ends_map, ends_modify]

/-- What is noted when a call is left in the state `t`. It was made in the state `s`, and its body
ran from `entered` to `left`. -/
structure CallNoted (env : Env) (n : Nat) (f : FunId) (arguments : List Value) (s t : State)
    (function : Function) (entered left : State) : Prop where
  found : env.scope.function? f = some function
  enters : Gives (enter function.parameters arguments) s () entered
  body : Gives (block env (n + 1) function.body) entered () left
  halted : t.halted = left.halted
  /-- Nothing, if a `return` of the call was executed. -/
  returned : Returns env ⟨n + 2, .call f arguments, s⟩ → t.notes = left.notes
  /-- Otherwise that there was none, if the function is of a type with values. -/
  missing : ¬ Returns env ⟨n + 2, .call f arguments, s⟩ →
    t.notes = left.notes ++ (DefaultNote.of? function.name function.returnType).toArray
  /-- There was none where the body was executed to its end, -/
  unreturned : RunsThrough env n function.body entered → ¬ Returns env ⟨n + 2, .call f arguments, s⟩
  /-- and only there, unless a fault has halted the program. -/
  through : t.halted = false → ¬ Returns env ⟨n + 2, .call f arguments, s⟩ →
    RunsThrough env n function.body entered

end Eval

namespace Program

open Eval

/-- **That a `return` is missing is noted exactly for the calls in which none was executed.** -/
theorem callNoted_of_compile {fuel k : Nat} {v : Value}
    {text : List Char} {p : Program} (accepted : Program.compile text = .ok p)
    (clock : Nat → Int64) (reaches : p.Reaches clock fuel ⟨k, .call f arguments, s⟩)
    (gives : Gives (call ⟨p.ast, p.scope, clock⟩ k f arguments) s v t) : ∃ n function entered left,
    k = n + 2 ∧ CallNoted ⟨p.ast, p.scope, clock⟩ n f arguments s t function entered left := by
  have checked := checked_of_compile accepted
  have checkedEnv : (⟨p.ast, p.scope, clock⟩ : Env).Checked := ⟨p.report, checked⟩
  have sound := reaches.sound checked
  obtain _ | k := k
  · rw [call] at gives
    cases gives
  obtain _ | ⟨found, declared, typed, inside, running⟩ := id sound
  rw [call_eq _ found] at gives
  obtain ⟨_, entered, enters, gives⟩ := gives_bind.1 gives
  obtain ⟨_, left, body, leaves⟩ := gives_bind.1 gives
  obtain _ | n := k
  · rw [block] at body
    cases body
  obtain ⟨halted, returned, missing⟩ := leaves.of_ends (leave_notes _)
  obtain ⟨⟨-, fresh, -⟩, -⟩ :=
    enters.of_ends (enter_ends f (F := fun _ _ => True) declared typed inside running)
  -- What the state says when the body has run is what happened in it.
  have iff : Returns ⟨p.ast, p.scope, clock⟩ ⟨n + 2, .call f arguments, s⟩ ↔ left.returned = true := by
    rw [returns_call found enters]
    refine ⟨fun returns => body.of_ends ((ends_map _ _ _).1 (returns.returned rfl)), fun returned => ?_⟩
    by_contra none
    have goes := (bodies_go checkedEnv (n + 1)).block _ _
      ⟨(Begins.sound checkedEnv (.body found enters) sound).1, fun _ => none⟩
    simp [body.of_ends goes fresh] at returned
  refine ⟨n, _, entered, left, rfl, found, enters, body, halted, fun h => returned (iff.1 h),
    fun h => missing (by simpa [iff] using h), ?_, ?_⟩
  · intro through returns
    have running := through.running body
    simp [State.stopped, iff.1 returns] at running
  · intro unhalted h
    rw [block] at body
    exact runsThrough_of_gives body (State.stopped_eq_false.2 ⟨by simpa [iff] using h, halted ▸ unhalted⟩)

/-- The callee of a call without arguments that the main function begins with. -/
def firstCall (p : Program) : Option FunId := do
  match (← p.ast.stmt? (← (← p.scope.function? Scope.main).body.head?)).kind with
  | .expr e =>
    match (← p.ast.expr? e).kind with
    | .call _ _ [] _ (.function f) => some f
    | _ => none
  | _ => none

lemma reaches_firstCall {p : Program} (first : p.firstCall = some f) (clock : Nat → Int64) (n : Nat) :
    p.Reaches clock (n + 3) ⟨n, .call f [], { State.start p.report with frames := [∅] }⟩ := by
  simp only [firstCall, bind_eq_bind, bind_eq_some_iff] at first
  obtain ⟨function, found, id, head, node, here, first⟩ := first
  split at first
  case h_2 => cases first
  rename_i e kind
  obtain ⟨call, at_e, first⟩ := bind_eq_some_iff.1 first
  split at first
  case h_2 => cases first
  rename_i kind'
  obtain ⟨⟩ := first
  obtain ⟨ids, same⟩ : ∃ ids, function.body = id :: ids := head?_eq_some_iff.1 head
  have listed : Begins ⟨p.ast, p.scope, clock⟩ (p.entry (n + 3)) ⟨n + 2, .statement id,
      (p.entry (n + 3)).state⟩ := by
    simp only [entry, found, map_some, getD_some, same]
    exact @Begins.listed _ _ _ _ [] ids id rfl
  exact ((Relation.ReflTransGen.single listed).tail
    (.evaluated rfl here (by simp [kind, StmtKind.spanned]))).tail (.called at_e kind' rfl)

/-- The body of the call is cut short by a fault, before its `return`. -/
def cutShort : List Char := "f(); fx f() -> int { let x: int = 1 / 0; return x; }".toList

/-- That a `return` is missing is noted all the same. -/
theorem callNoted_cutShort : ∃ p f s v t n function entered left, Program.compile cutShort = .ok p ∧
    p.Reaches (fun _ => 0) 20 ⟨n + 2, .call f [], s⟩ ∧ Gives (call ⟨p.ast,
      p.scope, fun _ => 0⟩ (n + 2) f []) s v t ∧ CallNoted ⟨p.ast, p.scope, fun _ => 0⟩ n f [] s t
    function entered left ∧ t.halted = true ∧ s.notes = #[] ∧ t.notes = #[⟨"f", .int, .number 0⟩] ∧
    ¬ RunsThrough ⟨p.ast, p.scope, fun _ => 0⟩ n function.body entered := by
  have found : ((Program.compile cutShort).map fun p => p.firstCall.any fun f =>
      let outcome := (call ⟨p.ast, p.scope, fun _ => 0⟩ 17 f []).run.run
        { State.start p.report with frames := [∅] }
      outcome.1.isOk && outcome.2.halted && outcome.2.notes = #[⟨"f", .int, .number 0⟩]).toOption =
      some true := by
    rw [show cutShort = _ from String.toList_ofList]
    decide +kernel
  obtain ⟨p, accepted, found⟩ := exists_of_check found
  obtain ⟨f, first, found⟩ := (any_eq_true _ _).1 found
  have reaches := reaches_firstCall first (fun _ => 0) 17
  generalize outcome : (call ⟨p.ast, p.scope, fun _ => 0⟩ 17 f []).run.run
    { State.start p.report with frames := [∅] } = result at found
  obtain ⟨_ | v, t⟩ := result
  · cases found
  obtain ⟨n, function, entered, left, same, noted⟩ := callNoted_of_compile accepted (fun _ => 0) reaches outcome
  obtain rfl : n = 15 := by omega
  simp only [Bool.and_eq_true, decide_eq_true_eq] at found
  obtain ⟨⟨-, halted⟩, notes⟩ := found
  refine ⟨p, f, _, v, t, 15, function, entered, left, accepted, reaches, outcome, noted, halted,
    rfl, notes, fun through => ?_⟩
  have running := through.running noted.body
  simp [State.stopped, ← noted.halted, halted] at running

end Program

end EmLang
