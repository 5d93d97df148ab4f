import EmLang.Proofs.Accepting
import EmLang.Proofs.BuiltCode
import EmLang.Proofs.Unsupported

/-!
Building an accepted program. It comes to no fault, instructions are only added to the block that is
open, and something is reported just if a statement that is built has a part without blocks.
Otherwise the instructions are the code that is said to stand for the program.
-/

namespace EmLang.Lir

open ExprKind Instr List Nat Option StmtKind

variable {op : BinaryOp} {target : CallTarget} {function : EmLang.Function} {f : FunId}
  {arguments es : List ExprId} {id : StmtId} {leftParen rightParen sign span : Text.Span}
  {code code' : List Instr}

lemma Calling.append : Calling (code ++ code') ↔ Calling code ∨ Calling code' := by
  simp only [Calling, mem_append, or_and_right, exists_or]

@[simp] lemma not_calling_nil : ¬ Calling [] := by simp [Calling]

namespace Build

variable {env : Env} {b b' b'' : State} {F : Fault → State → Prop} {callee : Text.Span}
  {declared n ehi elo shi slo : Nat} {exit : BlockId} {flaw flaw' : Prop} {vars vars' : List VarId}
  {e : ExprId} {ty returnType : Ty} {α β : Type} {G : Array String → List Instr → Slot → Prop}

/-! ### Adding code -/

/-- From `b` to `b'` the code is added to the open block; a call in it shows in the function. -/
structure Adds (b b' : State) (code : List Instr) : Prop where
  function : b'.function = b.function
  block : b'.block = b.block
  exit : b'.exit = b.exit
  strings : b.lir.strings.toList <+: b'.lir.strings.toList
  distinct : b.lir.strings.toList.Nodup → b'.lir.strings.toList.Nodup
  blocks : ∀ i, b'.lir.blocks[i]? = (b.lir.blocks[i]?).map fun block =>
    if b.block = some i then { block with instructions := block.instructions ++ code } else block
  functions : ∀ i, b'.lir.functions[i]? = (b.lir.functions[i]?).map fun f =>
    if b.function = some i ∧ Calling code then { f with isLeaf := false } else f
  slots : b.nextSlot ≤ b'.nextSlot

lemma Adds.refl (b : State) : Adds b b [] := by
  refine ⟨rfl, rfl, rfl, prefix_rfl, id, fun i => ?_, fun i => ?_, le_rfl⟩
  · simp
  · simp

lemma Adds.trans (h : Adds b b' code) (h' : Adds b' b'' code') : Adds b b'' (code ++ code') where
  function := h'.function.trans h.function
  block := h'.block.trans h.block
  exit := h'.exit.trans h.exit
  strings := h.strings.trans h'.strings
  distinct := h'.distinct ∘ h.distinct
  blocks i := by
    rw [h'.blocks, h.blocks, Option.map_map, h.block]
    congr 1
    funext block
    by_cases hb : b.block = some i <;> simp [hb]
  functions i := by
    rw [h'.functions, h.functions, Option.map_map, h.function]
    congr 1
    funext f
    simp only [Function.comp_apply, Calling.append]
    by_cases hf : b.function = some i <;> by_cases hc : Calling code <;>
      by_cases hc' : Calling code' <;> simp [hf, hc, hc']
  slots := h.slots.trans h'.slots

/-- A function with so many variables is open. -/
structure Open (b : State) (declared : Nat) : Prop where
  function : ∃ i f, b.function = some i ∧ b.lir.functions[i]? = some f ∧ f.declaredCount = declared
  block : ∃ k, b.block = some k
  slots : declared ≤ b.nextSlot

lemma Open.adds {declared : Nat} (h : Open b declared) (adds : Adds b b' code) : Open b' declared := by
  obtain ⟨⟨i, f, hi, hf, hd⟩, ⟨k, hk⟩, slots⟩ := h
  have found := adds.functions i
  rw [hf, map_some] at found
  refine ⟨⟨i, _, adds.function.trans hi, found, ?_⟩, ⟨k, adds.block.trans hk⟩, slots.trans adds.slots⟩
  split_ifs <;> exact hd

/-- Between `b` and `b'` something is reported just if `flaw` holds. -/
structure Reports (b b' : State) (flaw : Prop) : Prop where
  more : flaw → b.failures < b'.failures
  quiet : ¬ flaw → b'.failures = b.failures ∧ b'.report = b.report

lemma Reports.le (h : Reports b b' flaw) : b.failures ≤ b'.failures := by
  by_cases bad : flaw
  · exact (h.more bad).le
  · exact (h.quiet bad).1.ge

lemma Reports.trans (h : Reports b b' flaw) (h' : Reports b' b'' flaw') : Reports b b'' (flaw ∨ flaw') where
  more
    | .inl bad => (h.more bad).trans_le h'.le
    | .inr bad => h.le.trans_lt (h'.more bad)
  quiet good := by
    obtain ⟨good, good'⟩ := not_or.1 good
    exact ⟨(h'.quiet good').1.trans (h.quiet good).1, (h'.quiet good').2.trans (h.quiet good).2⟩

lemma Reports.congr (h : Reports b b' flaw) (same : flaw ↔ flaw') : Reports b b' flaw' := propext same ▸ h

lemma Reports.none (failures : b'.failures = b.failures) (report : b'.report = b.report) :
    Reports b b' False := ⟨False.elim, fun _ => ⟨failures, report⟩⟩

/-- Code is added, and something is reported just if `flaw` holds. Otherwise `G` holds of the code
and the next free temporary, with the strings of any program that these are taken into. -/
def Built (b b' : State) (flaw : Prop) (G : Array String → List Instr → Slot → Prop) : Prop :=
  ∃ code, Adds b b' code ∧ Reports b b' flaw ∧
    (¬ flaw → ∀ strings, b'.lir.strings.toList <+: strings.toList → G strings code b'.nextSlot)

lemma Built.adds (h : Built b b' flaw G) : ∃ code, Adds b b' code := h.imp fun _ => And.left

lemma Built.trans {R : Array String → List Instr → Slot → Prop} (h : Built b b' flaw G)
    (h' : ∀ code, Built b' b'' flaw' fun strings code' hi => G strings code b'.nextSlot →
      R strings (code ++ code') hi) : Built b b'' (flaw ∨ flaw') R := by
  obtain ⟨code, adds, reports, good⟩ := h
  obtain ⟨code', adds', reports', good'⟩ := h' code
  refine ⟨_, adds.trans adds', reports.trans reports', fun none strings pre => ?_⟩
  obtain ⟨none, none'⟩ := not_or.1 none
  exact good' none' strings pre (good none strings (adds'.strings.trans pre))

lemma Built.congr (h : Built b b' flaw G) (same : flaw ↔ flaw') : Built b b' flaw' G := propext same ▸ h

lemma Built.refl (good : ∀ strings, G strings [] b.nextSlot) : Built b b False G :=
  ⟨[], .refl b, .none rfl rfl, fun _ strings _ => good strings⟩

/-- Where a function with so many variables is open, the steps come to no fault, and build what `G`
says. -/
def Answers {α : Type} (declared : Nat) (act : Builder α) (b : State) (flaw : Prop)
    (G : Array String → α → List Instr → Slot → Prop) : Prop :=
  Open b declared → Ends act b (fun a b' => b'.terminated = b.terminated ∧ Built b b' flaw (G · a))
  fun _ _ => False

section

variable {act : Builder α} {next : α → Builder β} {G : Array String → α → List Instr → Slot → Prop}
  {R : Array String → β → List Instr → Slot → Prop}

lemma Answers.congr (h : Answers declared act b flaw G) (same : flaw ↔ flaw') :
    Answers declared act b flaw' G := propext same ▸ h

lemma Answers.imp {G' : Array String → α → List Instr → Slot → Prop} (h : Answers declared act b flaw G)
    (imp : ∀ strings a code hi, G strings a code hi → G' strings a code hi) : Answers declared act b flaw G' :=
  fun opened => (h opened).mono fun _ _ ⟨terminated, code, adds, reports, good⟩ =>
    ⟨terminated, code, adds, reports, fun none strings pre => imp _ _ _ _ (good none strings pre)⟩

/-- What was built first is known with the strings that are there in the end. -/
lemma Answers.bind (h : Answers declared act b flaw G)
    (h' : ∀ a b' code, Answers declared (next a) b' flaw' fun strings c code' hi =>
      G strings a code b'.nextSlot →
      R strings c (code ++ code') hi) : Answers declared (act >>= next) b (flaw ∨ flaw') R := by
  intro opened
  rw [ends_bind]
  refine (h opened).mono fun a b1 ⟨terminated, code, adds, reports, good⟩ => ?_
  refine (h' a b1 code (opened.adds adds)).mono fun c b2 ⟨terminated', code', adds', reports', good'⟩ => ?_
  refine ⟨terminated'.trans terminated, _, adds.trans adds', reports.trans reports', fun none strings pre => ?_⟩
  obtain ⟨none, none'⟩ := not_or.1 none
  exact good' none' strings pre (good none strings (adds'.strings.trans pre))

lemma Answers.quiet_bind (h : Answers declared act b False G)
    (h' : ∀ a b' code, Answers declared (next a) b' flaw fun strings c code' hi =>
      G strings a code b'.nextSlot →
      R strings c (code ++ code') hi) : Answers declared (act >>= next) b flaw R :=
  (h.bind h').congr (or_iff_right id)

lemma Answers.bind_quiet (h : Answers declared act b flaw G)
    (h' : ∀ a b' code, Answers declared (next a) b' False fun strings c code' hi =>
      G strings a code b'.nextSlot →
      R strings c (code ++ code') hi) : Answers declared (act >>= next) b flaw R :=
  (h.bind h').congr (or_iff_left id)

lemma answers_pure {a : α} (h : ∀ strings, G strings a [] b.nextSlot) :
    Answers declared (pure a) b False G := fun _ => ⟨rfl, .refl h⟩

lemma answers_get {next : State → Builder β} (h : Answers declared (next b) b flaw R) :
    Answers declared (get >>= next) b flaw R := h

lemma answers_return {step : Builder Unit} (a : α) (h : Answers declared step b False
      fun strings _ => G strings a) : Answers declared (do step; return a) b False G :=
  h.quiet_bind fun _ _ _ => answers_pure fun _ good => by rwa [append_nil]

end

/-! ### Single instructions -/

lemma emit_answers {i : Instr} (h : i.opcode ≠ .call) :
    Answers declared (emit i) b False fun _ _ code hi => code = [i] ∧ hi = b.nextSlot := by
  intro opened
  obtain ⟨k, hk⟩ := opened.block
  simp only [emit, ends_bind, ends_get, hk, ends_modify]
  refine ⟨trivial, [i], ⟨rfl, hk.symm, rfl, prefix_rfl, id, fun j => ?_, fun j => ?_, le_rfl⟩,
    .none rfl rfl, fun _ _ _ => ⟨rfl, rfl⟩⟩
  · simp only [modifyBlock, Array.getElem?_modify, hk, some.injEq]
    split_ifs <;> simp
  · simp [modifyBlock, Calling, h]

/-- A call is added, and the function is noted to make one. -/
lemma emitCall_answers (operand : Operand) : Answers declared (do
      emit (.unary .call operand)
      match (← get).function with
      | some f => modify fun s => { s with lir := s.lir.modifyFunction f ({ · with isLeaf := false }) }
      | none => pure ()) b False fun _ _ code hi => code = [.unary .call operand] ∧ hi = b.nextSlot := by
  intro opened
  obtain ⟨k, hk⟩ := opened.block
  obtain ⟨i, f, hi, -, -⟩ := opened.function
  simp only [emit, ends_bind, ends_get, hk, ends_modify, hi]
  refine ⟨trivial, _, ⟨hi.symm, hk.symm, rfl, prefix_rfl, id, fun j => ?_, fun j => ?_, le_rfl⟩,
    .none rfl rfl, fun _ _ _ => ⟨rfl, rfl⟩⟩
  · simp only [modifyBlock, modifyFunction, Array.getElem?_modify, hk, some.injEq]
    split_ifs <;> simp
  · simp only [modifyBlock, modifyFunction, Array.getElem?_modify, hi, some.injEq]
    split_ifs <;> simp_all [Calling, opcode]

lemma emitMove_answers (destination source : Operand) :
    Answers declared (emitMove destination source) b False fun _ _ code hi =>
    code = moveTo destination source ∧ hi = b.nextSlot := by
  simp only [emitMove, moveTo]
  split_ifs
  · exact answers_pure fun _ => ⟨rfl, rfl⟩
  · exact emit_answers (by simp [opcode])

lemma newTemporary_answers : Answers declared newTemporary b False fun _ t code hi =>
    t = b.nextSlot ∧ code = [.unary .declare (.slot t)] ∧ hi = t + 1 := by
  intro opened
  have opened' : Open { b with nextSlot := b.nextSlot + 1 } declared :=
    ⟨opened.function, opened.block, opened.slots.trans (le_succ _)⟩
  simp only [newTemporary, ends_bind, ends_get, ends_set, ends_pure]
  refine (emit_answers (by simp [opcode]) opened').mono
    fun _ b' ⟨terminated, code, adds, reports, good⟩ => ⟨terminated, code, ?_⟩
  exact ⟨{ adds with slots := (le_succ _).trans adds.slots }, ⟨reports.more, reports.quiet⟩,
    fun none strings pre =>
    ⟨trivial, good none strings pre⟩⟩

lemma copy_answers {source : Operand} (h : source ≠ .slot b.nextSlot) : Answers declared (do
      let copy ← newTemporary
      emitMove (.slot copy) source
      return copy) b False fun _ t code hi => t = b.nextSlot ∧ code = copyTo t source ∧ hi = t + 1 := by
  refine newTemporary_answers.quiet_bind fun t b1 code => answers_return t ((emitMove_answers _ _).imp ?_)
  rintro _ _ _ _ ⟨rfl, rfl⟩ ⟨rfl, rfl, next⟩
  exact ⟨rfl, congrArg _ (if_neg h.symm), next⟩

lemma isTemporary_ends (opened : Open b declared) (slot : Slot) :
    Ends (isTemporary slot) b (fun r b' => r = decide (declared ≤ slot) ∧ b' = b) F := by
  obtain ⟨i, f, hi, hf, rfl⟩ := opened.function
  simp [isTemporary, ends_bind, ends_get, ends_pure, hi, hf, Function.isTemporary]

/-! ### Expressions -/

/-- What the code of a function refers to, when the strings of the finished program are these. -/
abbrev Env.site (env : Env) (declared : Nat) (strings : Array String) : Site :=
  ⟨env.ast, env.scope, strings, declared⟩

lemma fail_ends (problem : Problem) (span : Text.Span) : Ends (fail problem span) b
      (fun _ b' => Adds b b' [] ∧ b'.failures = b.failures + 1 ∧ b'.terminated = b.terminated) F := by
  simp only [fail, ends_modify]
  refine ⟨⟨rfl, rfl, rfl, prefix_rfl, id, fun i => ?_, fun i => ?_, le_rfl⟩, trivial, trivial⟩ <;> simp

/-- Nothing is asked of what is built after a report. -/
lemma fail_answers (problem : Problem) (span : Text.Span) (a : α) {G : Array String → α →
      List Instr → Slot → Prop} : Answers declared (do fail problem span; return a) b True G := by
  intro _
  simp only [ends_bind, ends_pure]
  refine (fail_ends problem span).mono fun _ b' ⟨adds, more, terminated⟩ => ⟨terminated, [], adds,
    ⟨fun _ => ?_, ?_⟩, ?_⟩
  · rw [more]
    exact lt_succ_self _
  · exact fun good => (good trivial).elim
  · exact fun good => (good trivial).elim

lemma getElem?_of_begins {xs ys : Array α} (pre : xs.toList <+: ys.toList) {i : Nat} {a : α}
    (h : xs[i]? = some a) : ys[i]? = some a := by
  obtain ⟨more, hmore⟩ := pre
  rw [← Array.getElem?_toList] at h ⊢
  rw [← hmore, getElem?_append_left (List.getElem?_eq_some_iff.1 h).1, h]

lemma internString_answers (text : String) :
    Answers declared (internString text) b False fun strings operand code hi =>
    code = [] ∧ hi = b.nextSlot ∧ ∃ index, operand = .str index ∧ strings[index]? = some text := by
  intro _
  simp only [internString, ends_modifyGet, intern]
  cases h : b.lir.strings.findIdx? (· = text) with
  | some index =>
    refine ⟨trivial, [], .refl b, .none rfl rfl, fun _ strings pre => ⟨rfl, rfl, index, rfl,
      getElem?_of_begins pre ?_⟩⟩
    obtain ⟨lt, found, -⟩ := Array.findIdx?_eq_some_iff_getElem.1 h
    rw [Array.getElem?_eq_getElem lt]
    simpa using found
  | none =>
    have new : text ∉ b.lir.strings.toList := by
      intro known
      rw [Array.findIdx?_eq_none_iff] at h
      simpa using h text (Array.mem_toList_iff.1 known)
    refine ⟨trivial,
      [], ⟨rfl, rfl, rfl, by simp, fun distinct => ?_, fun i => by simp, fun i => by simp, le_rfl⟩,
      .none rfl rfl, fun _ strings pre =>
      ⟨rfl, rfl, b.lir.strings.size, rfl, getElem?_of_begins pre (by simp)⟩⟩
    rw [Array.toList_push]
    refine nodup_append.2 ⟨distinct, by simp, fun a ha b hb same => ?_⟩
    exact new (mem_singleton.1 hb ▸ same ▸ ha)

lemma inTemporary_answers (env : Env) (operand : Operand) :
    Answers declared (inTemporary operand) b False fun strings t code hi =>
    (env.site declared strings).Held b.nextSlot operand code t hi := by
  intro opened
  have copied (other : ∀ s, operand = .slot s → s < declared) : Answers declared (do
      let copy ← newTemporary
      emitMove (.slot copy) operand
      return copy) b False fun strings t code hi =>
        (env.site declared strings).Held b.nextSlot operand code t hi := by
    have fresh : operand ≠ .slot b.nextSlot := fun h => absurd (other _ h) (not_lt.2 opened.slots)
    refine (copy_answers fresh).imp ?_
    rintro _ _ _ _ ⟨rfl, rfl, rfl⟩
    exact .copied other
  cases operand with
  | slot s =>
    simp only [inTemporary, ends_bind]
    refine (isTemporary_ends opened s).mono fun r b' ⟨hr, hb⟩ => ?_
    subst hr hb
    by_cases temporary : declared ≤ s
    · simp only [temporary, decide_true, if_true]
      exact answers_pure (fun _ => .kept temporary) opened
    · simp only [temporary, decide_false, Bool.false_eq_true, if_false]
      exact copied (fun s' h => Operand.slot.inj h ▸ Nat.lt_of_not_le temporary) opened
  | _ => exact copied (fun s h => nomatch h) opened

section

/-- The bound `n` on the depth is enough for the expression. -/
def Deep (ast : Ast) (n : Nat) (e : ExprId) : Prop := (∃ lo, ExprTree ast lo e) ∧ e < n

lemma Deep.children {ast : Ast} {kind : ExprKind} (deep : Deep ast (n + 1) e) (here : ast.node? e =
      some (kind, ty)) (child : ExprId) (mem : child ∈ kind.children) : Deep ast n child := by
  obtain ⟨⟨lo, tree⟩, lt⟩ := deep
  have trees := tree.children here
  exact ⟨trees.tree_of_mem mem, (trees.mem_lt mem).trans_le (le_of_lt_succ lt)⟩

lemma Callee.returnType_eq {isExternal : Bool}
    {symbol : String} {site : Site} (refers : site.Callee arguments target symbol returnType isExternal)
    (typed : (call callee leftParen arguments rightParen target).Typed site.ast site.scope vars ty) :
    returnType = ty := by
  cases refers with
  | function found =>
    obtain ⟨function, -, found', -, -, rfl, -⟩ := typed
    rw [mem_unique found found']
  | builtin b =>
    obtain ⟨types, -, takes, rfl, -⟩ := typed
    cases takes with
    | print =>
      rw [Site.routine]
      generalize arguments.head?.bind _ = argument
      obtain _ | ⟨⟨⟩⟩ := argument <;> rfl
    | tick | toText => rfl

lemma eq_void (proper : ty.IsProper) (novalue : ty.hasValue = false) : ty = .void := by
  cases ty with
  | void => rfl
  | unresolved => exact (proper.1 rfl).elim
  | error => exact (proper.2 rfl).elim
  | _ => cases novalue

/-- Code has no operand for the value just if it stands for a call without one. -/
lemma none_iff_voidCall {h : Nat} {lo hi : Slot} {code : List Instr}
    {operand : Option Operand} {site : Site} (ready : Resolution.Ready site.scope)
    {e : ExprId} (typed : HasType site.ast site.scope vars e ty) :
    site.ExprCode h lo e code operand hi → (operand = none ↔ site.ast.VoidCall e)
  | .number here | .string here _ | .bool here | .var here _ | .assign here _ _ | .binary here _ _ _
      _ _ _ | .negate here _ _ => by
    rw [Ast.voidCall_iff here]
    exact iff_of_false nofun id
  | .paren here below => by
    rw [Ast.voidCall_iff here]
    exact none_iff_voidCall ready (typed.parts here).2 below
  | .call here _ refers answered => by
    obtain ⟨rfl, parts⟩ := typed.parts here
    obtain rfl := Callee.returnType_eq refers parts
    rw [Ast.voidCall_iff here, Ast.VoidKind]
    cases answered with
    | value value =>
      refine iff_of_false nofun ?_
      rintro rfl
      cases value
    | void novalue => exact iff_of_true rfl (eq_void (Resolution.hasType_proper ready typed) novalue)

/-- The expression is built to the code, with these strings. -/
abbrev exprCode (env : Env) (declared n : Nat) (lo : Slot) (e : ExprId) (strings : Array String)
    (operand : Option Operand) (code : List Instr) (hi : Slot) : Prop :=
  (env.site declared strings).ExprCode n lo e code operand hi

/-- With the bound `n` on the depth, typed expressions are built to their code, and something is
reported just if there are no blocks for them. -/
def BuildsExpr (env : Env) (declared n : Nat) : Prop :=
  ∀ e ty vars b, HasType env.ast env.scope vars e ty → Deep env.ast n e →
    Answers declared (expression env n e) b (env.ast.Lacks e) (exprCode env declared n b.nextSlot e)

variable (ready : Resolution.Ready env.scope) (h : BuildsExpr env declared n)

include ready h

/-- A value that is asked for and that is not there is reported. -/
lemma value_answers (typed : HasType env.ast env.scope vars e ty) (deep : Deep env.ast n e) :
    Answers declared (value env (expression env n) e) b (env.ast.Lacks e ∨ env.ast.VoidCall e)
    fun strings operand =>
      exprCode env declared n b.nextSlot e strings (some operand) := by
  obtain ⟨node, found, -⟩ := typed.node
  intro opened
  simp only [value, ends_bind, ends_get]
  refine (h e ty vars b typed deep opened).mono fun operand b1 ⟨terminated, code, adds, reports, good⟩ => ?_
  by_cases bad : env.ast.Lacks e
  · have already : b1.terminated = b.terminated ∧
      ∀ G, Built b b1 (env.ast.Lacks e ∨ env.ast.VoidCall e) G := ⟨terminated, fun _ => ⟨code, adds,
      reports.congr (iff_of_true bad (.inl bad)), fun none => (none (.inl bad)).elim⟩⟩
    cases operand with
    | some operand => exact ⟨terminated, already.2 _⟩
    | none =>
      simp only [ends_bind, ends_get, (reports.more bad).ne', if_false, ends_pure]
      exact ⟨terminated, already.2 _⟩
  · have void := none_iff_voidCall ready typed (good bad b1.lir.strings prefix_rfl)
    cases operand with
    | some operand =>
      have value : ¬ env.ast.VoidCall e := fun h => nomatch void.2 h
      exact ⟨terminated, code, adds, reports.congr (or_iff_left value).symm, fun _ => good bad⟩
    | none =>
      simp only [ends_bind, ends_get, (reports.quiet bad).1, if_true, failUnresolved, ends_pure, exprOf, found]
      refine (fail_ends _ _).mono fun _ b2 ⟨adds', more, terminated'⟩ => ?_
      refine ⟨terminated'.trans terminated, _, adds.trans adds', ⟨fun _ => ?_, fun none => ?_⟩, fun none => ?_⟩
      · rw [more]
        exact lt_succ_of_le reports.le
      · exact (none (.inr (void.1 rfl))).elim
      · exact (none (.inr (void.1 rfl))).elim

/-- The value of an expression of a type with values is reported just if there are no blocks for
it. -/
lemma value_answers_of_ne (typed : HasType env.ast env.scope vars e ty) (value : ty ≠ .void)
    (deep : Deep env.ast n e) : Answers declared (Build.value env (expression env n) e) b
    (env.ast.Lacks e) fun strings operand =>
      exprCode env declared n b.nextSlot e strings (some operand) :=
  (value_answers ready h typed deep).congr (or_iff_left fun void => value (void.type typed))

end

lemma kinds_eq (declared : Nat) (here : ∀ e ∈ es, ∃ node, env.ast.expr? e = some node) :
    ∃ kinds, (es.mapM fun e => do return (← exprOf env e).kind) = (pure kinds : Builder (List ExprKind)) ∧
      (kinds.all isPlainRead = true → ∀ strings, ∀ e ∈ es, (env.site declared strings).Plain e) := by
  induction es with
  | nil => exact ⟨[], rfl, nofun⟩
  | cons e es ih =>
    obtain ⟨⟨node, found⟩, here⟩ := forall_mem_cons.1 here
    obtain ⟨kinds, same, plain⟩ := ih here
    refine ⟨node.kind :: kinds, ?_, fun all strings => ?_⟩
    · simp only [mapM_cons, exprOf, found, pure_bind] at same ⊢
      rw [same, pure_bind]
    · simp only [all_cons, Bool.and_eq_true] at all
      exact forall_mem_cons.2 ⟨⟨node.kind, node.ty, Ast.node?_of_expr found, all.1⟩, plain all.2 strings⟩

/-- An argument is kept for the call, and the rest goes on with what it is kept as. -/
lemma keep_answers (operand : Operand) (later : List ExprId) (kinds : List ExprKind)
    (plain : kinds.all isPlainRead = true → ∀ strings, ∀ e ∈ later, (env.site declared strings).Plain e)
    (next : Operand → Builder β) {G : Array String → β → List Instr → Slot → Prop} (h : ∀ kept b' code,
      Answers declared (next kept) b' flaw fun strings c code' hi =>
        (env.site declared strings).Kept later b.nextSlot operand code kept b'.nextSlot →
        G strings c (code ++ code') hi) :
    Answers declared (match operand with
      | .slot slot => do
        if kinds.all isPlainRead then
          let operand ← pure operand
          next operand
        else if ← isTemporary slot then
          let operand ← pure operand
          next operand
        else
          let copy ← newTemporary
          emitMove (.slot copy) operand
          let operand ← pure (.slot copy)
          next operand
      | _ => do
        let operand ← pure operand
        next operand) b flaw G := by
  have kept (safe : ∀ strings s, operand = .slot s → declared ≤ s ∨ ∀ e ∈ later,
    (env.site declared strings).Plain e) : Answers declared (pure operand >>= next) b flaw G :=
    (answers_pure fun strings => .safe (safe strings)).quiet_bind h
  cases operand with
  | slot s =>
    simp only
    by_cases all : kinds.all isPlainRead = true
    · rw [if_pos all]
      exact kept fun strings _ _ => .inr (plain all strings)
    · intro opened
      rw [if_neg all, ends_bind]
      refine (isTemporary_ends opened s).mono fun r b' ⟨hr, hb⟩ => ?_
      subst hr hb
      by_cases temporary : declared ≤ s
      · simp only [temporary, decide_true, if_true]
        exact kept (fun strings s' h => .inl (Operand.slot.inj h ▸ temporary)) opened
      · simp only [temporary, decide_false, Bool.false_eq_true, if_false]
        have own : s < declared := Nat.lt_of_not_le temporary
        have fresh : Operand.slot s ≠ .slot b'.nextSlot := by
          intro h
          exact absurd (Operand.slot.inj h ▸ own) (not_lt.2 opened.slots)
        have copied : Answers declared ((do
            let copy ← newTemporary
            emitMove (.slot copy) (.slot s)
            return copy) >>= fun copy => next (.slot copy)) b' flaw G := by
          refine (copy_answers fresh).quiet_bind fun t b1 code => (h (.slot t) b1 code).imp ?_
          rintro strings c code' hi good ⟨rfl, rfl, next⟩
          exact good (next ▸ .copied own)
        simpa only [LawfulMonad.bind_assoc, pure_bind] using copied opened
  | _ => exact kept fun strings _ h => nomatch h

lemma buildArguments_answers {vars : List VarId}
    {tys : List Ty} (ready : Resolution.Ready env.scope) (h : BuildsExpr env declared n)
    (typed : HasTypes env.ast env.scope vars es tys) (deep : ∀ e ∈ es, Deep env.ast n e) :
    Answers declared (buildArguments env (expression env n) es) b
    (∃ e ∈ es, env.ast.Lacks e ∨ env.ast.VoidCall e) fun strings operands code hi =>
      (env.site declared strings).ArgsCode n b.nextSlot es code operands hi := by
  induction es generalizing b tys with
  | nil => exact (answers_pure fun _ => .nil).congr (by simp)
  | cons e later ih =>
    obtain _ | ⟨head, tail⟩ := typed
    obtain ⟨headDeep, tailDeep⟩ := forall_mem_cons.1 deep
    have here e (mem : e ∈ later) : ∃ node, env.ast.expr? e = some node := by
      obtain ⟨_, typed⟩ := tail.exists_of_mem mem
      obtain ⟨node, found, -⟩ := typed.node
      exact ⟨node, found⟩
    obtain ⟨kinds, same, plain⟩ := kinds_eq declared here
    refine ((value_answers ready h head headDeep).bind fun operand b1 code =>
      (?_ : Answers declared _ b1 (∃ e ∈ later, env.ast.Lacks e ∨ env.ast.VoidCall e) _)).congr (by simp)
    rw [same, pure_bind]
    refine keep_answers operand later kinds plain (fun operand => do
      let operands ← buildArguments env (expression env n) later
      return operand :: operands) fun kept b2 copy => (ih tail tailDeep).bind_quiet
        fun operands b3 code' => answers_pure fun strings good keeps first => ?_
    rw [append_nil, ← append_assoc]
    exact .cons first keeps good

section

lemma answer_answers (returnType : Ty) : Answers declared (if returnType.hasValue then do
        let result ← newTemporary
        emit (.binary .mov (.slot result) .returnSlot)
        return some (.slot result)
      else return none) b False fun _ operand code hi => Site.Answer returnType b.nextSlot code operand hi := by
  cases value : returnType.hasValue with
  | true =>
    refine newTemporary_answers.quiet_bind fun t b1 code =>
      answers_return _ ((emit_answers (by simp [opcode])).imp ?_)
    rintro _ _ _ _ ⟨rfl, rfl⟩ ⟨rfl, rfl, next⟩
    exact next ▸ .value value
  | false => exact answers_pure fun _ => .void value

/-- Calls a function, and takes its value if there is one. -/
def makeCall (symbol : String) (operands : List Operand) (returnType : Ty) (isExternal : Bool) :
    Builder (Option Operand) := do
  emit (.unary .call (.callee symbol operands returnType isExternal))
  match (← get).function with
  | some f =>
    modify fun s => { s with lir := s.lir.modifyFunction f ({ · with isLeaf := false }) }
  | none => pure ()
  if returnType.hasValue then
    let result ← newTemporary
    emit (.binary .mov (.slot result) .returnSlot)
    return some (.slot result)
  else return none

lemma makeCall_answers (symbol : String) (operands : List Operand)
    (returnType : Ty) (isExternal : Bool) : Answers declared
    (makeCall symbol operands returnType isExternal) b False fun _ operand code hi =>
    ∃ answer, code = .unary .call (.callee symbol operands returnType isExternal) :: answer ∧
    Site.Answer returnType b.nextSlot answer operand hi := by
  intro opened
  have called := emitCall_answers (.callee symbol operands returnType isExternal) opened
  obtain ⟨i, _, hi, -, -⟩ := opened.function
  obtain ⟨k, hk⟩ := opened.block
  simp only [makeCall, emit, ends_bind, ends_get, hk, ends_modify, hi] at called ⊢
  obtain ⟨-, built⟩ := called
  have ⟨_, adds, _⟩ := built
  have answered := answer_answers returnType (opened.adds adds)
  refine answered.mono fun operand b' ⟨terminated, code', adds', reports', good'⟩ => ⟨terminated, ?_⟩
  refine (built.trans fun code => ⟨code', adds', reports', fun none strings pre => ?_⟩).congr (or_iff_left id)
  rintro ⟨rfl, next⟩
  exact ⟨code', rfl, next ▸ good' none strings pre⟩

lemma calleeOf_eq (declared : Nat)
    (typed : (call callee leftParen arguments rightParen target).Typed env.ast env.scope vars ty) :
    ∃ symbol returnType isExternal,
    calleeOf env target arguments = pure (some (symbol, returnType, isExternal)) ∧ ∀ strings,
    (env.site declared strings).Callee arguments target symbol returnType isExternal := by
  cases target with
  | function f =>
    obtain ⟨function, -, found, -⟩ := typed
    exact ⟨_, _, _, by simp only [calleeOf, found], fun _ => .function found⟩
  | builtin builtin =>
    obtain ⟨types, typed, takes, -⟩ := typed
    have routine strings : (env.site declared strings).routine arguments =
        (env.site declared #[]).routine arguments := by
      funext builtin
      cases builtin <;> rfl
    refine ⟨_, _, _, ?_, fun strings => routine strings ▸ Site.Callee.builtin builtin⟩
    cases takes with
    | print =>
      obtain _ | ⟨head, _ | _⟩ := typed
      obtain ⟨node, found, -⟩ := head.node
      simp only [calleeOf, exprOf, found, head?_cons, mapM_some, Site.routine, bind_some, Ast.node?, map_some]
      rfl
    | tick | toText => rfl
  | unresolved => exact typed.elim

lemma opcodeOf_ne_call (op : BinaryOp) : opcodeOf op ≠ .call := by
  cases op <;> simp [opcodeOf]

/-- An operator on typed operands that compares nothing joins two strings, or the operands are
numbers. -/
lemma joins_or_arithmetic {left right : ExprId}
    {node : Expr} (comparison : op.isComparison = false) (found : env.ast.expr? left = some node)
    (typed : (binary op sign left right).Typed env.ast env.scope vars ty) :
    (node.ty = .string ∧ (binary op sign left right).Unsupported env.ast) ∨ node.ty ≠ .string ∧
    ¬ (binary op sign left right).Unsupported env.ast ∧ HasType env.ast env.scope vars left .int ∧
    HasType env.ast env.scope vars right .int := by
  obtain ⟨a, c, leftTyped, rightTyped, yields⟩ := typed
  obtain ⟨rightNode, rightFound, rightTy, -⟩ := rightTyped.node
  have leftTy : node.ty = a := (leftTyped.parts (Ast.node?_of_expr found)).1
  simp only [ExprKind.Unsupported, comparison, Bool.false_eq_true, false_or, mem_cons, not_mem_nil, or_false,
    forall_eq_or_imp, forall_eq, found, rightFound, map_some, some.injEq, leftTy, rightTy]
  cases yields with
  | join => exact .inl ⟨rfl, rfl, rfl, rfl⟩
  | arithmetic => exact .inr ⟨by decide, (by cases ·.2.1), leftTyped, rightTyped⟩
  | equality h => obtain rfl | rfl := h <;> cases comparison
  | order h => obtain rfl | rfl | rfl | rfl := h <;> cases comparison

variable (ready : Resolution.Ready env.scope) (h : BuildsExpr env declared n) (deep : Deep env.ast (n + 1) e)

include ready h deep

lemma binary_answers {left right : ExprId} (here : env.ast.node? e = some (.binary op sign left right, ty))
    (typed : (binary op sign left right).Typed env.ast env.scope vars ty) : Answers declared (do
      if op.isComparison then
        fail (.unsupported s!"comparison `{op.symbol}`") span
        return some (Operand.imm 0)
      else if (← exprOf env left).ty = .string then
        fail (.unsupported "string concatenation") span
        return some (Operand.imm 0)
      else
        let destination ← inTemporary (← value env (expression env n) left)
        let operand ← value env (expression env n) right
        emit (.binary (opcodeOf op) (.slot destination) operand)
        return some (Operand.slot destination)) b (env.ast.LacksKind (.binary op sign left right))
      (exprCode env declared (n + 1) b.nextSlot e) := by
  cases comparison : op.isComparison with
  | true =>
    exact (fail_answers _ _ _).congr (iff_of_true trivial (.inl (.inl comparison)))
  | false =>
    obtain ⟨_, _, leftTyped, -⟩ := id typed
    obtain ⟨_, leftHere⟩ := hasType_node leftTyped
    obtain ⟨node, found, -, rfl⟩ := node_expr leftHere
    simp only [exprOf, found, pure_bind]
    obtain ⟨string, joins⟩ | ⟨other, supported, leftTyped, rightTyped⟩ :=
      joins_or_arithmetic comparison found typed
    · rw [if_pos string]
      exact (fail_answers _ _ _).congr (iff_of_true trivial (.inl joins))
    · rw [if_neg other]
      have int : Ty.int ≠ .void := by decide
      have leftDeep := deep.children here left (by simp [children])
      have rightDeep := deep.children here right (by simp [children])
      refine Answers.congr ?_ (or_iff_right supported).symm
      refine (value_answers_of_ne ready h leftTyped int leftDeep).bind fun l b1 code => ?_
      refine (inTemporary_answers env l).quiet_bind fun t b2 copy => ?_
      refine (value_answers_of_ne ready h rightTyped int rightDeep).bind_quiet fun r b3 code' => ?_
      refine answers_return _ (.imp (emit_answers (opcodeOf_ne_call op)) ?_)
      rintro strings _ _ _ ⟨rfl, rfl⟩ second held first
      simpa only [append_assoc] using Site.ExprCode.binary here comparison leftHere other first held second

lemma call_answers
    (here : env.ast.node? e = some (.call callee leftParen arguments rightParen target, ty))
    (typed : (call callee leftParen arguments rightParen target).Typed env.ast env.scope vars ty) :
    Answers declared (do
      let operands ← buildArguments env (expression env n) arguments
      match ← calleeOf env target arguments with
      | none =>
        failUnresolved "a resolved callee" span
        return none
      | some (symbol, returnType, isExternal) =>
          makeCall symbol operands returnType isExternal) b (∃ e ∈ arguments, env.ast.Lacks e ∨
          env.ast.VoidCall e) (exprCode env declared (n + 1) b.nextSlot e) := by
  obtain ⟨types, argumentsTyped⟩ := typed.arguments
  obtain ⟨symbol, returnType, isExternal, same, refers⟩ := calleeOf_eq declared typed
  simp only [same, pure_bind]
  refine (buildArguments_answers ready h argumentsTyped (deep.children here)).bind_quiet
    fun operands b1 code => ?_
  refine (makeCall_answers symbol operands returnType isExternal).imp ?_
  rintro strings operand _ hi ⟨answer, rfl, answered⟩ below
  exact .call here below (refers strings) answered

lemma expression_answers (typed : HasType env.ast env.scope vars e ty) :
    Answers declared (expression env (n + 1) e) b (env.ast.Lacks e)
    (exprCode env declared (n + 1) b.nextSlot e) := by
  obtain ⟨kind, here⟩ := hasType_node typed
  obtain ⟨node, found, rfl, rfl⟩ := node_expr here
  obtain ⟨-, parts⟩ := typed.parts here
  have inner := deep.children here
  simp only [Ast.lacks_iff here, expression, exprOf, found, pure_bind]
  generalize node.kind = kind at here parts inner ⊢
  cases kind with
  | number => exact answers_pure fun _ => .number here
  | bool => exact answers_pure fun _ => .bool here
  | string literal text =>
    refine (internString_answers text).quiet_bind fun operand b' code => answers_pure ?_
    rintro strings ⟨rfl, next, index, rfl, placed⟩
    exact next ▸ .string here placed
  | var name bound =>
    obtain ⟨v, x, rfl, -, found, -⟩ := parts
    simp only [slotOf, found, pure_bind]
    exact answers_pure fun _ => .var here found
  | assign name equals value bound =>
    obtain ⟨typed, v, x, rfl, -, found, -⟩ := parts
    simp only [slotOf, found, pure_bind]
    refine (value_answers ready h typed (inner value (by simp [children]))).bind_quiet fun operand b1 code => ?_
    refine answers_return _ ((emitMove_answers _ _).imp ?_)
    rintro strings _ _ _ ⟨rfl, rfl⟩ below
    exact .assign here found below
  | binary op sign left right => exact binary_answers ready h deep here parts
  | negate sign operand =>
    obtain ⟨typed, -⟩ := parts
    have int : Ty.int ≠ .void := by decide
    refine (value_answers_of_ne ready h typed int (inner operand (by simp [children]))).bind_quiet
      fun r b1 code => ?_
    refine (inTemporary_answers env r).quiet_bind fun t b2 copy =>
      answers_return _ ((emit_answers (by simp [opcode])).imp ?_)
    rintro strings _ _ _ ⟨rfl, rfl⟩ held below
    simpa only [append_assoc] using Site.ExprCode.negate here below held
  | paren leftParen operand rightParen =>
    exact (h operand _ vars b parts (inner operand (by simp [children]))).imp fun _ _ _ _ => .paren here
  | call callee leftParen arguments rightParen target => exact call_answers ready h deep here parts
  | error => exact parts.elim

end

/-- **Typed expressions are built to their code, or what has no blocks is reported.** -/
lemma buildsExpr {env : Env} (ready : Resolution.Ready env.scope) (declared n : Nat) :
    BuildsExpr env declared n := by
  induction n with
  | zero => exact fun e _ _ _ _ deep => absurd deep.2 (not_lt_zero e)
  | succ n ih => exact fun e ty vars b typed deep => expression_answers ready ih deep typed

/-! ### Statements -/

/-- The code stands for the statement in front of any others; behind a `return` there are none. -/
def Leads (site : Site) (exit : BlockId) (lo : Slot) (id : StmtId) (code : List Instr) (hi : Slot) : Bool → Prop
  | true => ∀ ids, site.BodyCode exit lo (id :: ids) code hi true
  | false => ∀ ids rest hi' ended, site.BodyCode exit hi ids rest hi' ended →
    site.BodyCode exit lo (id :: ids) (code ++ rest) hi' ended

/-- What building a statement does. -/
def StatementBuilt (env : Env) (declared : Nat) (exit : BlockId) (b : State) (id : StmtId)
    (b' : State) : Prop :=
  b'.terminated = env.ast.returns id ∧
  Built b b' (env.ast.Unsupported id ∨ env.ast.UsesVoid id) fun strings code hi =>
    Leads (env.site declared strings) exit b.nextSlot id code hi (env.ast.returns id)

lemma Adds.mark (h : Adds b b' code) (terminated : Bool) :
    Adds b { b' with terminated := terminated } code := { h with }

lemma Answers.statement {act : Builder Unit}
    (opened : Open b declared) (running : b.terminated = false) (goes : env.ast.returns id = false)
    (same : flaw ↔ env.ast.Unsupported id ∨ env.ast.UsesVoid id) (h : Answers declared act b flaw
      fun strings _ code hi => Leads (env.site declared strings) exit b.nextSlot id code hi false) :
    Ends act b (fun _ b' => StatementBuilt env declared exit b id b') fun _ _ => False :=
  (h opened).mono fun _ _ ⟨terminated, built⟩ => ⟨terminated.trans (running.trans goes.symm),
  goes ▸ built.congr same⟩

lemma leave_ends (opened : Open b declared) (leaves : b.exit = some exit) : Ends (do
      match (← get).exit with
      | some exit => emit (.unary .jmp (.block exit))
      | none => throw .strayReturn
      modify ({ · with terminated := true })) b (fun _ b' => b'.terminated = true ∧
        Built b b' False fun _ code hi =>
        code = [.unary .jmp (.block exit)] ∧ hi = b.nextSlot) fun _ _ => False := by
  simp only [ends_bind, ends_get, leaves, ends_modify]
  refine (emit_answers (by simp [opcode]) opened).mono fun _ b1 ⟨_, code, adds, reports, good⟩ =>
    ⟨trivial, code, adds.mark true, ?_, good⟩
  exact ⟨reports.more, reports.quiet⟩

lemma statement_ends {exit : BlockId} {vars vars' : List VarId} {slo elo ehi : Nat}
    (ready : Resolution.Ready env.scope) (typed : StmtTyped env.ast env.scope f vars id vars')
    (tree : StmtTree env.ast slo elo id ehi) (opened : Open b declared)
    (running : b.terminated = false) (leaves : b.exit = some exit) : Ends (statement env id) b
    (fun _ b' => StatementBuilt env declared exit b id b') fun _ _ => False := by
  have build := buildsExpr ready declared env.ast.depth
  obtain ⟨node, found, is⟩ := typed.node
  have here := Ast.stmtKind?_of_stmt found
  obtain ⟨mid, trees, -⟩ := tree.parts here
  have deep e (mem : e ∈ node.kind.expressions) : Deep env.ast env.ast.depth e := by
    obtain ⟨lo, tree⟩ := trees.tree_of_mem mem
    exact ⟨⟨lo, tree⟩, Nat.lt_succ_of_lt (Nat.lt_add_left _ tree.lt_size)⟩
  have same := Ast.stmt_iff here
  have returns : env.ast.returns id = node.kind.isReturn := by rw [Ast.returns, here]; rfl
  simp only [statement, ends_bind, ends_get, running, Bool.false_eq_true, if_false, found]
  cases typed with
  | expr here typed =>
    rw [is here] at same returns deep ⊢
    refine Answers.statement opened running returns
      (.trans ?_ same.symm) ((build _ _ vars b typed (deep _ ?_)).bind_quiet fun operand b1 code =>
      answers_pure fun strings below => ?_)
    · simp [branches, returned, expressions]
    · simp [expressions]
    · rw [append_nil]
      exact fun ids rest hi' ended tail => .expr here below tail
  | letVar here typed fresh found owned value =>
    rw [is here] at same returns deep ⊢
    refine Answers.statement opened running returns (.trans ?_ same.symm)
      ((value_answers_of_ne ready build typed value (deep _ ?_)).bind_quiet fun operand b1 code => ?_)
    · simp [branches, returned, expressions]
    · simp [expressions]
    · simp only [slotOf, found, pure_bind]
      refine (emit_answers (by simp [opcode])).quiet_bind fun _ b2 declares => (emitMove_answers _ _).imp ?_
      rintro strings _ _ _ ⟨rfl, rfl⟩ ⟨rfl, next⟩ below
      rw [next]
      exact fun ids rest hi' ended tail => .letVar here found below tail
  | @ret _ _ _ e _ here notMain _ typed =>
    rw [is here] at same returns deep ⊢
    have given :
      Answers declared (do emitMove .returnSlot (← value env (expression env env.ast.depth) e)) b
      (env.ast.Lacks e ∨ env.ast.VoidCall e) fun strings _ code hi =>
      ∀ ids, (env.site declared strings).BodyCode exit b.nextSlot
      (id :: ids) (code ++ [.unary .jmp (.block exit)]) hi true :=
      (value_answers ready build typed (deep e (by simp [expressions]))).bind_quiet
      fun operand b1 code =>
        (emitMove_answers .returnSlot operand).imp
        (by rintro strings _ _ _ ⟨rfl, rfl⟩ below ids; exact .ret here below)
    have given := given opened
    simp only [ends_bind] at given ⊢
    refine given.mono fun _ b1 moved => moved.mono ?_
    rintro _ b2 ⟨_, given⟩
    obtain ⟨_, adds⟩ := given.adds
    have left := leave_ends (opened.adds adds) (adds.exit.trans leaves)
    refine left.mono ?_
    rintro _ b3 ⟨terminated, jump, adds', reports', good⟩
    refine ⟨terminated.trans returns.symm, ?_⟩
    refine (given.trans fun code => ⟨jump, adds', reports', fun none strings pre body => ?_⟩).congr
      (.trans ?_ same.symm)
    · obtain ⟨rfl, next⟩ := good none strings pre
      rw [returns, next]
      exact body
    · simp [branches, returned, expressions, or_comm]
  | retVoid here notMain found void =>
    rw [is here] at same returns ⊢
    refine (leave_ends opened leaves).mono ?_
    rintro _ b1 ⟨terminated, code, adds, reports, good⟩
    refine ⟨terminated.trans returns.symm, code, adds, reports.congr (.trans ?_ same.symm),
      fun _ strings pre => ?_⟩
    · simp [branches, returned, expressions]
    · obtain ⟨rfl, next⟩ := good not_false strings pre
      rw [returns, next]
      exact fun ids => .retVoid here
  | ifThen here | ifElse here | whileLoop here =>
    rw [is here] at same returns ⊢
    exact Answers.statement opened running returns (iff_of_true trivial (same.2 (.inl rfl)))
      (fail_answers _ _ ())
  | function here =>
    rw [is here] at same returns ⊢
    refine Answers.statement opened running returns (.trans ?_ same.symm)
      (answers_pure fun strings ids rest hi' ended tail => .function here tail)
    simp [branches, returned, expressions]

/-- Behind a `return` nothing is built. -/
lemma statements_skip (ids : List StmtId) (terminated : b.terminated = true) :
    Ends (ids.forM (statement env)) b (fun _ b' => b' = b) F := by
  induction ids with
  | nil => exact (ends_forM_nil _ _).2 rfl
  | cons id ids ih =>
    simp only [ends_forM_cons, statement, ends_bind, ends_get, terminated, if_true, ends_pure]
    exact ih

/-- A body is built up to its first `return`. -/
lemma statements_ends {ids : List StmtId} {vars : List VarId} (ready : Resolution.Ready env.scope)
    (typed : StmtsTyped env.ast env.scope f vars ids vars') (trees : StmtTrees env.ast slo elo ids shi ehi)
    (opened : Open b declared) (running : b.terminated = false) (leaves : b.exit = some exit) :
    Ends (ids.forM (statement env)) b (fun _ b' => Built b b' (env.ast.BodyLacks ids) fun strings code hi =>
      (env.site declared strings).BodyCode exit b.nextSlot ids code hi b'.terminated) fun _ _ => False := by
  induction ids generalizing b vars slo elo with
  | nil =>
    rw [ends_forM_nil]
    refine (Built.refl fun strings => ?_).congr (by simp [Ast.BodyLacks, Ast.generated])
    rw [running]
    exact .nil
  | cons id ids ih =>
    obtain _ | ⟨head, tail⟩ := typed
    obtain _ | ⟨headTree, tailTrees⟩ := trees
    rw [ends_forM_cons]
    refine (statement_ends ready head headTree opened running leaves).mono ?_
    rintro _ b1 ⟨terminated, built⟩
    cases returns : env.ast.returns id with
    | true =>
      rw [returns] at terminated built
      refine (statements_skip ids terminated).mono fun _ b2 hb => ?_
      subst hb
      obtain ⟨code, adds, reports, good⟩ := built
      rw [terminated]
      exact Built.congr ⟨code, adds, reports, fun none strings pre => good none strings pre ids⟩
        (by simp [Ast.BodyLacks, Ast.generated, returns])
    | false =>
      rw [returns] at terminated built
      obtain ⟨_, adds⟩ := built.adds
      refine (ih tail tailTrees (opened.adds adds) terminated (adds.exit.trans leaves)).mono ?_
      rintro _ b2 ⟨rest, adds', reports', good'⟩
      refine (built.trans fun code => ⟨rest, adds', reports', fun none strings pre leads => ?_⟩).congr
        (by simp [Ast.BodyLacks, Ast.generated, returns])
      exact leads ids rest _ _ (good' none strings pre)

/-! ### Functions -/

lemma note_answers (note : Note) : Answers declared
    (modify fun s => { s with notes := s.notes.push note }) b False fun _ _ code hi =>
    code = [] ∧ hi = b.nextSlot :=
  fun _ => ⟨rfl, [], { Adds.refl b with }, .none rfl rfl, fun _ _ _ => ⟨rfl, rfl⟩⟩

lemma defaultValue_answers (env : Env) (ty : Ty) :
    Answers declared (defaultValue ty) b False fun strings operand code hi =>
    code = [] ∧ hi = b.nextSlot ∧ (env.site declared strings).Default ty operand := by
  unfold defaultValue
  split_ifs with string
  · refine (internString_answers "").imp ?_
    rintro strings _ _ _ ⟨rfl, next, index, rfl, placed⟩
    exact ⟨rfl, next, string ▸ .string placed⟩
  · exact answers_pure fun _ => ⟨rfl, rfl, .word string⟩

lemma endFunction_answers (env : Env) (function : EmLang.Function) : Answers declared
    (endFunction function exit) b False fun strings _ ending hi => hi = b.nextSlot ∧
    ¬ Calling ending ∧ (env.site declared strings).EndCode function exit b.terminated ending := by
  refine answers_get ?_
  cases terminated : b.terminated with
  | true => exact answers_pure fun _ => ⟨rfl, not_calling_nil, .ended⟩
  | false =>
    have jump : (unary .jmp (.block exit)).opcode ≠ .call := by simp [opcode]
    by_cases main : function.name = "main"
    · simp only [main, if_true]
      refine (emit_answers (by simp [opcode])).quiet_bind fun _ b1 _ => (emit_answers jump).imp ?_
      rintro _ _ _ _ ⟨rfl, rfl⟩ ⟨rfl, next⟩
      exact ⟨next, by simp [Calling, opcode], .main main⟩
    · simp only [main, if_false]
      cases value : function.returnType.hasValue with
      | true =>
        refine (note_answers _).quiet_bind fun _ b1 _ =>
          (defaultValue_answers env _).quiet_bind fun operand b2 _ =>
          (emit_answers (by simp [opcode])).quiet_bind fun _ b3 _ => (emit_answers jump).imp ?_
        rintro _ _ _ _ ⟨rfl, rfl⟩ ⟨rfl, next3⟩ ⟨rfl, next2, placed⟩ ⟨rfl, next1⟩
        exact ⟨next3.trans (next2.trans next1), by simp [Calling, opcode], .default main value placed⟩
      | false =>
        refine (emit_answers jump).imp ?_
        rintro _ _ _ _ ⟨rfl, rfl⟩
        exact ⟨rfl, by simp [Calling, opcode], .void main value⟩

/-- The program has all that the other has, at the same places, and no string is put there twice. -/
structure Extends (lir lir' : Lir) : Prop where
  functions : lir.functions.toList <+: lir'.functions.toList
  blocks : lir.blocks.toList <+: lir'.blocks.toList
  strings : lir.strings.toList <+: lir'.strings.toList
  distinct : lir.strings.toList.Nodup → lir'.strings.toList.Nodup

lemma Extends.refl (lir : Lir) : Extends lir lir := ⟨prefix_rfl, prefix_rfl, prefix_rfl, id⟩

lemma Extends.trans {lir lir' lir'' : Lir} (h : Extends lir lir') (h' : Extends lir' lir'') :
    Extends lir lir'' :=
  ⟨h.functions.trans h'.functions, h.blocks.trans h'.blocks, h.strings.trans h'.strings,
  h'.distinct ∘ h.distinct⟩

lemma eq_push_of_map {xs ys : Array α} {x : α} {g : Nat → α → α}
    (h : ∀ i, ys[i]? = ((xs.push x)[i]?).map (g i)) (same : ∀ i a, i ≠ xs.size → g i a = a) :
    ys = xs.push (g xs.size x) := by
  refine Array.ext_getElem? fun i => ?_
  rw [h, Array.getElem?_push, Array.getElem?_push]
  split_ifs with last
  · rw [last, map_some]
  · have id : g i = id := funext fun a => same i a last
    rw [id, Option.map_id_fun, id_eq]

lemma modify_push_size (xs : Array α) (x : α) (f : α → α) : (xs.push x).modify xs.size f = xs.push (f x) := by
  refine Array.ext_getElem? fun i => ?_
  rw [Array.getElem?_modify, Array.getElem?_push, Array.getElem?_push]
  by_cases h : i = xs.size
  · simp [h]
  · simp [h, Ne.symm h]

/-- A function that is open has its entry block alone. -/
def openedFunction (function : EmLang.Function) (entry : BlockId) : Function :=
  { name := function.name
    returnType := function.returnType
    blocks := [entry]
    parameterCount := function.parameters.length
    declaredCount := function.locals.length
    slotCount := function.locals.length
    isLeaf := true }

/-- The state in which the body of a function is built. -/
def State.opened (b : State) (function : EmLang.Function) : State :=
  { b with
    lir := { b.lir with
      functions := b.lir.functions.push (openedFunction function b.lir.blocks.size)
      blocks := (b.lir.blocks.push (Block.new b.lir.functions.size)).push
        { Block.new b.lir.functions.size with instructions := [.nullary .ret] } }
    function := some b.lir.functions.size
    block := some b.lir.blocks.size
    exit := some (b.lir.blocks.size + 1)
    nextSlot := function.locals.length
    terminated := false }

lemma openFunction_ends (function : EmLang.Function) : Ends (openFunction function) b
      (fun r b' => r = (b.lir.functions.size, b.lir.blocks.size + 1) ∧ b' = b.opened function) F :=
  ⟨rfl, rfl⟩

lemma opened_open (b : State) (function : EmLang.Function) : Open (b.opened function) function.locals.length :=
  ⟨⟨_, openedFunction function b.lir.blocks.size, rfl, by simp [State.opened], rfl⟩, ⟨_, rfl⟩, le_rfl⟩

lemma Adds.functions_opened (h : Adds (b.opened function) b' code) : b'.lir.functions = b.lir.functions.push
      { openedFunction function b.lir.blocks.size with isLeaf := !decide (Calling code) } := by
  rw [eq_push_of_map h.functions fun i f last => if_neg fun h => last (some.inj h.1).symm]
  have here : (b.opened function).function = some b.lir.functions.size := rfl
  by_cases calling : Calling code <;> simp [calling, here, openedFunction]

lemma Adds.blocks_opened (h : Adds (b.opened function) b' code) :
    b'.lir.blocks = (b.lir.blocks.push { Block.new b.lir.functions.size with instructions := code }).push
      { Block.new b.lir.functions.size with instructions := [.nullary .ret] } := by
  refine Array.ext_getElem? fun i => ?_
  rw [h.blocks]
  simp only [State.opened, Array.getElem?_push, Array.size_push, some.injEq]
  by_cases last : i = b.lir.blocks.size + 1
  · have other : b.lir.blocks.size ≠ i := by omega
    simp [last]
  · by_cases here : b.lir.blocks.size = i
    · simp [here.symm, Block.new]
    · simp [last, here, Ne.symm here]

/-- What building a function does. -/
structure FunctionBuilt (env : Env) (b : State) (function : EmLang.Function) (b' : State) : Prop where
  kept : Extends b.lir b'.lir
  count : b'.lir.functions.size = b.lir.functions.size + 1
  reports : Reports b b' (env.ast.BodyLacks function.body)
  builds : ¬ env.ast.BodyLacks function.body → ∀ lir, Extends b'.lir lir →
    Nonempty (Builds env.ast env.scope lir b.lir.functions.size function)

lemma buildFunction_ends (ready : Resolution.Ready env.scope) {vars : List VarId}
    (typed : StmtsTyped env.ast env.scope f vars function.body vars')
    (trees : StmtTrees env.ast slo elo function.body shi ehi) :
    Ends (buildFunction env function) b (fun _ b' => FunctionBuilt env b function b') fun _ _ => False := by
  simp only [buildFunction, ends_bind, ends_modify]
  refine (openFunction_ends function).mono fun _ _ ⟨hr, hb⟩ => ?_
  subst hr hb
  have isOpen := opened_open b function
  refine (statements_ends ready typed trees isOpen rfl rfl).mono fun _ b1 ⟨code, adds, reports, built⟩ => ?_
  refine (endFunction_answers env function (isOpen.adds adds)).mono
    fun _ b2 ⟨_, ending, adds', reports', ends⟩ => ?_
  obtain ⟨next, quiet, -⟩ := ends not_false _ prefix_rfl
  have all := adds.trans adds'
  have functions := all.functions_opened
  have blocks := all.blocks_opened
  have strings : b.lir.strings.toList <+: b2.lir.strings.toList := all.strings
  have leaf : Calling (code ++ ending) ↔ Calling code := by simp [Calling.append, quiet]
  have final : b2.lir.functions.modify b.lir.functions.size (fun f =>
      { f with blocks := f.blocks ++ [b.lir.blocks.size + 1], slotCount := b2.nextSlot }) =
      b.lir.functions.push
        { openedFunction function b.lir.blocks.size with
          blocks := [b.lir.blocks.size, b.lir.blocks.size + 1]
          slotCount := b2.nextSlot
          isLeaf := !decide (Calling code) } := by
    rw [functions, modify_push_size]
    simp [openedFunction, leaf]
  have reported := (reports.trans reports').congr (or_iff_left not_false)
  refine ⟨⟨?_, ?_, strings, all.distinct⟩, ?_, ⟨reported.more, reported.quiet⟩, fun none lir ext => ?_⟩
  · simp [modifyFunction, final]
  · simp [modifyFunction, blocks]
  · simp [modifyFunction, final]
  · have pre : b2.lir.strings.toList <+: lir.strings.toList := ext.strings
    have entry : b2.lir.blocks[b.lir.blocks.size]? =
        some { Block.new b.lir.functions.size with instructions := code ++ ending } := by
      rw [blocks, Array.getElem?_push, if_neg (by simp), Array.getElem?_push, if_pos rfl]
    have exit : b2.lir.blocks[b.lir.blocks.size + 1]? =
        some { Block.new b.lir.functions.size with instructions := [.nullary .ret] } := by
      rw [blocks, Array.getElem?_push, if_pos (by simp)]
    refine ⟨⟨b.lir.blocks.size, b.lir.blocks.size + 1, code, ending, b2.nextSlot, b1.terminated, ?_,
      ?_, ?_, ?_, ?_, ?_, ?_⟩⟩
    · exact getElem?_of_begins ext.functions (by simp [modifyFunction, final, openedFunction])
    · rw [getElem?_of_begins ext.blocks entry]
      rfl
    · rw [getElem?_of_begins ext.blocks exit]
      rfl
    · rw [next]
      exact built none lir.strings (adds'.strings.trans pre)
    · exact (ends not_false lir.strings pre).2.2
    · rw [getElem?_of_begins ext.blocks entry]
      rfl
    · rw [getElem?_of_begins ext.blocks exit]
      rfl

lemma functions_ends (ready : Resolution.Ready env.scope)
    (functions : List EmLang.Function) (typed : ∀ function ∈ functions, ∃ f vars vars',
      StmtsTyped env.ast env.scope f vars function.body vars') (trees : ∀ function ∈ functions,
      ∃ slo elo shi ehi, StmtTrees env.ast slo elo function.body shi ehi) :
    Ends (functions.forM (buildFunction env)) b (fun _ b' => Extends b.lir b'.lir ∧
      b'.lir.functions.size = b.lir.functions.size + functions.length ∧
      Reports b b' (∃ function ∈ functions, env.ast.BodyLacks function.body) ∧
      ((¬ ∃ function ∈ functions, env.ast.BodyLacks function.body) →
      ∀ lir, Extends b'.lir lir → ∀ i function, functions[i]? = some function →
      Nonempty (Builds env.ast env.scope lir (b.lir.functions.size + i) function))) fun _ _ =>
    False := by
  induction functions generalizing b with
  | nil => exact ⟨.refl b.lir, rfl, (Reports.none rfl rfl).congr (by simp),
      fun _ _ _ i function h => by simp at h⟩
  | cons function functions ih =>
    obtain ⟨⟨f, vars, vars', head⟩, tail⟩ := forall_mem_cons.1 typed
    obtain ⟨⟨slo, elo, shi, ehi, headTrees⟩, tailTrees⟩ := forall_mem_cons.1 trees
    rw [ends_forM_cons]
    refine (buildFunction_ends ready head headTrees).mono fun _ b1 ⟨kept, more, reports, builds⟩ => ?_
    refine (ih tail tailTrees).mono fun _ b2 ⟨kept', more', reports', builds'⟩ => ?_
    refine ⟨kept.trans kept', by simp only [length_cons]; omega, (reports.trans
      reports').congr (by simp), fun none lir ext i other hi => ?_⟩
    rw [exists_mem_cons_iff, not_or] at none
    cases i with
    | zero =>
      obtain rfl : function = other := by simpa using hi
      exact builds none.1 lir (kept'.trans ext)
    | succ i =>
      have built := builds' none.2 lir ext i other (by simpa using hi)
      rwa [more, Nat.add_right_comm, Nat.add_assoc] at built

end Build

end EmLang.Lir

namespace EmLang.Program

open Lir

variable {p : Program}

/-- A checked program is built without a fault: to the code of its functions, one behind the other,
or something is reported. -/
lemma Checked.built (checked : p.Checked) :
    ∃ b : Build.State, Build.Reports (.start p.report) b (p.Unsupported ∨ p.UsesVoid) ∧
    p.build = Build.Result.of (.ok (), b) ∧ (¬ (p.Unsupported ∨ p.UsesVoid) →
      b.lir.functions.size = p.scope.functions.size ∧ b.lir.strings.toList.Nodup ∧ ∀ f function,
      p.scope.function? f = some function → Nonempty (Builds p.ast p.scope b.lir f function)) := by
  have found function (mem : function ∈ p.scope.functions.toList) : ∃ f, p.scope.function? f =
      some function := by
    obtain ⟨f, hf⟩ := List.mem_iff_getElem?.1 mem
    exact ⟨f, by simpa [Scope.function?] using hf⟩
  have ends : Ends (p.scope.functions.toList.forM (Build.buildFunction ⟨p.ast, p.scope⟩))
      (.start p.report) _ _ :=
      Build.functions_ends checked.ready p.scope.functions.toList (fun function mem => by
        obtain ⟨f, hf⟩ := found function mem
        exact ⟨f, _, checked.bodies f function hf⟩)
      fun function mem => by
        obtain ⟨f, hf⟩ := found function mem
        exact checked.trees f function hf
  rw [← lacks_iff] at ends
  unfold Ends at ends
  unfold Program.build
  revert ends
  generalize ((p.scope.functions.toList.forM (Build.buildFunction ⟨p.ast, p.scope⟩)).run.run
    (.start p.report)) = result
  obtain ⟨_ | _, b⟩ := result
  · exact False.elim
  · rintro ⟨ext, count, reports, builds⟩
    refine ⟨b, reports, rfl, fun none => ⟨?_, ext.distinct List.nodup_nil, fun f function found => ?_⟩⟩
    · simpa [Build.State.start, Lir.empty] using count
    · simpa [Build.State.start, Lir.empty] using builds none b.lir (.refl b.lir) f function
        (by simpa [Scope.function?] using found)

/-- **A program is built to the code of its functions**, one behind the other. -/
theorem Checked.builds_of_build {lir : Lir} (checked : p.Checked) (h : p.build.lir = .ok lir) :
    lir.functions.size = p.scope.functions.size ∧ lir.strings.toList.Nodup ∧
      ∀ f function, p.scope.function? f = some function → Nonempty (Builds p.ast p.scope lir f function) := by
  obtain ⟨b, reports, built, builds⟩ := checked.built
  rw [built, Build.Result.of] at h
  split_ifs at h with failures
  cases h
  refine builds fun flaw => failures ?_
  exact reports.more flaw

/-- **Which accepted programs have blocks**: those in which nothing that is built is a branch, a
loop, a comparison or a `+` on strings, or takes the value of a call of type `void`. About those
nothing is reported. -/
theorem build_failed_iff {text : List Char} {p : Program} (accepted : compile text = .ok p) :
    ((∃ count, p.build.lir = .error (.failed count)) ↔ p.Unsupported ∨ p.UsesVoid) ∧
      (¬ (p.Unsupported ∨ p.UsesVoid) → (∃ lir, p.build.lir = .ok lir) ∧ p.build.report = p.report) := by
  obtain ⟨b, reports, built, -⟩ := (checked_of_compile accepted).built
  rw [built]
  have good : ¬ (p.Unsupported ∨ p.UsesVoid) → (Build.Result.of (.ok (), b)).lir = .ok b.lir := by
    intro good
    have none : ¬ 0 < b.failures := (reports.quiet good).1 ▸ lt_irrefl 0
    exact if_neg none
  refine ⟨⟨fun ⟨count, failed⟩ => ?_, fun bad => ⟨b.failures, if_pos (reports.more bad)⟩⟩,
    fun h => ⟨⟨b.lir, good h⟩, (reports.quiet h).2⟩⟩
  by_contra h
  exact nomatch failed.symm.trans (good h)

lemma exists_built {text : List Char} {P : Lir → Prop} [DecidablePred P]
    (h : ((compile text).map fun p => p.build.lir.toOption.any fun lir => P lir).toOption = some true) :
    ∃ p lir, compile text = .ok p ∧ p.build.lir = .ok lir ∧ P lir := by
  obtain ⟨p, accepted, checks⟩ := exists_of_check h
  obtain ⟨lir, built, good⟩ := exists_of_any checks
  exact ⟨p, lir, accepted, built, of_decide_eq_true good⟩

/-- A comparison, a loop behind a `return`, and a call without a value that is passed on. -/
def mixture : List Char :=
  ("fx none(a: int) { return; while true { } }\nfx take(v: void) { }\n" ++
    "take((none(1)));\nlet b: bool = 1 < 2;\nprint(b);").toList

theorem build_failed_mixture : ∃ p, compile mixture = .ok p ∧ (p.Unsupported ∨ p.UsesVoid) ∧
    ∃ count, p.build.lir = .error (.failed count) := by
  have fails : ((compile mixture).map fun p => !p.build.lir.toBool).toOption = some true := by
    rw [show mixture = _ from Token.toList_ofList_append ..]
    decide +kernel
  obtain ⟨p, accepted, fails⟩ := exists_of_check fails
  obtain ⟨failed, built⟩ := build_failed_iff accepted
  have lacks : p.Unsupported ∨ p.UsesVoid := by
    by_contra good
    obtain ⟨lir, ok⟩ := (built good).1
    rw [ok] at fails
    cases fails
  exact ⟨p, accepted, lacks, failed.2 lacks⟩

/-- A function without a value that returns what another one returns. -/
def passedOn : List Char := "fx g() { } fx f() { return g(); } f();".toList

/-- A call of type `void` alone keeps a program from having blocks. -/
theorem build_failed_passedOn : ∃ p, compile passedOn = .ok p ∧ ¬ p.Unsupported ∧
    p.build.lir = .error (.failed 1) := by
  have fails : ((compile passedOn).map fun p => p.ast.statements.all
      (!·.kind.branches) && p.ast.expressions.all (·.kind.children.length < 2) && p.build.lir =
      .error (.failed 1)).toOption = some true := by
    rw [show passedOn = _ from String.toList_ofList]
    decide +kernel
  obtain ⟨p, accepted, fails⟩ := exists_of_check fails
  simp only [Bool.and_eq_true, Array.all_eq_true_iff_forall_mem] at fails
  obtain ⟨⟨straight, plain⟩, failed⟩ := fails
  refine ⟨p, accepted, ?_, ?_⟩
  · rintro ⟨f, function, -, id, -, kind, here, branches | ⟨e, -, inner, holds, unsupported⟩⟩
    · obtain ⟨node, found, rfl⟩ := Option.map_eq_some_iff.1 here
      have straight := straight node (Array.mem_of_getElem? found)
      rw [branches] at straight
      cases straight
    · obtain ⟨node, mem, rfl⟩ := holds.exists_mem
      have plain := plain node mem
      revert unsupported plain
      cases node.kind with
      | binary => exact fun _ two => by cases two
      | _ => exact fun h _ => h
  · simpa using failed

end EmLang.Program
