import EmLang.Proofs.Accepting

/-!
What an accepted program leaves unresolved. Each node stands in the body of a function or below a
declaration, and in the body of a function all types are known and all names refer to something.
What is left over are declarations in bodies of `if` and `while` outside all functions: the reader
only counts bodies of functions, so that it takes them, and they are never looked at.
-/

namespace EmLang

open Ast List Option Resolution StmtKind Text

variable {e : ExprId} {function : Function} {id : StmtId} {kind : StmtKind} {ty : Ty} {f : FunId}
  {ids : List StmtId}

/-! ### The nodes of a body -/

namespace Ast

/-- The statement is one of `ids`, or stands in a body of one that declares no function, and so
on. -/
inductive Within (ast : Ast) (ids : List StmtId) : StmtId → Prop where
  | here {id : StmtId} (mem : id ∈ ids) : Within ast ids id
  | inner {parent id : StmtId} {kind : StmtKind} (outer : Within ast ids parent)
      (shape : ast.stmtShape? parent = some kind) (other : declares ast parent = false)
      (mem : id ∈ kind.inner) : Within ast ids id

/-- The expression is a part of a statement within `ids`. -/
inductive ExprWithin (ast : Ast) (ids : List StmtId) : ExprId → Prop where
  | own {id : StmtId} {kind : StmtKind} {e : ExprId} (outer : ast.Within ids id)
      (shape : ast.stmtShape? id = some kind) (mem : e ∈ kind.expressions) : ExprWithin ast ids e
  | part {parent e : ExprId} {kind : ExprKind} (outer : ExprWithin ast ids parent)
      (shape : ast.exprShape? parent = some kind) (mem : e ∈ kind.children) : ExprWithin ast ids e

variable {ast ast' : Ast}

/-- Among statements that declare nothing no statement is a declaration. -/
lemma Within.plain (h : ast.Within ids id) (plain : ∀ i ∈ ids, ast.Plain i) : ast.Plain id := by
  induction h with
  | here mem => exact plain _ mem
  | inner _ shape _ mem ih =>
    obtain ⟨shape', -, below⟩ := ih
    obtain rfl := mem_unique shape shape'
    exact below _ mem

lemma Plain.declares (h : ast.Plain id) : declares ast id = false := by
  obtain ⟨-, other, -⟩ := h
  exact other

/-- What names refer to has no part in where nodes stand. -/
lemma Whole.alike (h : ast.Whole) (alike : ast.Alike ast') : ast'.Whole := by
  obtain ⟨exprShape, stmtShape, topLevel⟩ := alike
  have declares id : EmLang.declares ast' id = EmLang.declares ast id :=
    by simp only [EmLang.declares, stmtShape]
  refine ⟨fun e kind here => ?_, fun id kind here => ?_, fun id kind here declared i hi => ?_,
    fun id kind here => h.named id kind ((stmtShape id).symm.trans here)⟩
  · simp only [ExprPlaced, exprShape, stmtShape]
    exact h.exprs e kind ((exprShape e).symm.trans here)
  · simp only [StmtPlaced, stmtShape, topLevel]
    exact h.stmts id kind ((stmtShape id).symm.trans here)
  · have plain := h.flat id kind ((stmtShape id).symm.trans here) ((declares id).symm.trans declared) i hi
    exact plain.mono fun j k shape => (stmtShape j).trans shape

end Ast

/-! ### What names refer to -/

/-- The name refers to a variable of the function `f`. -/
def Scope.Owns (scope : Scope) (f : FunId) (bound : Option VarId) : Prop :=
  ∃ v x, bound = some v ∧ scope.var? v = some x ∧ x.function = f

/-- The call reaches a function or a built-in that has as many parameters as the call has
arguments. -/
def CallTarget.Accepts (scope : Scope) (count : Nat) : CallTarget → Prop
  | .function g => ∃ function, scope.function? g = some function ∧ function.parameters.length = count
  | .builtin b => b.parameterCount = count
  | .unresolved => False

/-- What the names of the expression refer to fits a place in the body of the function `f`. -/
def ExprKind.Refers (scope : Scope) (f : FunId) : ExprKind → Prop
  | .var _ bound | .assign _ _ _ bound => scope.Owns f bound
  | .call _ _ arguments _ target => target.Accepts scope arguments.length
  | _ => True

def StmtKind.Refers (scope : Scope) (f : FunId) : StmtKind → Prop
  | .letVar _ _ _ _ bound => scope.Owns f bound
  | _ => True

/-- The variables belong to the function `f`. -/
def Scope.OwnsAll (scope : Scope) (f : FunId) (vars : List VarId) : Prop := ∀ v ∈ vars, scope.Owns f (some v)

section Typed

variable {ast : Ast} {scope : Scope} {vars vars' : List VarId}

lemma StmtTyped.owned (typed : StmtTyped ast scope f vars id vars') (owned : scope.OwnsAll f vars) :
    scope.OwnsAll f vars' := by
  cases typed with
  | letVar _ _ _ declared owner => exact forall_mem_cons.2 ⟨⟨_, _, rfl, declared, owner⟩, owned⟩
  | _ => exact owned

/-- Each of the statements of a body is typed, with variables of the function before it. -/
lemma StmtsTyped.mem (typed : StmtsTyped ast scope f vars ids vars')
    (owned : scope.OwnsAll f vars) (mem : id ∈ ids) : ∃ before behind, scope.OwnsAll f before ∧
    StmtTyped ast scope f before id behind := by
  induction ids generalizing vars with
  | nil => cases mem
  | cons i ids ih =>
    obtain _ | ⟨head, tail⟩ := typed
    obtain rfl | mem := mem_cons.1 mem
    · exact ⟨vars, _, owned, head⟩
    · exact ih tail (head.owned owned) mem

lemma StmtTyped.inner {parent : StmtId} (typed : StmtTyped ast scope f vars parent vars')
    (shape : ast.stmtShape? parent = some kind) (other : declares ast parent = false) (mem : id ∈ kind.inner) :
    ∃ ids inner, id ∈ ids ∧ StmtsTyped ast scope f vars ids inner := by
  obtain ⟨node, here, rfl⟩ := map_eq_some_iff.1 shape
  have parts := typed.parts (stmtKind?_of_stmt here)
  rw [declares_of_shape shape, isDeclaration_erase] at other
  rw [inner_erase] at mem
  cases hkind : node.kind with
  | expr | letVar | ret =>
    rw [hkind] at mem
    cases mem
  | function =>
    rw [hkind] at other
    cases other
  | ifElse keyword condition thenBody elseBody =>
    rw [hkind] at mem parts
    obtain ⟨body, hbody, mem⟩ := mem_flatMap.1 mem
    have one : body = thenBody ∨ some body = elseBody := by
      simpa [StmtKind.bodies, eq_comm] using hbody
    obtain ⟨inner, typed⟩ := parts.2 body one
    exact ⟨_, inner, mem, typed⟩
  | whileLoop keyword condition body =>
    rw [hkind] at mem parts
    rw [inner_whileLoop] at mem
    obtain ⟨-, inner, typed⟩ := parts
    exact ⟨_, inner, mem, typed⟩

lemma Ast.Within.typed (within : ast.Within ids id) (typed : StmtsTyped ast scope f vars ids vars')
    (owned : scope.OwnsAll f vars) : ∃ before behind, scope.OwnsAll f before ∧
    StmtTyped ast scope f before id behind := by
  induction within with
  | here mem => exact typed.mem owned mem
  | inner _ shape other mem ih =>
    obtain ⟨before, behind, owned', outer⟩ := ih
    obtain ⟨ids', inner, mem', typed'⟩ := outer.inner shape other mem
    exact typed'.mem owned' mem'

lemma StmtKind.Typed.expressions (h : kind.Typed ast scope f vars vars')
    (own : e ∈ kind.expressions) : ∃ ty, HasType ast scope vars e ty := by
  cases kind with
  | ifElse | whileLoop =>
    obtain rfl := mem_singleton.1 own
    exact ⟨_, h.1⟩
  | _ => exact h.spanned own

lemma ExprKind.Typed.children {kind : ExprKind} (h : kind.Typed ast scope vars ty)
    (mem : e ∈ kind.children) : ∃ ty, HasType ast scope vars e ty := by
  cases kind with
  | number | string | bool | var | error => cases mem
  | assign | negate =>
    obtain rfl := mem_singleton.1 mem
    exact ⟨_, h.1⟩
  | paren =>
    obtain rfl := mem_singleton.1 mem
    exact ⟨_, h⟩
  | binary =>
    obtain ⟨a, b, left, right, -⟩ := h
    obtain rfl | mem := mem_cons.1 mem
    · exact ⟨a, left⟩
    · obtain rfl := mem_singleton.1 mem
      exact ⟨b, right⟩
  | call =>
    obtain ⟨types, typed⟩ := h.arguments
    exact typed.exists_of_mem mem

lemma Ast.ExprWithin.typed (within : ast.ExprWithin ids e)
    (typed : StmtsTyped ast scope f vars ids vars') (owned : scope.OwnsAll f vars) :
    ∃ before ty, scope.OwnsAll f before ∧ HasType ast scope before e ty := by
  induction within with
  | own outer shape mem =>
    obtain ⟨before, behind, owned', outer⟩ := outer.typed typed owned
    obtain ⟨node, here, rfl⟩ := map_eq_some_iff.1 shape
    rw [expressions_erase] at mem
    obtain ⟨ty, typed'⟩ := (outer.parts (stmtKind?_of_stmt here)).expressions mem
    exact ⟨before, ty, owned', typed'⟩
  | part _ shape mem ih =>
    obtain ⟨before, ty, owned', outer⟩ := ih
    obtain ⟨node, here, rfl⟩ := map_eq_some_iff.1 shape
    rw [ExprKind.children_erase] at mem
    obtain ⟨ty', typed'⟩ := (outer.parts (node?_of_expr here)).2.children mem
    exact ⟨before, ty', owned', typed'⟩

lemma StmtKind.Typed.refers (h : kind.Typed ast scope f vars vars') : kind.Refers scope f := by
  cases kind with
  | letVar =>
    obtain ⟨v, x, rfl, -, -, -, declared, owner, -⟩ := h
    exact ⟨v, x, rfl, declared, owner⟩
  | _ => trivial

lemma Builtin.Takes.length {b : Builtin} {types : List Ty} (h : b.Takes types) :
    types.length = b.parameterCount := by
  cases h <;> rfl

lemma ExprKind.Typed.refers {kind : ExprKind} (h : kind.Typed ast scope vars ty)
    (owned : scope.OwnsAll f vars) : kind.Refers scope f := by
  cases kind with
  | var =>
    obtain ⟨v, x, rfl, mem, -⟩ := h
    exact owned v mem
  | assign =>
    obtain ⟨-, v, x, rfl, mem, -⟩ := h
    exact owned v mem
  | call callee leftParen arguments rightParen target =>
    cases target with
    | function g =>
      obtain ⟨function, xs, found, declared, typed, -⟩ := h
      refine ⟨function, found, ?_⟩
      rw [typed.length_eq, length_map, ← length_map (f := scope.var?), declared, length_map]
    | builtin b =>
      obtain ⟨types, typed, takes, -⟩ := h
      show b.parameterCount = arguments.length
      rw [typed.length_eq, takes.length]
    | unresolved => cases h
  | _ => trivial

end Typed

/-! ### Programs -/

namespace Program

variable {p : Program}

/-- Apart from the declarations `left` and what stands in them nothing is misplaced and nothing
unresolved: a declaration stands outside all bodies and carries its function, and all other nodes
stand in the body of a function, with types that are known and names that refer to something. -/
structure Resolved (p : Program) (left : StmtId → Prop) : Prop where
  declarations : ∀ id, declares p.ast id = true → left id ∨
    id ∈ p.ast.topLevel ∧ ∃ f function, p.scope.function? f = some function ∧ p.Declares id f function
  stmts : ∀ id kind, p.ast.stmtKind? id = some kind → kind.isDeclaration = false →
    (∃ d body, left d ∧ p.ast.stmtShape? d = some body ∧ p.ast.Within body.inner id) ∨
      ∃ f function, p.scope.function? f = some function ∧ p.ast.Within function.body id ∧ kind.Refers p.scope f
  exprs : ∀ e kind ty, p.ast.node? e = some (kind, ty) → (∃ d body, left d ∧ p.ast.stmtShape? d =
    some body ∧ p.ast.ExprWithin body.inner e) ∨ ∃ f function, p.scope.function? f = some function ∧
    p.ast.ExprWithin function.body e ∧ ty.IsProper ∧ kind.Refers p.scope f

/-- A declaration in the body of an `if` or `while` outside all functions. It declares nothing. -/
structure Stray (p : Program) (d : StmtId) : Prop where
  declaration : declares p.ast d = true
  misplaced : d ∉ p.ast.topLevel
  unknown : ∀ f, ¬ Carries p.ast d f
  outside : ∃ function, p.scope.function? Scope.main = some function ∧ p.ast.Within function.body d

/-- Where a statement of the program is. -/
inductive Stands (p : Program) (id : StmtId) : Prop where
  | declaration (mem : id ∈ p.ast.topLevel) (declares : declares p.ast id = true)
  | body {f : FunId} {function : Function} (found : p.scope.function? f = some function)
      (within : p.ast.Within function.body id)
  | stray {d : StmtId} {kind : StmtKind} (stray : p.Stray d) (here : p.ast.stmtShape? d = some kind)
      (within : p.ast.Within kind.inner id)

lemma Declares.inner (h : p.Declares id f function) :
    ∃ kind, p.ast.stmtShape? id = some kind ∧ declares p.ast id = true ∧ function.body = kind.inner := by
  obtain ⟨keyword, name, parameters, returnType, body, here, -, -, same, -⟩ := h
  have shape := stmtShape?_of_stmtKind here
  refine ⟨_, shape, (declares_of_shape shape).trans rfl, ?_⟩
  rw [same, inner_erase, inner_function]

section

variable (checked : p.Checked)

include checked

/-- A misplaced declaration in the body of a function is left over, for only what stands outside all
declarations holds any. -/
lemma Checked.stray {d : StmtId} (whole : p.ast.Whole) (found : p.scope.function? f = some function)
    (within : p.ast.Within function.body d) (declaration : declares p.ast d = true)
    (misplaced : d ∉ p.ast.topLevel) : p.Stray d := by
  refine ⟨declaration, misplaced, fun g carries => misplaced (checked.carried d g carries), ?_⟩
  obtain rfl | other := eq_or_ne f Scope.main
  · exact ⟨function, found, within⟩
  · obtain ⟨id, -, declared⟩ := checked.declared f function found other
    obtain ⟨kind, shape, declares, same⟩ := declared.inner
    have plain := within.plain (same ▸ whole.flat id kind shape declares)
    exact absurd (plain.declares.symm.trans declaration) (by simp)

/-- **Every statement of an accepted program is in one of three places.** -/
lemma Checked.stands (whole : p.ast.Whole) (here : p.ast.stmtShape? id = some kind) : p.Stands id := by
  -- a statement that does not stand outside all bodies has a parent behind it, and only so many are
  -- behind
  induction hn : p.ast.statements.size - id using Nat.strong_induction_on generalizing id kind with
  | _ n ih =>
    by_cases listed : id ∈ p.ast.topLevel
    · by_cases declaration : declares p.ast id = true
      · exact .declaration listed declaration
      · obtain ⟨function, found, -⟩ := checked.main
        refine .body found (.here ?_)
        rw [checked.outside function found]
        exact mem_filter.2 ⟨listed, by simpa using declaration⟩
    · obtain ⟨parent, kind', shape, mem, lt⟩ := (whole.stmts id kind here).resolve_left listed
      have bound := lt_size_of_stmtShape shape
      have outer := ih (p.ast.statements.size - parent) (hn ▸ Nat.sub_lt_sub_left (lt.trans bound) lt) shape rfl
      have declared : parent ∈ p.ast.topLevel → declares p.ast parent = true → p.Stands id := by
        intro listed declaration
        obtain ⟨f, function, found, -, declared⟩ := checked.listed parent listed declaration
        obtain ⟨kind'', shape', -, same⟩ := declared.inner
        obtain rfl := mem_unique shape shape'
        exact .body found (.here (same ▸ mem))
      cases outer with
      | declaration listed declaration => exact declared listed declaration
      | @body f function found within =>
        cases declaration : declares p.ast parent with
        | false => exact .body found (.inner within shape declaration mem)
        | true =>
          by_cases listed : parent ∈ p.ast.topLevel
          · exact declared listed declaration
          · exact .stray (checked.stray whole found within declaration listed) shape (.here mem)
      | @stray d kind'' stray top within =>
        have plain := within.plain (whole.flat d kind'' top stray.declaration)
        exact .stray stray top (.inner within shape plain.declares mem)

/-- Every expression of an accepted program is in the body of a function or in a declaration that is
left over. -/
lemma Checked.expr_stands (whole : p.ast.Whole) {kind : ExprKind} (here : p.ast.exprShape? e = some kind) :
    (∃ d body, p.Stray d ∧ p.ast.stmtShape? d = some body ∧ p.ast.ExprWithin body.inner e) ∨
      ∃ f function, p.scope.function? f = some function ∧ p.ast.ExprWithin function.body e := by
  induction hn : p.ast.expressions.size - e using Nat.strong_induction_on generalizing e kind with
  | _ n ih =>
    obtain ⟨parent, kind', shape, mem, lt⟩ | ⟨id, kind', shape, mem⟩ := whole.exprs e kind here
    · have bound := lt_size_of_exprShape shape
      obtain ⟨d, body, stray, top, within⟩ | ⟨f, function, found, within⟩ :=
        ih (p.ast.expressions.size - parent) (hn ▸ Nat.sub_lt_sub_left (lt.trans bound) lt) shape rfl
      · exact .inl ⟨d, body, stray, top, .part within shape mem⟩
      · exact .inr ⟨f, function, found, .part within shape mem⟩
    · cases checked.stands whole shape with
      | declaration _ declaration =>
        -- a declaration has no expressions of its own
        rw [declares_of_shape shape] at declaration
        cases kind' with
        | function => cases mem
        | _ => cases declaration
      | body found within => exact .inr ⟨_, _, found, .own within shape mem⟩
      | stray stray top within => exact .inl ⟨_, _, stray, top, .own within shape mem⟩

lemma Checked.ownsAll (found : p.scope.function? f = some function) :
    p.scope.OwnsAll f function.parameters.reverse := by
  intro v mem
  obtain ⟨x, hx, owner, -⟩ := checked.slotted.parameter_slot found (mem_reverse.1 mem)
  exact ⟨v, x, rfl, hx, owner⟩

lemma Checked.resolved (whole : p.ast.Whole) : p.Resolved p.Stray := by
  refine ⟨fun id declaration => ?_, fun id kind here other => ?_, fun e kind ty here => ?_⟩
  · by_cases listed : id ∈ p.ast.topLevel
    · obtain ⟨f, function, found, -, declared⟩ := checked.listed id listed declaration
      exact .inr ⟨listed, f, function, found, declared⟩
    · obtain ⟨kind, shape⟩ : ∃ kind, p.ast.stmtShape? id = some kind := by
        cases shape : p.ast.stmtShape? id with
        | some kind => exact ⟨kind, rfl⟩
        | none => simp [declares, shape] at declaration
      cases checked.stands whole shape with
      | declaration listed' => exact absurd listed' listed
      | body found within => exact .inl (checked.stray whole found within declaration listed)
      | stray stray top within =>
        have plain := within.plain (whole.flat _ _ top stray.declaration)
        exact absurd (plain.declares.symm.trans declaration) (by simp)
  · have shape := stmtShape?_of_stmtKind here
    cases checked.stands whole shape with
    | declaration _ declaration =>
      rw [declares_of_shape shape, isDeclaration_erase, other] at declaration
      cases declaration
    | body found within =>
      obtain ⟨vars, typed⟩ := checked.bodies _ _ found
      obtain ⟨before, behind, -, typed'⟩ := within.typed typed (checked.ownsAll found)
      exact .inr ⟨_, _, found, within, (typed'.parts here).refers⟩
    | stray stray top within => exact .inl ⟨_, _, stray, top, within⟩
  · refine (checked.expr_stands whole (exprShape?_of_node here)).imp_right ?_
    rintro ⟨f, function, found, within⟩
    obtain ⟨vars, typed⟩ := checked.bodies _ _ found
    obtain ⟨before, ty', owned, typed'⟩ := within.typed typed (checked.ownsAll found)
    obtain ⟨rfl, parts⟩ := typed'.parts here
    exact ⟨f, function, found, within, hasType_proper checked.ready typed', parts.refers owned⟩

end

/-- **An accepted program is resolved apart from its stray declarations**, and so it is resolved as
a whole if and only if it has none. -/
theorem resolved_of_compile {text : List Char} (h : Program.compile text = .ok p) :
    p.Resolved p.Stray ∧ (p.Resolved (fun _ => False) ↔ ∀ d, ¬ p.Stray d) := by
  obtain ⟨⟨ast, whole, alike⟩, checked⟩ := read_of_compile h
  have resolved := checked.resolved (whole.alike alike)
  refine ⟨resolved, fun all d stray => ?_, fun none => ?_⟩
  · obtain no | ⟨listed, -⟩ := all.declarations d stray.declaration
    · exact no
    · exact stray.misplaced listed
  · refine ⟨fun id declaration => ?_, fun id kind here other => ?_, fun e kind ty here => ?_⟩
    · exact .inr ((resolved.declarations id declaration).resolve_left (none id))
    · exact .inr ((resolved.stmts id kind here other).resolve_left fun ⟨d, _, stray, _⟩ => none d stray)
    · exact .inr ((resolved.exprs e kind ty here).resolve_left fun ⟨d, _, stray, _⟩ => none d stray)

/-- A variable that hides a parameter, and one that hides it in turn for the rest of a body. -/
def shadows : List Char :=
  ("fx twice(n: int) -> int { let m = n; if m == n { let m = m + n; return m; } return m; }\n" ++
    "let n = 1;\nwhile n < 5 { n = twice(n); let n = n; print(n); }").toList

theorem resolved_shadows : ∃ p, compile shadows = .ok p ∧ p.Resolved fun _ => False := by
  have placed : ((compile shadows).map fun p => (List.range p.ast.statements.size).all fun d =>
      !declares p.ast d || p.ast.topLevel.contains d).toOption = some true := by
    rw [show shadows = _ from Token.toList_ofList_append ..]
    decide +kernel
  obtain ⟨p, accepted, placed⟩ := exists_of_check placed
  refine ⟨p, accepted, (resolved_of_compile accepted).2.2 fun d stray => ?_⟩
  have lt : d < p.ast.statements.size := by
    by_contra beyond
    have none : p.ast.stmtShape? d = none := by
      rw [stmtShape?, stmt?, Array.getElem?_eq_none (Nat.le_of_not_lt beyond)]
      rfl
    have declaration := stray.declaration
    simp [declares, none] at declaration
  have here := List.all_eq_true.1 placed d (mem_range.2 lt)
  rw [stray.declaration] at here
  exact stray.misplaced (by simpa using here)

/-- A function in the body of an `if`, with a name in it that was never declared. -/
def wandering : List Char := "if true { fx f() { return g; } }".toList

theorem wandering_unresolved : ∃ p, compile wandering = .ok p ∧ ¬ p.Resolved (fun _ => False) ∧
    ∃ name, p.ast.node? 1 = some (.var name none, .unresolved) := by
  have lost : ((compile wandering).map fun p =>
      declares p.ast 1 && !p.ast.topLevel.contains 1 && (Token.tokenize wandering).any fun name =>
      p.ast.node? 1 = some (.var name.span none, .unresolved)).toOption = some true := by
    rw [show wandering = _ from String.toList_ofList]
    decide +kernel
  obtain ⟨p, accepted, lost⟩ := exists_of_check lost
  simp only [Bool.and_eq_true] at lost
  obtain ⟨⟨declaration, misplaced⟩, untyped⟩ := lost
  refine ⟨p, accepted, fun resolved => ?_, ?_⟩
  · obtain no | ⟨listed, -⟩ := resolved.declarations 1 declaration
    · exact no
    · simp [listed] at misplaced
  · obtain ⟨_, -, found⟩ := any_eq_true.1 untyped
    exact ⟨_, of_decide_eq_true found⟩

end Program

end EmLang
