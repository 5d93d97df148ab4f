import EmLang.Proofs.Resolving
import EmLang.Proofs.Slots

/-!
Resolving statements. Looking at a statement changes only nodes in its range and adds variables to
the scope. If nothing is reported, the statement is typed afterwards, and what can be seen behind it
are the variables of the open bodies.
-/

namespace EmLang.Resolution

open Ast List Option Scope Text

variable {e init condition : ExprId} {vars vars' opened : List VarId} {l l' m hi mid lo : Nat}
  {ascription : Option Ascription} {bound : Option VarId} {name keyword : Span} {f : Stmt → Stmt}
  {kind : StmtKind} {ty : Ty} {ids : List StmtId} {u : State}

/-! ### Changing one node -/

section Nodes

variable (ast : Ast) (id : StmtId)

lemma stmtKind?_modifyStmt_ne {i : StmtId} (h : i ≠ id) :
    (ast.modifyStmt id f).stmtKind? i = ast.stmtKind? i := by
  simp [stmtKind?, stmt?, modifyStmt, Array.getElem?_modify, h.symm]

lemma stmtKind?_setBinding (h : ast.stmtKind? id = some kind) (v : VarId) :
    (ast.setBinding id v).stmtKind? id = some (kind.withVariable v) := by
  obtain ⟨n, hn, rfl⟩ := map_eq_some_iff.1 h
  simp only [stmt?] at hn
  simp [stmtKind?, stmt?, setBinding, modifyStmt, Array.getElem?_modify, hn]

lemma stmtShape?_modifyStmt (h : ∀ n, (f n).kind.erase = n.kind.erase) (i : StmtId) :
    (ast.modifyStmt id f).stmtShape? i = ast.stmtShape? i := by
  simp only [stmtShape?, stmt?, modifyStmt, Array.getElem?_modify]
  split
  · cases ast.statements[i]? <;> simp [h]
  · rfl

end Nodes

/-! ### What looking at statements changes -/

/-- From `s` to `t` only the statements from `slo` up to `shi` and the expressions from `elo` up to
`ehi` change, and of them only what their names refer to and their types. Variables are added, and
nothing reported is taken back. -/
structure Walks (slo shi elo ehi : Nat) (s t : State) : Prop where
  function : t.function = s.function
  outer : t.locals.tail = s.locals.tail
  scope : s.scope.Grows t.scope
  stmtShape : ∀ i, t.ast.stmtShape? i = s.ast.stmtShape? i
  exprShape : ∀ i, t.ast.exprShape? i = s.ast.exprShape? i
  stmts : ∀ i, i < slo ∨ shi ≤ i → t.ast.stmtKind? i = s.ast.stmtKind? i
  declarations : ∀ i kind, s.ast.stmtKind? i = some kind → kind.isDeclaration = true →
    t.ast.stmtKind? i = some kind
  topLevel : t.ast.topLevel = s.ast.topLevel
  exprs : ∀ i, i < elo ∨ ehi ≤ i → t.ast.node? i = s.ast.node? i
  errors : t.report.errors = [] → s.report.errors = []

namespace Walks

variable {slo shi elo ehi ehi' elo' m' shi' slo' : Nat} {s t : State}

lemma refl (slo shi elo ehi : Nat) (s : State) : Walks slo shi elo ehi s s :=
  ⟨rfl, rfl, .refl _, fun _ => rfl, fun _ => rfl, fun _ _ => rfl, fun _ _ here _ => here, rfl,
  fun _ _ => rfl, id⟩

variable (h : Walks slo shi elo ehi s t)

include h

lemma trans (h' : Walks slo shi elo ehi t u) : Walks slo shi elo ehi s u where
  function := h'.function.trans h.function
  outer := h'.outer.trans h.outer
  scope := h.scope.trans h'.scope
  stmtShape i := (h'.stmtShape i).trans (h.stmtShape i)
  exprShape i := (h'.exprShape i).trans (h.exprShape i)
  stmts i out := (h'.stmts i out).trans (h.stmts i out)
  declarations i kind here isDeclaration :=
  h'.declarations i kind (h.declarations i kind here isDeclaration) isDeclaration
  topLevel := h'.topLevel.trans h.topLevel
  exprs i out := (h'.exprs i out).trans (h.exprs i out)
  errors clean := h.errors (h'.errors clean)

lemma widen (sle : slo' ≤ slo) (sle' : shi ≤ shi')
    (ele : elo' ≤ elo) (ele' : ehi ≤ ehi') : Walks slo' shi' elo' ehi' s t :=
  { h with
    stmts := fun i out => h.stmts i (out.imp (fun a => a.trans_le sle) sle'.trans)
    exprs := fun i out => h.exprs i (out.imp (fun a => a.trans_le ele) ele'.trans) }

lemma exprTree (tree : ExprTree s.ast lo e) : ExprTree t.ast lo e :=
  tree.congr fun i _ => (h.exprShape i).trans

lemma tree {id : StmtId} (tree : StmtTree s.ast l l' id m) : StmtTree t.ast l l' id m :=
  tree.congr (fun i _ => (h.stmtShape i).trans) fun i _ => (h.exprShape i).trans

lemma trees (trees : StmtTrees s.ast l l' ids m m') : StmtTrees t.ast l l' ids m m' :=
  trees.congr (fun i _ => (h.stmtShape i).trans) fun i _ => (h.exprShape i).trans

lemma exprTyped (tree : ExprTree s.ast lo e) (apart : e < elo ∨ ehi ≤ lo)
    (typed : HasType s.ast s.scope vars e ty) : HasType t.ast t.scope vars e ty := by
  refine typed.transfer h.scope.ext (tree.shared fun i hl he => h.exprs i ?_)
  exact apart.imp (fun a => he.trans_lt a) (fun a => a.trans hl)

lemma typed {f : FunId} {id : StmtId}
    (tree : StmtTree s.ast l l' id elo) (before : id < slo) (typed : StmtTyped s.ast s.scope f vars id vars') :
    StmtTyped t.ast t.scope f vars id vars' :=
  typed.transfer h.scope.ext (tree.shared (fun i _ hi => h.stmts i (.inl (hi.trans_lt before)))
  fun i _ hi => h.exprs i (.inl hi))

lemma typedAll {f : FunId}
    (trees : StmtTrees s.ast l l' ids slo elo)
    (typed : StmtsTyped s.ast s.scope f vars ids vars') : StmtsTyped t.ast t.scope f vars ids vars' :=
  typed.transfer h.scope.ext ⟨_, _, _, _, trees, fun i _ hi => h.stmts i (.inl hi),
  fun i _ hi => h.exprs i (.inl hi)⟩

end Walks

variable {n slo elo shi ehi : Nat} {s t : State} {id : StmtId}

lemma Looks.walks (h : Looks lo hi s t) (slo shi : Nat) : Walks slo shi lo hi s t where
  function := h.function
  outer := congrArg tail h.locals
  scope := h.scope ▸ .refl s.scope
  stmtShape i := by simp only [stmtShape?, stmt?, h.stmts]
  exprShape := h.shape
  stmts i _ := by simp only [stmtKind?, stmt?, h.stmts]
  declarations i kind here _ := by simpa only [stmtKind?, stmt?, h.stmts] using here
  topLevel := h.topLevel
  exprs := h.outside
  errors := h.errors

/-! ### Open bodies -/

/-- What holds while the body of a function is looked at. -/
structure Open (s : State) : Prop extends Sees s where
  slotted : s.scope.Slotted
  inside : ∃ function, s.scope.function? s.function = some function

/-- A body stays open from `s` to `t`, and expressions get types of values only. -/
structure Stays (s t : State) : Prop extends Open t where
  retypes : Retypes s.ast t.ast

lemma Stays.trans (h : Stays s t) (h' : Stays t u) : Stays s u := ⟨h'.toOpen, h.retypes.trans h'.retypes⟩

lemma Open.looks (h : Open s) (looks : Looks lo hi s t) (clean : t.report.errors = []) : Stays s t := by
  have retypes := looks.retypes clean h.toSees
  obtain ⟨sees, slotted, inside⟩ := h
  rw [← looks.scope] at slotted inside
  rw [← looks.function] at inside
  exact ⟨⟨looks.sees sees, slotted, inside⟩, retypes⟩

lemma Open.push (h : Open s) (declared : ∀ v ∈ opened, ∃ x, s.scope.var? v = some x) :
    Open { s with locals := opened :: s.locals } where
  ready := h.ready
  slotted := h.slotted
  inside := h.inside
  seen v hv := by
    simp only [flatten_cons, mem_append] at hv
    exact hv.elim (declared v) (h.seen v)

lemma Open.pop (h : Open s) (open' : Open t) (scope : s.scope.Grows t.scope) :
    Open { t with locals := s.locals } where
  ready := open'.ready
  slotted := open'.slotted
  inside := open'.inside
  seen v hv := (h.seen v hv).imp fun x hx => scope.vars v x hx

/-! ### Declarations -/

lemma typeNamed_looks (lo hi : Nat) (name : Span) (s : State) : Post (typeNamed name) s fun ty t =>
      Looks lo hi s t ∧ ty = (Ty.ofName? name.literal).getD .error ∧
        (t.report.errors = [] → ty.IsProper ∧ Ty.ofName? name.literal = some ty) := by
  unfold typeNamed
  split
  · rename_i ty hty
    refine ⟨.refl lo hi s, by rw [hty]; rfl, fun _ => ⟨?_, hty⟩⟩
    revert hty
    unfold Ty.ofName?
    split <;> rintro ⟨⟩ <;> exact ⟨by simp, by simp⟩
  · simp only [complain, post_bind, post_modify, post_pure]
    rename_i unknown
    exact ⟨complain_looks lo hi _ _ s,
      by rw [unknown]; rfl, fun clean => absurd clean (Parser.add_errors_ne rfl)⟩

lemma ascription_looks (lo hi : Nat) (ascription : Option Ascription) (s : State) :
    Post (ascription.mapM fun a => typeNamed a.typeName) s fun expected t =>
      Looks lo hi s t ∧ (t.report.errors = [] → ∀ ty, expected = some ty → ty.IsProper) := by
  cases ascription with
  | none => exact ⟨.refl lo hi s, nofun⟩
  | some a =>
    simp only [mapM_some, post_map]
    refine (typeNamed_looks lo hi a.typeName s).imp fun ty t ⟨looks, _, proper⟩ =>
      ⟨looks, fun clean ty' h => ?_⟩
    obtain rfl : ty = ty' := some.inj h
    exact (proper clean).1

def State.declared (s : State) (name : String) (ty : Ty) : State :=
  { s with
    scope := (s.scope.declareVariable name ty s.function false).1
    locals := match s.locals with
      | [] => [[s.scope.vars.size]]
      | vs :: outer => (s.scope.vars.size :: vs) :: outer }

lemma State.locals_declared (s : State) (name : String) (ty : Ty) :
    (s.declared name ty).locals.flatten = s.scope.vars.size :: s.locals.flatten ∧
    (s.declared name ty).locals.tail = s.locals.tail := by
  unfold State.declared
  cases s.locals <;> simp

lemma Ready.declareVariable {scope : Scope} (ready : Ready scope) (name : String) (proper : ty.IsProper)
    (f : FunId) (isParameter : Bool) : Ready (scope.declareVariable name ty f isParameter).1 := by
  refine ⟨fun v x hv => ?_, fun g function hg => ?_, fun g function hg p hp => ?_⟩
  · rw [var?_declareVariable] at hv
    split_ifs at hv
    · cases hv
      exact proper
    · exact ready.vars v x hv
  · obtain ⟨old, hold, rfl | rfl⟩ := exists_of_modifyFunction _ hg
    · exact ready.returns g old hold
    · exact ready.returns g _ hold
  · have known old (hold : scope.function? g = some old) (hp : p ∈ old.parameters) : ∃ x,
      (scope.declareVariable name ty f isParameter).1.var? p = some x := by
      obtain ⟨x, hx⟩ := ready.parameters g old hold p hp
      exact ⟨x, scope.var?_declareVariable_of hx ..⟩
    obtain ⟨old, hold, rfl | rfl⟩ := exists_of_modifyFunction _ hg
    · cases isParameter with
      | true =>
        obtain hp | hp := mem_append.1 hp
        · exact known old hold hp
        · exact ⟨_, (var?_declareVariable ..).trans (if_pos (mem_singleton.1 hp))⟩
      | false => exact known old hold hp
    · exact known _ hold hp

lemma Open.declared (h : Open s) (name : String) (proper : ty.IsProper) : Open (s.declared name ty) where
  ready := h.ready.declareVariable name proper s.function false
  slotted := h.slotted.declareVariable name ty h.inside.choose_spec (by simp)
  inside := by
    obtain ⟨more, hmore⟩ :=
      (Grows.declareVariable s.scope name ty s.function).functions _ _ h.inside.choose_spec
    exact ⟨_, hmore⟩
  seen v hv := by
    rw [(s.locals_declared name ty).1, mem_cons] at hv
    obtain rfl | hv := hv
    · exact ⟨_, (var?_declareVariable ..).trans (if_pos rfl)⟩
    · obtain ⟨x, hx⟩ := h.seen v hv
      exact ⟨x, (Grows.declareVariable s.scope name ty s.function).vars v x hx⟩

/-! ### Statements -/

/-- The statement has been looked at, between `s` and `t`. -/
structure Resolved (slo elo : Nat) (id : StmtId) (ehi : Nat) (s t : State) : Prop where
  walks : Walks slo (id + 1) elo ehi s t
  typed : t.report.errors = [] → Open s →
    Stays s t ∧ StmtTyped t.ast t.scope s.function s.locals.flatten id t.locals.flatten

/-- The statements have been looked at one after the other, between `s` and `t`. -/
structure ResolvedAll (slo elo : Nat) (ids : List StmtId) (shi ehi : Nat) (s t : State) : Prop where
  walks : Walks slo shi elo ehi s t
  typed : t.report.errors = [] → Open s →
    Stays s t ∧ StmtsTyped t.ast t.scope s.function s.locals.flatten ids t.locals.flatten

/-- Resolving statements with the bound `n` on the depth types them, if nothing is reported. -/
def ResolvesStmts (n : Nat) : Prop :=
  ∀ ids slo elo shi ehi s, StmtTrees s.ast slo elo ids shi ehi → 2 * shi + ehi ≤ n →
    Post (statements n ids) s fun _ t => ResolvedAll slo elo ids shi ehi s t

/-- Statements in a body of their own, in which the variables `opened` can be seen besides those
outside. -/
lemma inBody_resolves (h : ResolvesStmts n)
    (trees : StmtTrees s.ast slo elo ids shi ehi) (deep : 2 * shi + ehi ≤ n) (opened : List VarId) :
    Post (inBody opened (statements n ids)) s fun _ t =>
      Walks slo shi elo ehi s t ∧ t.locals = s.locals ∧
        (t.report.errors = [] → Open s → (∀ v ∈ opened, ∃ x, s.scope.var? v = some x) →
          Stays s t ∧ ∃ inner, StmtsTyped t.ast t.scope s.function (opened ++ s.locals.flatten) ids inner) := by
  simp only [inBody, post_bind, post_modify]
  have body := h ids slo elo shi ehi { s with locals := opened :: s.locals } trees deep
  refine body.imp fun _ t ⟨walks, typed⟩ => ?_
  have locals : t.locals.tail = s.locals := walks.outer
  refine ⟨{ walks with outer := congrArg tail locals }, locals, fun clean opens declared => ?_⟩
  obtain ⟨opens', typed'⟩ := typed clean (opens.push declared)
  rw [locals]
  exact ⟨⟨opens.pop opens'.toOpen walks.scope, opens'.retypes⟩, _, typed'⟩

lemma declareLet_resolves
    (le : slo ≤ id) (here : s.ast.stmtKind? id = some (.letVar keyword name ascription init bound))
    (tree : ExprTree s.ast elo init) (ehi : Nat) : Post (do
      let v ← declare name.literal ty
      modify fun s => { s with ast := s.ast.setBinding id v }) s fun _ t =>
      Walks slo (id + 1) elo ehi s t ∧ (t.report.errors = [] → Open s →
        HasType s.ast s.scope s.locals.flatten init ty → ty.IsProper → ty ≠ .void → Stays s t ∧
        StmtTyped t.ast t.scope s.function s.locals.flatten id t.locals.flatten) := by
  set t : State := { s.declared name.literal ty with ast := s.ast.setBinding id s.scope.vars.size }
  have grows : s.scope.Grows t.scope := Grows.declareVariable s.scope name.literal ty s.function
  have here' : t.ast.stmtKind? id = some (.letVar keyword name ascription init (some s.scope.vars.size)) :=
    stmtKind?_setBinding s.ast id here s.scope.vars.size
  refine ⟨⟨rfl, (s.locals_declared name.literal ty).2, grows, fun i => ?_, fun _ => rfl,
    fun i out => ?_, fun i kind old isDeclaration => ?_, rfl, fun _ _ => rfl, fun clean => clean⟩,
    fun _ opens typed proper value => ⟨?_, ?_⟩⟩
  · exact stmtShape?_modifyStmt s.ast id (fun _ => by simp) i
  · refine stmtKind?_modifyStmt_ne s.ast id ?_
    rintro rfl
    exact out.elim (fun lt => absurd le (Nat.not_le_of_lt lt)) fun le => absurd le (Nat.not_succ_le_self i)
  · refine (stmtKind?_modifyStmt_ne s.ast id ?_).trans old
    rintro rfl
    obtain rfl := mem_unique old here
    cases isDeclaration
  · have opens' := opens.declared name.literal proper
    exact ⟨⟨⟨opens'.ready, opens'.seen⟩, opens'.slotted, opens'.inside⟩, retypes_of_same fun _ => rfl⟩
  · show StmtTyped t.ast t.scope s.function s.locals.flatten id (s.declared name.literal ty).locals.flatten
    rw [(s.locals_declared name.literal ty).1]
    refine .letVar here' (typed.transfer grows.ext (tree.shared fun _ _ _ => rfl)) (fun mem => ?_)
      ((var?_declareVariable ..).trans (if_pos rfl)) rfl value rfl
    obtain ⟨x, hx⟩ := opens.seen _ mem
    exact absurd (s.scope.var?_lt hx) (Nat.lt_irrefl _)

lemma expected_resolves (tree : ExprTree s.ast lo e) (deep : e < n) (ty : Ty) : Post (do
      let actual ← expression n e
      expectType ty actual (← spanOf e)) s fun _ t =>
      Looks lo (e + 1) s t ∧ (t.report.errors = [] → Sees s → ty.IsProper →
        HasType t.ast s.scope s.locals.flatten e ty) := by
  simp only [spanOf, post_bind, post_get, post_pure]
  refine (resolvesExpr n e lo s tree deep).imp ?_
  rintro actual t ⟨looks, typed⟩
  refine (expectType_looks (e + 1) (e + 1) _ _ _ t).imp ?_
  rintro _ u ⟨_, looks', fits⟩
  refine ⟨looks.trans (looks'.widen (tree.le.trans (Nat.le_succ e)) le_rfl), fun clean sees proper => ?_⟩
  have typed' := typed (looks'.errors clean) sees
  rw [← eq_of_assignable (hasType_proper sees.ready typed') proper (fits clean)]
  exact looks'.typed (looks.tree tree) (.inl (Nat.lt_succ_self e)) typed'

lemma Looks.value (looks : Looks lo hi s t) (typed : HasType t.ast s.scope s.locals.flatten e ty) :
    HasType t.ast t.scope t.locals.flatten e ty := by
  rw [looks.scope, looks.locals]
  exact typed

/-- A statement that begins with expressions and leaves the open bodies as they are. -/
lemma Looks.resolved (looks : Looks elo mid s t) (le : mid ≤ ehi) (typed : t.report.errors = [] →
      Open s → StmtTyped t.ast s.scope s.function s.locals.flatten id s.locals.flatten) :
    Resolved slo elo id ehi s t := by
  refine ⟨(looks.walks slo (id + 1)).widen le_rfl le_rfl le_rfl le, fun clean opens =>
    ⟨opens.looks looks clean, ?_⟩⟩
  rw [looks.scope, looks.locals]
  exact typed clean opens

lemma Looks.stmtKind (looks : Looks lo hi s t) (here : s.ast.stmtKind? id = some kind) :
    t.ast.stmtKind? id = some kind := by
  rw [← here]
  simp only [stmtKind?, stmt?, looks.stmts]

section

variable (tree : StmtTree s.ast slo elo id ehi) (deep : 2 * id + ehi ≤ n)

include tree deep

lemma expr_resolves (here : s.ast.stmtKind? id = some (.expr e)) :
    Post (statement (n + 1) id) s fun _ t => Resolved slo elo id ehi s t := by
  obtain ⟨node, hnode, kind⟩ := map_eq_some_iff.1 here
  obtain ⟨mid, _ | ⟨head, tail⟩, below⟩ := tree.parts here
  have upto : e + 1 ≤ ehi := tail.le.trans below.le.2
  have deep' : e < n := (Nat.lt_of_succ_le upto).trans_le ((Nat.le_add_left ehi (2 * id)).trans deep)
  simp only [statement, hnode, kind, post_bind, post_get, post_pure]
  refine (resolvesExpr n e elo s head deep').imp fun ty t ⟨looks, typed⟩ => ?_
  exact looks.resolved upto fun clean opens => .expr (looks.stmtKind here) (typed clean opens.toSees)

lemma let_resolves (here : s.ast.stmtKind? id = some (.letVar keyword name ascription init bound)) :
    Post (statement (n + 1) id) s fun _ t => Resolved slo elo id ehi s t := by
  obtain ⟨node, hnode, kind⟩ := map_eq_some_iff.1 here
  obtain ⟨mid, _ | ⟨head, tail⟩, below⟩ := tree.parts here
  have upto : init + 1 ≤ ehi := tail.le.trans below.le.2
  have sle : slo ≤ id := tree.le.1
  -- What follows the check of the type, which is given to the variable.
  have rest : ∀ ty t, Looks elo (init + 1) s t → (t.report.errors = [] → Sees s →
    HasType t.ast s.scope s.locals.flatten init ty ∧ ty ≠ .void) → Post (do
        let v ← declare name.literal ty
        modify fun s => { s with ast := s.ast.setBinding id v }) t fun _ u => Resolved slo elo id ehi s u := by
    intro ty t looks typed
    have walks := looks.walks slo (id + 1)
    refine (declareLet_resolves sle (looks.stmtKind here) (looks.tree head) ehi).imp ?_
    rintro _ u ⟨walks', typed'⟩
    refine ⟨(walks.widen le_rfl le_rfl le_rfl upto).trans walks', fun clean opens => ?_⟩
    obtain ⟨typed, value⟩ := typed (walks'.errors clean) opens.toSees
    have stays := opens.looks looks (walks'.errors clean)
    obtain ⟨stays', typed'⟩ :=
      typed' clean stays.toOpen (looks.value typed) (hasType_proper opens.ready typed) value
    rw [looks.function, looks.locals] at typed'
    exact ⟨stays.trans stays', typed'⟩
  simp only [statement, hnode, kind, spanOf, post_bind, post_get, post_pure]
  refine (ascription_looks elo (init + 1) ascription s).imp ?_
  rintro expected t ⟨looks, proper⟩
  have deep' : init < n := (Nat.lt_of_succ_le upto).trans_le ((Nat.le_add_left ehi (2 * id)).trans deep)
  refine (resolvesExpr n init elo t (looks.tree head) deep').imp ?_
  rintro actual u ⟨looks1, typed⟩
  refine (expectValue_looks (init + 1) (init + 1) actual _ u).imp ?_
  rintro _ w ⟨looks2, value⟩
  rw [looks.scope, looks.locals] at typed
  have wide := (looks.trans looks1).trans (looks2.widen (head.le.trans (Nat.le_succ init)) le_rfl)
  have typed2 : w.report.errors = [] → Sees s →
    HasType w.ast s.scope s.locals.flatten init actual := fun clean sees =>
    looks2.typed (looks1.tree (looks.tree head)) (.inl (Nat.lt_succ_self init))
    (typed (looks2.errors clean) (looks.sees sees))
  cases expected with
  | some ty =>
    rw [post_bind]
    refine (expectType_looks (init + 1) (init + 1) _ _ _ w).imp ?_
    rintro r x ⟨hr, looks3, fits⟩
    rw [hr]
    refine rest ty x (wide.trans (looks3.widen (head.le.trans (Nat.le_succ init)) le_rfl)) fun clean sees => ?_
    have typed' := typed2 (looks3.errors clean) sees
    have same := eq_of_assignable (hasType_proper sees.ready typed')
      (proper (looks1.errors (looks2.errors (looks3.errors clean))) ty rfl) (fits clean)
    rw [← same]
    exact ⟨looks3.typed (wide.tree head) (.inl (Nat.lt_succ_self init)) typed', value (looks3.errors clean)⟩
  | none => exact rest actual w wide fun clean sees => ⟨typed2 clean sees, value clean⟩

lemma return_resolves
    {value : Option ExprId} (here : s.ast.stmtKind? id = some (.ret keyword value)) :
    Post (statement (n + 1) id) s fun _ t => Resolved slo elo id ehi s t := by
  obtain ⟨node, hnode, kind⟩ := map_eq_some_iff.1 here
  have le := tree.le.2
  simp only [statement, hnode, kind, post_bind, post_get, post_ite]
  refine ⟨fun _ => ?_, fun notMain => ?_⟩
  · have told := complain_looks elo elo .returnOutsideFunction keyword s
    exact Looks.resolved told le fun clean => absurd clean (Parser.add_errors_ne rfl)
  · set expected := ((s.scope.function? s.function).map (·.returnType)).getD .unresolved with hexpected
    have found : Open s → ∃ function, s.scope.function? s.function = some function ∧
        expected = function.returnType ∧ expected.IsProper := by
      intro opens
      obtain ⟨function, found⟩ := opens.inside
      have same : expected = function.returnType := by simp [hexpected, found]
      exact ⟨function, found, same, same ▸ opens.ready.returns _ _ found⟩
    cases value with
    | some e =>
      obtain ⟨mid, _ | ⟨head, tail⟩, below⟩ := tree.parts here
      have upto : e + 1 ≤ ehi := tail.le.trans below.le.2
      have deep' : e < n := (Nat.lt_of_succ_le upto).trans_le ((Nat.le_add_left ehi (2 * id)).trans deep)
      have resolved := expected_resolves head deep' expected
      simp only [post_bind, post_pure] at resolved ⊢
      refine resolved.imp fun _ t next => next.imp fun span u next => next.imp fun _ w ⟨looks, typed⟩ => ?_
      refine looks.resolved upto fun clean opens => ?_
      obtain ⟨function, found, same, proper⟩ := found opens
      exact .ret (looks.stmtKind here) notMain found (same ▸ typed clean opens.toSees proper)
    | none =>
      simp only [post_bind, post_pure]
      refine (expectType_looks elo elo _ _ _ s).imp fun _ t ⟨_, looks, fits⟩ => ?_
      refine looks.resolved le fun clean opens => ?_
      obtain ⟨function, found, same, proper⟩ := found opens
      have void := eq_of_assignable ⟨by simp, by simp⟩ proper (fits clean)
      exact .retVoid (looks.stmtKind here) notMain found (same.symm.trans void.symm)

end

lemma conditional_resolves (h : ResolvesStmts n) (head : ExprTree s.ast elo condition)
    (below : StmtTrees s.ast slo (condition + 1) ids shi ehi) (deep : 2 * shi + ehi ≤ n) : Post (do
      let actual ← expression n condition
      let _ ← expectType .bool actual (← spanOf condition)
      inBody [] (statements n ids)) s fun _ t =>
      Walks slo shi elo ehi s t ∧ t.locals = s.locals ∧ (t.report.errors = [] → Open s →
        Stays s t ∧ HasType t.ast t.scope s.locals.flatten condition .bool ∧
          ∃ inner, StmtsTyped t.ast t.scope s.function s.locals.flatten ids inner) := by
  have upto : condition + 1 ≤ ehi := below.le.2
  have le : elo ≤ condition + 1 := head.le.trans (Nat.le_succ condition)
  have deep' : condition < n := (Nat.lt_of_succ_le upto).trans_le ((Nat.le_add_left ehi (2 * shi)).trans deep)
  have resolved := expected_resolves head deep' .bool
  simp only [post_bind] at resolved ⊢
  refine resolved.imp fun _ t next => next.imp fun span u next => next.imp fun _ w ⟨looks, typed⟩ => ?_
  have looks' := looks.walks slo shi
  refine (inBody_resolves h (looks'.trees below) deep []).imp fun _ x ⟨walks, locals, typed'⟩ => ?_
  have wide := (looks'.widen le_rfl le_rfl le_rfl upto).trans (walks.widen le_rfl le_rfl le le_rfl)
  refine ⟨wide, locals.trans looks.locals, fun clean opens => ?_⟩
  have stays := opens.looks looks (walks.errors clean)
  obtain ⟨stays', inner, bodyTyped⟩ := typed' clean stays.toOpen (by simp)
  have conditionTyped := walks.exprTyped (looks.tree head) (.inl (Nat.lt_succ_self condition))
    (looks.value (typed (walks.errors clean) opens.toSees ⟨by simp, by simp⟩))
  rw [looks.locals] at conditionTyped
  rw [looks.function, looks.locals] at bodyTyped
  exact ⟨stays.trans stays', conditionTyped, inner, bodyTyped⟩

section

variable (h : ResolvesStmts n) (tree : StmtTree s.ast slo elo id ehi) (deep : 2 * id + ehi ≤ n)

include h tree deep

lemma if_resolves {elseBody : Option Body} {thenBody : Body}
    (here : s.ast.stmtKind? id = some (.ifElse keyword condition thenBody elseBody)) :
    Post (statement (n + 1) id) s fun _ t => Resolved slo elo id ehi s t := by
  obtain ⟨node, hnode, kind⟩ := map_eq_some_iff.1 here
  obtain ⟨mid, _ | ⟨head, tail⟩, below⟩ := tree.parts here
  have below := below.from_le le_rfl tail.le
  cases elseBody with
  | none =>
    rw [StmtKind.inner_ifThen] at below
    have resolved := conditional_resolves h head below deep
    simp only [statement, hnode, kind, post_bind, post_get, post_pure] at resolved ⊢
    refine resolved.imp fun _ _ next => next.imp fun _ _ next => next.imp fun _ _ next => next.imp ?_
    intro _ t ⟨walks, locals, typed⟩
    refine ⟨walks.widen le_rfl (Nat.le_succ id) le_rfl le_rfl, fun clean opens => ?_⟩
    obtain ⟨stays, conditionTyped, inner, thenTyped⟩ := typed clean opens
    rw [locals]
    exact ⟨stays, .ifThen ((walks.stmts id (.inr le_rfl)).trans here) conditionTyped thenTyped⟩
  | some elseBody =>
    rw [StmtKind.inner_ifElse] at below
    obtain ⟨smid, emid, first, second⟩ := below.split
    have smid_le : smid ≤ id := second.le.1
    have emid_le : emid ≤ ehi := second.le.2
    have deep' := (Nat.add_le_add (Nat.mul_le_mul_left 2 smid_le) emid_le).trans deep
    have resolved := conditional_resolves h head first deep'
    simp only [statement, hnode, kind, post_bind, post_get] at resolved ⊢
    refine resolved.imp fun _ _ next => next.imp fun _ _ next => next.imp fun _ _ next => next.imp ?_
    intro _ t ⟨walks, locals, typed⟩
    refine (inBody_resolves h (walks.trees second) deep []).imp fun _ u ⟨walks', locals', typed'⟩ => ?_
    have both := (walks.widen le_rfl smid_le le_rfl emid_le).trans
      (walks'.widen first.le.1 le_rfl ((head.le.trans (Nat.le_succ condition)).trans first.le.2) le_rfl)
    refine ⟨both.widen le_rfl (Nat.le_succ id) le_rfl le_rfl, fun clean opens => ?_⟩
    obtain ⟨stays, conditionTyped, inner, thenTyped⟩ := typed (walks'.errors clean) opens
    obtain ⟨stays', inner', elseTyped⟩ := typed' clean stays.toOpen (by simp)
    have conditionTyped := walks'.exprTyped (walks.exprTree head) (.inl first.le.2) conditionTyped
    have thenTyped := walks'.typedAll (walks.trees first) thenTyped
    rw [walks.function, locals] at elseTyped
    rw [locals', locals]
    exact ⟨stays.trans stays',
      .ifElse ((both.stmts id (.inr le_rfl)).trans here) conditionTyped thenTyped elseTyped⟩

lemma while_resolves {body : Body} (here : s.ast.stmtKind? id = some (.whileLoop keyword condition body)) :
    Post (statement (n + 1) id) s fun _ t => Resolved slo elo id ehi s t := by
  obtain ⟨node, hnode, kind⟩ := map_eq_some_iff.1 here
  obtain ⟨mid, _ | ⟨head, tail⟩, below⟩ := tree.parts here
  have below := below.from_le le_rfl tail.le
  rw [StmtKind.inner_whileLoop] at below
  rw [statement, post_bind, post_get]
  simp only [hnode, kind]
  refine (conditional_resolves h head below deep).imp fun _ t ⟨walks, locals, typed⟩ => ?_
  refine ⟨walks.widen le_rfl (Nat.le_succ id) le_rfl le_rfl, fun clean opens => ?_⟩
  obtain ⟨stays, conditionTyped, inner, bodyTyped⟩ := typed clean opens
  rw [locals]
  exact ⟨stays, .whileLoop ((walks.stmts id (.inr le_rfl)).trans here) conditionTyped bodyTyped⟩

lemma statement_resolves : Post (statement (n + 1) id) s fun _ t => Resolved slo elo id ehi s t := by
  obtain ⟨kind, here⟩ : ∃ kind, s.ast.stmtKind? id = some kind := by
    obtain ⟨here, -, -, -⟩ := tree
    obtain ⟨node, hnode, -⟩ := map_eq_some_iff.1 here
    exact ⟨node.kind, by simp [stmtKind?, hnode]⟩
  cases kind with
  | expr => exact expr_resolves tree deep here
  | letVar => exact let_resolves tree deep here
  | ret => exact return_resolves tree deep here
  | ifElse => exact if_resolves h tree deep here
  | whileLoop => exact while_resolves h tree deep here
  | function =>
    obtain ⟨node, hnode, kind⟩ := map_eq_some_iff.1 here
    simp only [statement, hnode, kind, post_bind, post_get, post_pure]
    exact Looks.resolved (.refl elo elo s) tree.le.2 fun _ _ => .function here

end

lemma ResolvedAll.cons {s t : State} {id : StmtId}
    (tree : StmtTree s.ast slo elo id mid) (tail : StmtTrees s.ast (id + 1) mid ids shi ehi)
    (first : Resolved slo elo id mid s t) (rest : ResolvedAll (id + 1) mid ids shi ehi t u) :
    ResolvedAll slo elo (id :: ids) shi ehi s u := by
  obtain ⟨walks, typed⟩ := first
  obtain ⟨walks', typed'⟩ := rest
  refine ⟨(walks.widen le_rfl tail.le.1 le_rfl tail.le.2).trans
    (walks'.widen (tree.le.1.trans (Nat.le_succ id)) le_rfl tree.le.2 le_rfl), fun clean opens => ?_⟩
  obtain ⟨stays, headTyped⟩ := typed (walks'.errors clean) opens
  obtain ⟨stays', tailTyped⟩ := typed' clean stays.toOpen
  rw [walks.function] at tailTyped
  exact ⟨stays.trans stays', .cons (walks'.typed (walks.tree tree) (Nat.lt_succ_self id) headTyped) tailTyped⟩

/-- What was reported before the statements does not matter for them. -/
lemma ResolvedAll.after (told : Looks elo elo s t) (le : elo ≤ ehi)
    (h : ResolvedAll slo elo ids shi ehi t u) : ResolvedAll slo elo ids shi ehi s u := by
  obtain ⟨walks, typed⟩ := h
  refine ⟨((told.walks slo shi).widen le_rfl le_rfl le_rfl le).trans walks, fun clean opens => ?_⟩
  have stays := opens.looks told (walks.errors clean)
  rw [← told.function, ← told.locals]
  exact (typed clean stays.toOpen).imp_left stays.trans

lemma statements_resolve (h : ∀ id slo elo ehi s, StmtTree s.ast slo elo id ehi → 2 * id + ehi < n →
    Post (statement n id) s fun _ t => Resolved slo elo id ehi s t) : ResolvesStmts (n + 1) := by
  intro ids slo elo shi ehi s trees deep
  simp only [statements, post_bind, post_pure]
  generalize false = afterReturn
  induction ids generalizing slo elo s afterReturn with
  | nil => exact ⟨.refl .., fun _ opens => ⟨⟨opens, retypes_of_same fun _ => rfl⟩, .nil⟩⟩
  | cons id ids ih =>
    obtain _ | ⟨head, tail⟩ := trees
    rename_i mid
    have deep' : (2 * id + mid : Nat) < n := by
      have lt : Nat.succ id ≤ shi := tail.le.1
      have le : mid ≤ ehi := tail.le.2
      omega
    have rest t afterReturn' (told : Looks elo elo s t) : Post (statement n id) t fun _ u =>
        Post (ids.foldlM (fun afterReturn id => do
          let s ← get
          if afterReturn then
            complain .unreachable (((s.ast.stmt? id).map Stmt.span).getD ⟨0, 0, ""⟩)
          statement n id
          return isReturn s id) afterReturn') u fun _ w => ResolvedAll slo elo (id :: ids) shi ehi s w := by
      have tree := (told.walks slo (id + 1)).tree head
      have trees := (told.walks slo (id + 1)).trees tail
      refine (h id slo elo mid t tree deep').imp fun _ u first => ?_
      refine (ih (id + 1) mid u (first.walks.trees trees) afterReturn').imp fun _ w rest => ?_
      exact (ResolvedAll.cons tree trees first rest).after told (head.le.2.trans tail.le.2)
    simp only [post_foldlM_cons, post_bind, post_get, post_ite, post_pure]
    refine ⟨fun _ => ?_, fun _ => rest s _ (.refl elo elo s)⟩
    exact rest _ _ (complain_looks elo elo _ _ s)

theorem resolvesStmts (n : Nat) : ResolvesStmts n := by
  induction n using Nat.strongRecOn with
  | ind n ih =>
    rcases n with _ | n
    · intro ids slo elo shi ehi s trees deep
      obtain _ | ⟨head, tail⟩ := trees
      · exact ⟨.refl .., fun _ opens => ⟨⟨opens, retypes_of_same fun _ => rfl⟩, .nil⟩⟩
      · have lt := head.le.1.trans_lt (Nat.lt_of_succ_le tail.le.1)
        omega
    · refine statements_resolve fun id slo elo ehi s tree deep => ?_
      rcases n with _ | n
      · exact absurd deep (Nat.not_lt_zero _)
      · exact statement_resolves (ih n (by omega)) tree (Nat.le_of_lt_succ deep)

end EmLang.Resolution
