import EmLang.Proofs.Bodies
import Mathlib.Data.List.Forall2

/-!
Declaring the functions of a program before any body is looked at. First every declaration gets a
function, and the other statements make up the main function; then the functions get their return
types, bodies and parameters.
-/

namespace EmLang

open Ast List Option Scope Text

variable {ast ast' ast'' : Ast} {change : Function → Function}
  {slo elo shi ehi : Nat} {ty : Ty}

/-- The same statements and expressions, apart from what their names refer to. -/
structure Ast.Alike (ast ast' : Ast) : Prop where
  exprs : ∀ e, ast'.exprShape? e = ast.exprShape? e
  stmts : ∀ id, ast'.stmtShape? id = ast.stmtShape? id
  topLevel : ast'.topLevel = ast.topLevel

lemma Ast.Alike.trans (h : ast.Alike ast') (h' : ast'.Alike ast'') : ast.Alike ast'' :=
  ⟨fun e => (h'.exprs e).trans (h.exprs e), fun id => (h'.stmts id).trans (h.stmts id),
  h'.topLevel.trans h.topLevel⟩

namespace Resolution

variable {f g : FunId} {ids owners : List StmtId} {s t u : State} {Q Q' : State → Function → Prop}
  {ds declarations : List Declaration}

/-! ### What declaring changes -/

/-- From `s` to `t` only the scope changes, and which function a declaration declares. -/
structure Lists (s t : State) : Prop where
  locals : t.locals = s.locals
  exprs : ∀ i, t.ast.node? i = s.ast.node? i
  shape : ∀ i, t.ast.stmtShape? i = s.ast.stmtShape? i
  topLevel : t.ast.topLevel = s.ast.topLevel
  errors : t.report.errors = [] → s.report.errors = []

namespace Lists

lemma refl (s : State) : Lists s s := ⟨rfl, fun _ => rfl, fun _ => rfl, rfl, id⟩

lemma trans (h : Lists s t) (h' : Lists t u) : Lists s u :=
  ⟨h'.locals.trans h.locals, fun i => (h'.exprs i).trans (h.exprs i), fun i => (h'.shape i).trans (h.shape i),
    h'.topLevel.trans h.topLevel, fun clean => h.errors (h'.errors clean)⟩

lemma alike (h : Lists s t) : s.ast.Alike t.ast :=
  ⟨fun i => by rw [exprShape?_eq, exprShape?_eq, h.exprs], h.shape, h.topLevel⟩

lemma trees (h : Lists s t) (trees : StmtTrees s.ast slo elo ids shi ehi) :
    StmtTrees t.ast slo elo ids shi ehi :=
  trees.congr (fun i _ => (h.shape i).trans) fun i _ => (h.alike.exprs i).trans

lemma of_looks (h : Looks 0 0 s t) : Lists s t :=
  ⟨h.locals, fun i => h.outside i (.inr (Nat.zero_le i)), (h.walks 0 0).stmtShape, h.topLevel, h.errors⟩

end Lists

/-- The statement is a declaration and carries the function it declares. -/
def Carries (ast : Ast) (id : StmtId) (f : FunId) : Prop :=
  ∃ keyword name parameters returnType body,
    ast.stmtKind? id = some (.function keyword name parameters returnType body (some f))

/-- From `s` to `t` declarations stay as they are, and functions keep their names. -/
structure Retains (s t : State) : Prop where
  stmts : ∀ i kind, s.ast.stmtKind? i = some kind → kind.isDeclaration = true → t.ast.stmtKind? i = some kind
  functions : ∀ f function, s.scope.function? f = some function → ∃ function', t.scope.function? f =
    some function' ∧ function'.name = function.name ∧ function'.declaration = function.declaration

lemma Retains.refl (s : State) : Retains s s :=
  ⟨fun _ _ here _ => here, fun _ function hf => ⟨function, hf, rfl, rfl⟩⟩

lemma Retains.trans (h : Retains s t) (h' : Retains t u) : Retains s u := by
  refine ⟨fun i kind here isDeclaration =>
    h'.stmts i kind (h.stmts i kind here isDeclaration) isDeclaration, fun f function hf => ?_⟩
  obtain ⟨function', hf', name, declaration⟩ := h.functions f function hf
  obtain ⟨function'', hf'', name', declaration'⟩ := h'.functions f function' hf'
  exact ⟨function'', hf'', name'.trans name, declaration'.trans declaration⟩

lemma Retains.carries (h : Retains s t) (shape : ∀ i, t.ast.stmtShape? i = s.ast.stmtShape? i) {id : StmtId}
    (carries : Carries t.ast id f) : Carries s.ast id f := by
  obtain ⟨keyword, name, parameters, returnType, body, here⟩ := carries
  have before : s.ast.stmtShape? id = some _ := (shape id).symm.trans (stmtShape?_of_stmtKind here)
  obtain ⟨node, hnode, erased⟩ := map_eq_some_iff.1 before
  have kind : s.ast.stmtKind? id = some node.kind := by rw [stmtKind?, hnode]; rfl
  have declaration : node.kind.isDeclaration = true := by rw [← StmtKind.isDeclaration_erase, erased]; rfl
  obtain same := mem_unique (h.stmts id _ kind declaration) here
  exact ⟨keyword, name, parameters, returnType, body, kind.trans (congrArg some same)⟩

variable {d : Declaration} {scope scope' : Scope} {name : String} {function : Function}

lemma Walks.retains (h : Walks slo shi elo ehi s t) : Retains s t := by
  refine ⟨h.declarations, fun f function hf => ?_⟩
  obtain ⟨more, hmore⟩ := h.scope.functions f function hf
  exact ⟨_, hmore, rfl, rfl⟩

lemma Looks.retains {hi lo : Nat} (h : Looks lo hi s t) : Retains s t := (h.walks 0 0).retains

/-- The statement declares the function with the parts of `d`. -/
def DeclaredBy (s : State) (id : StmtId) (d : Declaration) : Prop :=
  ∃ keyword name function, s.ast.stmtKind? id =
    some (.function keyword name d.parameters d.returnType d.body (some d.function)) ∧
    s.scope.function? d.function = some function ∧
    function.name = name.literal ∧ function.declaration = some id

lemma DeclaredBy.retained {id : StmtId} (h : DeclaredBy s id d) (retains : Retains s t) :
    DeclaredBy t id d := by
  obtain ⟨keyword, name, function, here, found, named, declaration⟩ := h
  obtain ⟨function', found', name', declaration'⟩ := retains.functions _ _ found
  exact ⟨keyword, name, function', retains.stmts id _ here rfl, found', name'.trans named,
    declaration'.trans declaration⟩

lemma DeclaredBy.shape {id : StmtId} (h : DeclaredBy s id d) : ∃ keyword name, s.ast.stmtShape? id =
    some (.function keyword name d.parameters d.returnType d.body none) := by
  obtain ⟨keyword, name, -, here, -⟩ := h
  exact ⟨keyword, name, stmtShape?_of_stmtKind here⟩

lemma DeclaredBy.declares {id : StmtId} (h : DeclaredBy s id d) : declares s.ast id = true := by
  obtain ⟨keyword, name, shape⟩ := h.shape
  simp [EmLang.declares, shape]

lemma exists_of_forall₂ {α β : Type} {R : α → β → Prop} {as : List α} {bs : List β}
    (h : Forall₂ R as bs) {b : β} (mem : b ∈ bs) : ∃ a ∈ as, R a b := by
  obtain ⟨k, lt, rfl⟩ := mem_iff_getElem.1 mem
  have lt' : k < as.length := h.length_eq ▸ lt
  exact ⟨_, getElem_mem lt', (forall₂_iff_get.1 h).2 k lt' lt⟩

/-- The declarations that were found stand for these statements. -/
def Owners (s : State) (ids owners : List StmtId) (ds : List Declaration) : Prop :=
  owners.Sublist ids ∧ Forall₂ (DeclaredBy s) owners ds ∧
    (s.report.errors = [] → owners = ids.filter (declares s.ast ·)) ∧ ∀ id f, Carries s.ast id f → id ∈ owners

lemma Owners.retained (h : Owners s ids owners ds)
    (retains : Retains s t) (shape : ∀ i, t.ast.stmtShape? i = s.ast.stmtShape? i)
    (errors : t.report.errors = [] → s.report.errors = []) : Owners t ids owners ds := by
  obtain ⟨sublist, declared, all, only⟩ := h
  refine ⟨sublist, declared.imp fun _ _ h => h.retained retains, fun clean => ?_,
    fun id f carries => only id f (retains.carries shape carries)⟩
  simpa only [declares, shape] using all (errors clean)

/-- The scope of a program none of whose bodies was looked at. -/
structure Fresh (scope : Scope) : Prop where
  slotted : scope.Slotted
  parameters : ∀ f function, scope.function? f = some function → function.parameters = function.locals
  names : ∀ f g function function', scope.function? f = some function → scope.function? g = some function' →
    function.name = function'.name → f = g

lemma Ready.modifyFunction (ready : Ready scope) (f : FunId)
    (returns : ∀ function, function.returnType.IsProper → (change function).returnType.IsProper)
    (parameters : ∀ function, (change function).parameters = function.parameters) :
    Ready (scope.modifyFunction f change) := by
  refine ⟨ready.vars, fun g function hg => ?_, fun g function hg => ?_⟩ <;> obtain ⟨old, hold,
    rfl | rfl⟩ := exists_of_modifyFunction scope hg
  · exact returns old (ready.returns g old hold)
  · exact ready.returns g _ hold
  · rw [parameters]
    exact ready.parameters g old hold
  · exact ready.parameters g _ hold

lemma Fresh.modifyFunction
    (fresh : Fresh scope) (f : FunId) (names : ∀ function, (change function).name = function.name)
    (locals : ∀ function, (change function).locals = function.locals)
    (parameters : ∀ function, (change function).parameters = function.parameters) :
    Fresh (scope.modifyFunction f change) := by
  have same g function (hg : (scope.modifyFunction f change).function? g = some function) : ∃ old,
      scope.function? g = some old ∧ function.name = old.name ∧ function.parameters = old.parameters ∧
        function.locals = old.locals := by
    obtain ⟨old, hold, rfl | rfl⟩ := exists_of_modifyFunction scope hg
    · exact ⟨old, hold, names old, parameters old, locals old⟩
    · exact ⟨_, hold, rfl, rfl, rfl⟩
  refine ⟨fresh.slotted.modifyFunction f locals parameters, fun g function hg => ?_,
    fun g g' function function' hg hg' h => ?_⟩
  · obtain ⟨old, hold, -, hparameters, hlocals⟩ := same g function hg
    rw [hparameters, hlocals]
    exact fresh.parameters g old hold
  · obtain ⟨old, hold, hname, -⟩ := same g function hg
    obtain ⟨old', hold', hname', -⟩ := same g' function' hg'
    exact fresh.names g g' old old' hold hold' (hname.symm.trans (h.trans hname'))

/-! ### Functions -/

lemma function?_createFunction {id : StmtId} (h : scope.createFunction name id = .ok (scope', f))
    (g : FunId) : scope'.function? g = if g = scope.functions.size then some ⟨name, [], [], [],
      .void, some id⟩ else scope.function? g := by
  unfold createFunction at h
  split at h
  · simp at h
  · simp only [Except.ok.injEq, Prod.mk.injEq] at h
    rw [← h.1]
    simp [function?, Array.getElem?_push]

lemma exists_of_createFunction {id : StmtId} (h : scope.createFunction name id = .ok (scope', f))
    (hg : scope'.function? g = some function) : g = scope.functions.size ∧
    function = ⟨name, [], [], [], .void, some id⟩ ∨ scope.function? g = some function := by
  rw [function?_createFunction h] at hg
  split_ifs at hg with new
  · exact .inl ⟨new, (some.inj hg).symm⟩
  · exact .inr hg

lemma createFunction_ok {id : StmtId} (h : scope.createFunction name id = .ok (scope', f)) :
    f = scope.functions.size ∧ scope'.vars = scope.vars ∧ scope'.functions.size = scope.functions.size + 1 ∧
      ∀ g function, scope.function? g = some function → function.name ≠ name := by
  unfold createFunction at h
  split at h
  · simp at h
  · rename_i unknown
    obtain ⟨rfl, rfl⟩ := h
    refine ⟨rfl, rfl, by simp, fun g function hg hname => ?_⟩
    have none := Array.findIdx?_eq_none_iff.1 unknown function (Array.mem_of_getElem? hg)
    simp [hname] at none

lemma Fresh.createFunction (fresh : Fresh scope) {id : StmtId}
    (h : scope.createFunction name id = .ok (scope', f)) : Fresh scope' := by
  have function := function?_createFunction h
  obtain ⟨rfl, vars, -, unknown⟩ := createFunction_ok h
  have var v : scope'.var? v = scope.var? v := by simp only [var?, vars]
  refine ⟨⟨fun v x hv => ?_, fun g other i v hg hi => ?_, fun g other hg => ?_⟩, fun g other hg =>
    ?_, fun g g' other other' hg hg' same => ?_⟩
  · rw [var] at hv
    obtain ⟨owner, howner, hslot⟩ := fresh.slotted.owner v x hv
    have old : x.function ≠ scope.functions.size := (Array.getElem?_eq_some_iff.1 howner).1.ne
    exact ⟨owner, by rw [function, if_neg old, howner], hslot⟩
  · rw [var]
    obtain ⟨-, rfl⟩ | hg := exists_of_createFunction h hg
    · simp at hi
    · exact fresh.slotted.slot g other i v hg hi
  · obtain ⟨-, rfl⟩ | hg := exists_of_createFunction h hg
    · exact prefix_rfl
    · exact fresh.slotted.parameters g other hg
  · obtain ⟨-, rfl⟩ | hg := exists_of_createFunction h hg
    · rfl
    · exact fresh.parameters g other hg
  · obtain ⟨rfl, rfl⟩ | hg := exists_of_createFunction h hg <;> obtain ⟨rfl, rfl⟩ | hg' :=
      exists_of_createFunction h hg'
    · rfl
    · exact absurd same.symm (unknown g' other' hg')
    · exact absurd same (unknown g other hg)
    · exact fresh.names g g' other other' hg hg' same

lemma Ready.createFunction (ready : Ready scope) {id : StmtId}
    (h : scope.createFunction name id = .ok (scope', f)) : Ready scope' := by
  obtain ⟨-, vars, -, -⟩ := createFunction_ok h
  have var v : scope'.var? v = scope.var? v := by simp only [var?, vars]
  refine ⟨fun v x hv => ready.vars v x ((var v).symm.trans hv), fun g other hg => ?_, fun g other hg p hp => ?_⟩
  · obtain ⟨-, rfl⟩ | hg := exists_of_createFunction h hg
    · exact ⟨by simp, by simp⟩
    · exact ready.returns g other hg
  · rw [var]
    obtain ⟨-, rfl⟩ | hg := exists_of_createFunction h hg
    · simp at hp
    · exact ready.parameters g other hg p hp

/-- The statements `ids` have been looked at for declarations, and `declarations` are those
found. -/
structure Listed (s : State) (ids : List StmtId) (declarations : List Declaration) : Prop where
  fresh : Fresh s.scope
  ready : Ready s.scope
  main : s.scope.function? main = some ⟨"main", [], [], ids.filter (!declares s.ast ·), .int, none⟩
  owners : ∃ owners, Owners s ids owners declarations
  bare : ∀ f function, s.scope.function? f = some function → function.parameters = []
  functions : Scope.main :: declarations.map Declaration.function = range s.scope.functions.size

lemma declares_congr (h : Lists s t) (id : StmtId) : declares t.ast id = declares s.ast id := by
  simp only [declares, h.shape]

/-- A statement outside all bodies that declares nothing belongs to the main function. -/
lemma Listed.add_main (h : Listed s ids declarations) {id : StmtId} (none : declares s.ast id = false) :
    Listed { s with scope := s.scope.modifyFunction Scope.main fun f => { f with body := f.body ++ [id] } }
      (ids ++ [id]) declarations := by
  obtain ⟨owners, sublist, declared, all, only⟩ := h.owners
  have retains : Retains s { s with scope := s.scope.modifyFunction Scope.main fun f =>
      { f with body := f.body ++ [id] } } := by
    refine ⟨fun _ _ here _ => here, fun f function hf => ?_⟩
    rw [function?_modifyFunction, hf]
    split_ifs
    · exact ⟨_, rfl, rfl, rfl⟩
    · exact ⟨_, rfl, rfl, rfl⟩
  refine ⟨h.fresh.modifyFunction _ (fun _ => rfl) (fun _ => rfl) fun _ => rfl,
    h.ready.modifyFunction _ (fun _ h => h) fun _ => rfl, ?_, ⟨owners,
    sublist.trans (sublist_append_left ids [id]), declared.imp fun _ _ h => h.retained retains,
    fun clean => ?_, only⟩, fun f function hf => ?_, ?_⟩
  · rw [function?_modifyFunction, if_pos rfl, h.main]
    simp [none]
  · rw [all clean, filter_append]
    simp [none]
  · obtain ⟨old, hold, rfl | rfl⟩ := exists_of_modifyFunction _ hf
    · exact h.bare f old hold
    · exact h.bare f _ hold
  · rw [h.functions]
    simp [modifyFunction]

lemma Listed.skip {report : Report} (h : Listed s ids declarations)
    {id : StmtId} (some : declares s.ast id = true) (reported : report.errors ≠ []) :
    Listed { s with report } (ids ++ [id]) declarations := by
  obtain ⟨owners, sublist, declared, -, only⟩ := h.owners
  refine ⟨h.fresh, h.ready, ?_, ⟨owners, sublist.trans (sublist_append_left ids [id]), declared,
    fun clean => absurd clean reported, only⟩, h.bare, h.functions⟩
  rw [h.main]
  simp [some]

lemma setFunction_lists (s : State) (id : StmtId) (f : FunId) (scope : Scope) :
    Lists s { s with scope, ast := s.ast.setFunction id f } :=
  ⟨rfl, fun _ => rfl, stmtShape?_modifyStmt s.ast id fun _ => by simp, rfl, fun clean => clean⟩

lemma stmtKind?_setFunction {kind : StmtKind} {id : StmtId} (h : ast.stmtKind? id = some kind) (f : FunId) :
    (ast.setFunction id f).stmtKind? id = some (kind.withFunction f) := by
  obtain ⟨n, hn, rfl⟩ := map_eq_some_iff.1 h
  simp only [stmt?] at hn
  simp [stmtKind?, stmt?, setFunction, modifyStmt, Array.getElem?_modify, hn]

section

variable (h : Listed s ids declarations)

include h

lemma Listed.add {bound : Option FunId} {id : StmtId} {keyword name : Span}
    (here : s.ast.stmtKind? id = some (.function keyword name d.parameters d.returnType d.body bound))
    (created : s.scope.createFunction name.literal id = .ok (scope, d.function)) :
    Listed { s with scope, ast := s.ast.setFunction id d.function } (ids ++ [id]) (declarations ++ [d]) := by
  have lists := setFunction_lists s id d.function scope
  obtain ⟨owners, sublist, declared, all, only⟩ := h.owners
  obtain ⟨new, -, size, unknown⟩ := createFunction_ok created
  have function := function?_createFunction created
  have old f other (hf : s.scope.function? f = some other) : scope.function? f = some other := by
    have lt : f < s.scope.functions.size := (Array.getElem?_eq_some_iff.1 hf).1
    rw [function, if_neg lt.ne, hf]
  have isDeclaration : declares s.ast id = true := by
    simp [declares, stmtShape?_of_stmtKind here, StmtKind.erase]
  refine ⟨h.fresh.createFunction created, h.ready.createFunction created, ?_,
    ⟨owners ++ [id], ?_, ?_, fun clean => ?_, fun i f carries => ?_⟩, fun f other hf => ?_, ?_⟩
  · rw [old _ _ h.main, filter_append]
    simp only [declares_congr lists]
    simp [isDeclaration]
  · exact sublist.append (Sublist.refl [id])
  · refine rel_append (declared.imp fun i d' entry => ?_) (.cons ?_ .nil)
    · -- Another declaration has another name, and so it is another statement.
      obtain ⟨keyword', name', other, here', found, named, declaration⟩ := entry
      have apart : i ≠ id := by
        rintro rfl
        obtain ⟨-, rfl, -⟩ := StmtKind.function.inj (mem_unique here' here)
        exact unknown _ _ found named
      exact ⟨keyword', name', other, (stmtKind?_modifyStmt_ne s.ast id apart).trans here',
        old _ _ found, named, declaration⟩
    · exact ⟨keyword, name, _, stmtKind?_setFunction here d.function,
        (function d.function).trans (if_pos new), rfl, rfl⟩
  · rw [all clean, filter_append]
    simp only [declares_congr lists]
    simp [isDeclaration]
  · rw [mem_append, mem_singleton]
    obtain rfl | apart := eq_or_ne i id
    · exact .inr rfl
    · obtain ⟨keyword', name', parameters, returnType, body, here'⟩ := carries
      rw [setFunction, stmtKind?_modifyStmt_ne s.ast id apart] at here'
      exact .inl (only i f ⟨keyword', name', parameters, returnType, body, here'⟩)
  · obtain ⟨-, rfl⟩ | hf := exists_of_createFunction created hf
    · rfl
    · exact h.bare f other hf
  · show Scope.main :: (declarations ++ [d]).map Declaration.function = range scope.functions.size
    rw [size, range_succ, ← h.functions, ← new]
    simp

lemma declareStatement_lists (id : StmtId) : Post (declareStatement id) s fun found t =>
      Lists s t ∧ Listed t (ids ++ [id]) (declarations ++ found.toList) := by
  simp only [declareStatement, post_bind, post_get]
  split
  · rename_i keyword name parameters returnType body bound here
    have isDeclaration : declares s.ast id = true := by
      simp [declares, stmtShape?_of_stmtKind here, StmtKind.erase]
    simp only [declareFunction, post_bind, post_get, post_pure]
    split
    · rename_i scope f made
      have created : s.scope.createFunction name.literal id = .ok (scope, f) := by
        split at made
        · cases made
        · cases hc : s.scope.createFunction name.literal id <;> simp_all [Except.toOption]
      exact ⟨setFunction_lists s id f scope, h.add (d := ⟨f, parameters, returnType, body⟩) here created⟩
    · simp only [complain, post_bind, post_modify, post_pure, map_none, toList_none, append_nil]
      exact ⟨⟨rfl, fun _ => rfl, fun _ => rfl, rfl, Parser.errors_of_add⟩,
        h.skip isDeclaration (Parser.add_errors_ne rfl)⟩
  · rename_i other
    simp only [post_bind, post_modify, post_pure, toList_none, append_nil]
    have isOther : declares s.ast id = false := by
      unfold declares
      split
      · rename_i here
        obtain ⟨node, hnode, hkind⟩ := map_eq_some_iff.1 here
        cases hk : node.kind with
        | function => exact (other _ _ _ _ _ _ (by rw [hnode, map_some, hk])).elim
        | _ => simp [hk, StmtKind.erase] at hkind
      · rfl
    exact ⟨⟨rfl, fun _ => rfl, fun _ => rfl, rfl, fun clean => clean⟩, h.add_main isOther⟩

lemma declareStatements_list (more : List StmtId) : Post (more.mapM declareStatement) s fun found t =>
      Lists s t ∧ Listed t (ids ++ more) (declarations ++ found.filterMap id) := by
  induction more generalizing s ids declarations with
  | nil =>
    simp only [mapM_nil, post_pure, filterMap_nil, append_nil]
    exact ⟨.refl s, h⟩
  | cons i more ih =>
    simp only [mapM_cons, post_bind, post_pure]
    refine (declareStatement_lists h i).imp fun found t ⟨lists, h'⟩ => ?_
    refine (ih h').imp fun rest u ⟨lists', h''⟩ => ⟨lists.trans lists', ?_⟩
    rw [append_assoc, append_assoc] at h''
    cases found <;> exact h''

end

/-! ### Signatures -/

lemma Fresh.declareParameter (fresh : Fresh scope) (name : String) (ty : Ty)
    (found : scope.function? f = some function) : Fresh (scope.declareVariable name ty f true).1 := by
  refine ⟨fresh.slotted.declareVariable name ty found fun _ => fresh.parameters f function found,
    fun g other hg => ?_, fun g g' other other' hg hg' same => ?_⟩
  · obtain ⟨old, hold, rfl | rfl⟩ := exists_of_modifyFunction _ hg
    · exact congrArg (· ++ [scope.vars.size]) (fresh.parameters g old hold)
    · exact fresh.parameters g _ hold
  · have named g other (hg : (scope.declareVariable name ty f true).1.function? g = some other) : ∃ old,
        scope.function? g = some old ∧ other.name = old.name := by
      obtain ⟨old, hold, rfl | rfl⟩ := exists_of_modifyFunction _ hg
      · exact ⟨old, hold, rfl⟩
      · exact ⟨_, hold, rfl⟩
    obtain ⟨old, hold, hname⟩ := named g other hg
    obtain ⟨old', hold', hname'⟩ := named g' other' hg'
    exact fresh.names g g' old old' hold hold' (hname.symm.trans (same.trans hname'))

/-- The variable stands for the parameter. -/
def Names (scope : Scope) (v : VarId) (parameter : Parameter) : Prop :=
  ∃ x, scope.var? v = some x ∧ x.name = parameter.name.literal

/-- The type that is written behind a parameter. -/
def parameterType (parameter : Parameter) : Ty := (Ty.ofName? parameter.ascription.typeName.literal).getD .error

/-- The variable stands for the parameter and has the type that is written behind it. -/
def Binds (scope : Scope) (v : VarId) (parameter : Parameter) : Prop :=
  ∃ x, scope.var? v = some x ∧ x.name = parameter.name.literal ∧ x.ty = parameterType parameter

lemma Binds.names {parameter : Parameter} {v : VarId} (h : Binds scope v parameter) :
    Names scope v parameter := by
  obtain ⟨x, hx, name, -⟩ := h
  exact ⟨x, hx, name⟩

/-- The type that is written behind the parameters of a function. -/
def returnTypeOf : Option ReturnType → Option Ty
  | some type => Ty.ofName? type.typeName.literal
  | none => some .void

/-- The function has all that its declaration says. -/
structure Signs (d : Declaration) (s : State) (function : Function) : Prop where
  body : function.body = d.body.statements
  parameters : Forall₂ (Binds s.scope) function.parameters d.parameters
  returns : s.report.errors = [] → returnTypeOf d.returnType = some function.returnType

/-- Only the function `f` was given something, between `s` and `t`, and at the end `Q` holds of
it. -/
structure Signed (f : FunId) (Q : State → Function → Prop) (s t : State) : Prop where
  lists : Lists s t
  retains : Retains s t
  vars : ∀ v x, s.scope.var? v = some x → t.scope.var? v = some x
  fresh : Fresh t.scope
  ready : t.report.errors = [] → Ready s.scope → Ready t.scope
  size : t.scope.functions.size = s.scope.functions.size
  others : ∀ g, g ≠ f → t.scope.function? g = s.scope.function? g
  found : ∃ function, t.scope.function? f = some function ∧ Q t function

lemma Signed.trans (h : Signed f Q s t) (h' : Signed f Q' t u) : Signed f Q' s u :=
  ⟨h.lists.trans h'.lists, h.retains.trans h'.retains, fun v x hv => h'.vars v x (h.vars v x hv), h'.fresh,
    fun clean ready => h'.ready clean (h.ready (h'.lists.errors clean) ready),
    h'.size.trans h.size, fun g hg => (h'.others g hg).trans (h.others g hg), h'.found⟩

lemma Signed.imp (h : Signed f Q s t) (imp : ∀ function, t.scope.function? f = some function →
      Q t function → Q' t function) : Signed f Q' s t :=
  { h with found := h.found.imp fun function ⟨found, holds⟩ => ⟨found, imp function found holds⟩ }

lemma Signed.of_looks (h : Looks 0 0 s t) (fresh : Fresh s.scope)
    (found : s.scope.function? f = some function) : Signed f (fun _ function' => function' = function) s t := by
  refine ⟨.of_looks h, h.retains, ?_, ?_, ?_, ?_, fun g _ => ?_, ?_⟩ <;> rw [h.scope]
  · exact fun _ _ hv => hv
  · exact fresh
  · exact fun _ ready => ready
  · exact ⟨function, found, rfl⟩

/-- The function was given parameters, and is the same otherwise. -/
def Gains (function : Function) (parameters : List Parameter) (s : State) (function' : Function) : Prop :=
  function'.body = function.body ∧ function'.returnType = function.returnType ∧
    ∃ more, function'.parameters = function.parameters ++ more ∧ Forall₂ (Binds s.scope) more parameters

section

variable (fresh : Fresh s.scope) (found : s.scope.function? f = some function)

include fresh found

lemma declareParameter_signs (parameter : Parameter) : Post (do
      let ty ← typeNamed parameter.ascription.typeName
      modify fun s => { s with scope :=
        (s.scope.declareVariable parameter.name.literal ty f true).1 }) s fun _ t =>
      Signed f (Gains function [parameter]) s t := by
  simp only [post_bind, post_modify]
  refine (typeNamed_looks 0 0 parameter.ascription.typeName s).imp fun ty t ⟨looks, written, proper⟩ => ?_
  have named := Signed.of_looks looks fresh found
  rw [← looks.scope] at found
  set scope := (t.scope.declareVariable parameter.name.literal ty f true).1
  have given : scope.function? f = some { function with
      locals := function.locals ++ [t.scope.vars.size], parameters :=
      function.parameters ++ [t.scope.vars.size] } := by
    rw [function?_declareVariable, if_pos rfl, found]
    rfl
  have others g (hg : g ≠ f) : scope.function? g = t.scope.function? g := by
    rw [function?_declareVariable, if_neg hg.symm]
  refine ⟨⟨named.lists.locals, named.lists.exprs, named.lists.shape, named.lists.topLevel,
    named.lists.errors⟩, ⟨named.retains.stmts, fun g other hg => ?_⟩, fun v x hv =>
    t.scope.var?_declareVariable_of (named.vars v x hv) .., named.fresh.declareParameter _ ty found,
    fun clean ready => (named.ready clean ready).declareVariable _ (proper clean).1 f true, ?_,
    fun g hg => (others g hg).trans (named.others g hg), _, given, rfl, rfl, [t.scope.vars.size],
    rfl, .cons ?_ .nil⟩
  · rw [← looks.scope] at hg
    obtain rfl | other := eq_or_ne g f
    · obtain rfl := mem_unique hg found
      exact ⟨_, given, rfl, rfl⟩
    · exact ⟨_, (others g other).trans hg, rfl, rfl⟩
  · rw [← named.size]
    simp [scope, declareVariable, modifyFunction]
  · exact ⟨_, (var?_declareVariable ..).trans (if_pos rfl), rfl, written⟩

lemma declareParameters_sign (parameters : List Parameter) :
    Post (parameters.forM fun parameter => do
      let ty ← typeNamed parameter.ascription.typeName
      modify fun s => { s with scope :=
        (s.scope.declareVariable parameter.name.literal ty f true).1 }) s fun _ t =>
      Signed f (Gains function parameters) s t := by
  induction parameters generalizing s function with
  | nil =>
    refine (Signed.of_looks (.refl 0 0 s) fresh found).imp fun other _ same => ?_
    subst same
    exact ⟨rfl, rfl, [], by simp, .nil⟩
  | cons parameter parameters ih =>
    rw [post_forM_cons]
    refine (declareParameter_signs fresh found parameter).imp fun _ t signed => ?_
    obtain ⟨function', found', body, returns, more, given, named⟩ := signed.found
    refine (ih signed.fresh found').imp fun _ u signed' => (signed.trans signed').imp ?_
    rintro function'' - ⟨body', returns', more', given', named'⟩
    refine ⟨body'.trans body, returns'.trans returns, more ++ more', by rw [given', given, append_assoc], ?_⟩
    refine rel_append (named.imp fun v p hv => ?_) named'
    obtain ⟨x, hx, name⟩ := hv
    exact ⟨x, signed'.vars v x hx, name⟩

lemma declareBody_signs
    (proper : s.report.errors = [] → ty.IsProper) (body : List StmtId) :
    Signed f (fun _ function' => function' = { function with returnType := ty, body }) s
      { s with scope := s.scope.modifyFunction f fun f => { f with returnType := ty, body } } := by
  have given : (s.scope.modifyFunction f fun f => { f with returnType := ty, body }).function? f =
      some { function with returnType := ty, body } := by
    rw [function?_modifyFunction, if_pos rfl, found]
    rfl
  have others g (hg : g ≠ f) : (s.scope.modifyFunction f fun f =>
      { f with returnType := ty, body }).function? g = s.scope.function? g := by
    rw [function?_modifyFunction, if_neg hg.symm]
  refine ⟨⟨rfl, fun _ => rfl, fun _ => rfl, rfl, fun clean => clean⟩, ⟨fun _ _ here _ => here,
    fun g other hg => ?_⟩, fun _ _ hv => hv, fresh.modifyFunction f (fun _ => rfl) (fun _ => rfl)
    fun _ => rfl, fun clean ready => ready.modifyFunction f (fun _ _ => proper clean) fun _ => rfl,
    by simp [modifyFunction], others, _, given, rfl⟩
  obtain rfl | other := eq_or_ne g f
  · obtain rfl := mem_unique hg found
    exact ⟨_, given, rfl, rfl⟩
  · exact ⟨_, (others g other).trans hg, rfl, rfl⟩

end

lemma declareSignature_signs (fresh : Fresh s.scope)
    (found : s.scope.function? d.function = some function) (bare : function.parameters = []) :
    Post (declareSignature d) s fun _ t => Signed d.function (Signs d) s t := by
  have rest : ∀ ty t, Signed d.function (fun _ function' => function' = function) s t →
      (t.report.errors = [] → ty.IsProper ∧ returnTypeOf d.returnType = some ty) → Post (do
      modify fun s =>
        { s with scope := s.scope.modifyFunction d.function fun f =>
            { f with returnType := ty, body := d.body.statements } }
      d.parameters.forM fun parameter => do
        let ty ← typeNamed parameter.ascription.typeName
        modify fun s =>
          { s with scope :=
          (s.scope.declareVariable parameter.name.literal ty d.function true).1 }) t fun _ u =>
      Signed d.function (Signs d) s u := by
    intro ty t signed proper
    obtain ⟨_, found', rfl⟩ := signed.found
    have signed' := declareBody_signs signed.fresh found' (fun clean => (proper clean).1) d.body.statements
    obtain ⟨_, found'', rfl⟩ := signed'.found
    rw [post_bind, post_modify]
    refine (declareParameters_sign signed'.fresh found'' d.parameters).imp fun _ u signed'' => ?_
    refine (signed.trans (signed'.trans signed'')).imp ?_
    rintro final - ⟨body, returns, more, parameters, named⟩
    rw [bare, nil_append] at parameters
    refine ⟨body, parameters ▸ named, fun clean => ?_⟩
    rw [returns]
    exact (proper (signed''.lists.errors clean)).2
  unfold declareSignature
  cases hreturn : d.returnType with
  | some type =>
    rw [hreturn] at rest
    rw [post_bind]
    refine (typeNamed_looks 0 0 type.typeName s).imp fun ty t ⟨looks, _, proper⟩ => ?_
    exact rest ty t (.of_looks looks fresh found) proper
  | none =>
    rw [hreturn] at rest
    exact rest .void s (.of_looks (.refl 0 0 s) fresh found) fun _ => ⟨⟨by simp, by simp⟩, rfl⟩

/-- The functions of all these declarations were given what they say, and no others, between `s` and
`t`. -/
structure SignedAll (ds : List Declaration) (s t : State) : Prop where
  lists : Lists s t
  retains : Retains s t
  vars : ∀ v x, s.scope.var? v = some x → t.scope.var? v = some x
  fresh : Fresh t.scope
  ready : t.report.errors = [] → Ready s.scope → Ready t.scope
  size : t.scope.functions.size = s.scope.functions.size
  others : ∀ g, g ∉ ds.map Declaration.function → t.scope.function? g = s.scope.function? g
  found : ∀ d ∈ ds, ∃ function, t.scope.function? d.function = some function ∧ Signs d t function

/-- The signatures of functions that are all different. -/
lemma declareSignatures_sign (fresh : Fresh s.scope)
    (found : ∀ d ∈ ds, ∃ function, s.scope.function? d.function = some function ∧
      function.parameters = []) (nodup : (ds.map Declaration.function).Nodup) :
    Post (ds.forM declareSignature) s fun _ t => SignedAll ds s t := by
  induction ds generalizing s with
  | nil =>
    exact ⟨.refl s, .refl s, fun _ _ hv => hv, fresh, fun _ ready => ready, rfl, fun _ _ => rfl, by simp⟩
  | cons d ds ih =>
    rw [post_forM_cons]
    rw [map_cons, nodup_cons] at nodup
    obtain ⟨⟨function, here, bare⟩, found⟩ := forall_mem_cons.1 found
    refine (declareSignature_signs fresh here bare).imp fun _ t signed => ?_
    have found' d' (hd' : d' ∈ ds) : ∃ function, t.scope.function? d'.function = some function ∧
        function.parameters = [] := by
      have ne : d'.function ≠ d.function := fun same => nodup.1 (same ▸ mem_map_of_mem hd')
      rw [signed.others _ ne]
      exact found d' hd'
    refine (ih signed.fresh found' nodup.2).imp fun _ u rest => ?_
    refine ⟨signed.lists.trans rest.lists, signed.retains.trans rest.retains,
      fun v x hv => rest.vars v x (signed.vars v x hv), rest.fresh, fun clean h =>
      rest.ready clean (signed.ready (rest.lists.errors clean) h), rest.size.trans signed.size,
      fun g hg => ?_, forall_mem_cons.2 ⟨?_, rest.found⟩⟩
    · rw [map_cons, mem_cons, not_or] at hg
      rw [rest.others g hg.2, signed.others g hg.1]
    · rw [rest.others _ nodup.1]
      obtain ⟨function, here, body, parameters, returns⟩ := signed.found
      refine ⟨function, here, body, parameters.imp fun v p named => ?_,
        fun clean => returns (rest.lists.errors clean)⟩
      obtain ⟨x, hx, name⟩ := named
      exact ⟨x, rest.vars v x hx, name⟩

end Resolution

end EmLang
