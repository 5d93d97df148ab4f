import EmLang.Proofs.Declaring
import EmLang.Proofs.Placing
import Mathlib.Data.List.Pairwise

/-!
Programs that are accepted: every function body is typed, with its parameters in scope. Bodies are
looked at one after the other. Each stands in a region of its own, so that what was found out about
one is still true when the next has been looked at.
-/

namespace EmLang

open List Option Text

variable {ast ast' ast'' : Ast} {ds : List Resolution.Declaration} {read : List StmtId}
  {s t u : Resolution.State} {d : Resolution.Declaration} {f : FunId} {function : Function}
  {ids owners : List StmtId} {n slo elo shi ehi : Nat} {region : StmtId → Region}

/-! ### Regions that are left alone -/

/-- Nothing in the region of the statement is different. -/
structure Kept (region : StmtId → Region) (ast ast' : Ast) (id : StmtId) : Prop where
  stmts : ∀ i, (region id).slo ≤ i → i ≤ id → ast'.stmtKind? i = ast.stmtKind? i
  exprs : ∀ i, (region id).elo ≤ i → i < (region id).ehi → ast'.node? i = ast.node? i

lemma Kept.refl (region : StmtId → Region) (ast : Ast) (id : StmtId) : Kept region ast ast id :=
  ⟨fun _ _ _ => rfl, fun _ _ _ => rfl⟩

lemma Kept.trans {id : StmtId} (h : Kept region ast ast' id) (h' : Kept region ast' ast'' id) :
    Kept region ast ast'' id :=
  ⟨fun i le le' => (h'.stmts i le le').trans (h.stmts i le le'),
  fun i le lt => (h'.exprs i le lt).trans (h.exprs i le lt)⟩

lemma StmtsTyped.kept {scope scope' : Scope} {vars vars' : List VarId} (region : StmtId → Region)
    (typed : StmtsTyped ast scope f vars ids vars') (ext : scope.Extends scope')
    (trees : ∀ id ∈ ids, StmtTree ast (region id).slo (region id).elo id (region id).ehi)
    (kept : ∀ id ∈ ids, Kept region ast ast' id) : StmtsTyped ast' scope' f vars ids vars' := by
  induction ids generalizing vars with
  | nil =>
    obtain ⟨⟩ := typed
    exact .nil
  | cons id ids ih =>
    obtain _ | ⟨head, tail⟩ := typed
    have here := kept id (by simp)
    refine .cons (head.transfer ext ((trees id (by simp)).shared here.stmts here.exprs)) ?_
    exact ih tail (fun i hi => trees i (by simp [hi])) fun i hi => kept i (by simp [hi])

/-- In whatever order statements are taken, each stands in a region of its own. -/
lemma StmtTrees.regions_of_perm (h : StmtTrees ast 0 0 read shi ehi) (perm : ids.Perm read) :
    ∃ region : StmtId → Region, ids.Nodup ∧ ids.Pairwise (Region.Apart region) ∧
    ∀ id ∈ ids, StmtTree ast (region id).slo (region id).elo id (region id).ehi ∧ id < shi ∧
    (region id).ehi ≤ ehi := by
  obtain ⟨region, pairwise, inside⟩ := h.regions
  refine ⟨region, perm.nodup_iff.2 (pairwise.imp_of_mem fun {a b} ha _ before => ?_),
    (perm.pairwise_iff fun h => Or.symm h).2 (pairwise.imp .inl), fun id hid => ?_⟩
  · rintro rfl
    exact absurd ((inside a ha).1.le.1.trans_lt' before.1) (Nat.lt_irrefl a)
  · obtain ⟨tree, -, -, lt, le⟩ := inside id (perm.mem_iff.1 hid)
    exact ⟨tree, lt, le⟩

namespace Resolution

/-- Looking at what stands below the statement `d` leaves the region of another statement alone. -/
lemma Walks.kept {d id : StmtId} (walks : Walks (region d).slo d (region d).elo (region d).ehi s t)
    (apart : Region.Apart region id d) : Kept region s.ast t.ast id := by
  obtain ⟨before, before'⟩ | ⟨behind, behind'⟩ := apart
  · exact ⟨fun i _ le => walks.stmts i (.inl (le.trans_lt before)),
      fun i _ lt => walks.exprs i (.inl (lt.trans_le before'))⟩
  · exact ⟨fun i le _ => walks.stmts i (.inr (behind.le.trans le)),
      fun i le _ => walks.exprs i (.inr (behind'.trans le))⟩

/-! ### Function bodies -/

lemma functionBody_resolves (locals : s.locals = []) (found : s.scope.function? f = some function)
    (trees : StmtTrees s.ast slo elo ids shi ehi) (deep : 2 * shi + ehi ≤ n) :
    Post (functionBody n f ids) s fun _ t =>
      Walks slo shi elo ehi { s with function := f } t ∧ Retains s t ∧ t.locals = [] ∧
        (t.report.errors = [] →
        Ready s.scope → s.scope.Slotted → Ready t.scope ∧ t.scope.Slotted ∧ Retypes s.ast t.ast ∧
        ∃ inner, StmtsTyped t.ast t.scope f function.parameters.reverse ids inner) := by
  simp only [functionBody, post_bind, post_modify, post_get, found, map_some, getD_some]
  refine (inBody_resolves (s := { s with function := f }) (resolvesStmts n) trees deep
    function.parameters.reverse).imp ?_
  intro _ t ⟨walks, locals', typed⟩
  refine ⟨walks, ⟨walks.retains.stmts, walks.retains.functions⟩, locals'.trans locals,
    fun clean ready slotted => ?_⟩
  have opens : Open { s with function := f } := ⟨⟨ready, by simp [locals]⟩, slotted, ⟨function, found⟩⟩
  obtain ⟨opens', inner, typed'⟩ := typed clean opens fun v hv =>
    ready.parameters f function found v (by simpa using hv)
  simp only [locals, flatten_nil, append_nil] at typed'
  exact ⟨opens'.ready, opens'.slotted, opens'.retypes, inner, typed'⟩

lemma body_trees {id : StmtId} (tree : StmtTree s.ast slo elo id ehi) (declared : DeclaredBy s id d) :
    StmtTrees s.ast slo elo d.body.statements id ehi := by
  obtain ⟨keyword, name, shape⟩ := declared.shape
  obtain ⟨here, own, below, last⟩ := tree
  rw [shape, some.injEq] at here
  rw [← here, StmtKind.inner_function] at below
  exact (below.upto_le last le_rfl).from_le le_rfl own.le

/-- What has happened while the bodies below the statements `owners` were looked at. -/
structure Fills (region : StmtId → Region) (ids owners : List StmtId) (s t : State) : Prop where
  scope : s.scope.Grows t.scope
  locals : t.locals = []
  stmtShape : ∀ i, t.ast.stmtShape? i = s.ast.stmtShape? i
  exprShape : ∀ i, t.ast.exprShape? i = s.ast.exprShape? i
  topLevel : t.ast.topLevel = s.ast.topLevel
  retains : Retains s t
  errors : t.report.errors = [] → s.report.errors = []
  kept : ∀ id ∈ ids, id ∉ owners → Kept region s.ast t.ast id

lemma Fills.trans {owners' : List StmtId} (h : Fills region ids owners s t)
    (h' : Fills region ids owners' t u) : Fills region ids (owners ++ owners') s u := by
  refine ⟨h.scope.trans h'.scope, h'.locals, fun i => (h'.stmtShape i).trans (h.stmtShape i),
    fun i => (h'.exprShape i).trans (h.exprShape i), h'.topLevel.trans h.topLevel, h.retains.trans h'.retains,
    fun clean => h.errors (h'.errors clean), fun id hid other => ?_⟩
  rw [mem_append, not_or] at other
  exact (h.kept id hid other.1).trans (h'.kept id hid other.2)

lemma functionBodies_resolve (apart : ∀ id ∈ ids, ∀ id' ∈ ids, id ≠ id' →
      Region.Apart region id id') (locals : s.locals = []) (declared : Forall₂
      (DeclaredBy s) owners ds) (listed : ∀ id ∈ owners, id ∈ ids) (nodup : owners.Nodup)
    (trees : ∀ id ∈ ids, StmtTree s.ast (region id).slo (region id).elo id (region id).ehi)
    (deep : ∀ id ∈ ids, 2 * id + (region id).ehi ≤ n)
    (found : ∀ d ∈ ds, ∃ function, s.scope.function? d.function = some function) :
    Post (ds.forM fun d => functionBody n d.function d.body.statements) s fun _ t =>
      Fills region ids owners s t ∧ (t.report.errors = [] → Ready s.scope → s.scope.Slotted →
        Ready t.scope ∧ t.scope.Slotted ∧ Retypes s.ast t.ast ∧ ∀ d ∈ ds, ∀ function,
        s.scope.function? d.function = some function → ∃ inner, StmtsTyped t.ast t.scope d.function
        function.parameters.reverse d.body.statements inner) := by
  induction ds generalizing owners s with
  | nil => exact ⟨⟨.refl _, locals, fun _ => rfl, fun _ => rfl, rfl, .refl s, fun h => h,
      fun id _ _ => .refl ..⟩, fun _ ready slotted => ⟨ready, slotted, retypes_of_same fun _ =>
      rfl, by simp⟩⟩
  | cons d ds ih =>
    obtain _ | ⟨head, tail⟩ := declared
    rename_i id owners
    rw [post_forM_cons]
    obtain ⟨here, listed'⟩ := forall_mem_cons.1 listed
    obtain ⟨notLater, nodup'⟩ := nodup_cons.1 nodup
    obtain ⟨⟨function, hfunction⟩, found'⟩ := forall_mem_cons.1 found
    have body := body_trees (trees id here) head
    refine (functionBody_resolves locals hfunction body (deep id here)).imp
      fun _ t ⟨walks, retains, locals1, typed⟩ => ?_
    have fills : Fills region ids [id] s t := ⟨walks.scope, locals1, walks.stmtShape,
      walks.exprShape, walks.topLevel, retains, walks.errors, fun i hi other =>
        walks.kept (apart i hi id here (by simpa using other))⟩
    have declared : Forall₂ (DeclaredBy t) owners ds := tail.imp fun i d h => h.retained fills.retains
    have found1 d' (hd' : d' ∈ ds) : ∃ function, t.scope.function? d'.function = some function := by
      obtain ⟨function', hfunction'⟩ := found' d' hd'
      exact ⟨_, (walks.scope.functions _ _ hfunction').choose_spec⟩
    refine (ih locals1 declared listed' nodup' (fun i hi => walks.tree (trees i hi)) found1).imp ?_
    intro _ u ⟨fills', typed'⟩
    refine ⟨fills.trans fills', fun clean ready slotted => ?_⟩
    obtain ⟨ready1, slotted1, retypes1, inner, bodyTyped⟩ := typed (fills'.errors clean) ready slotted
    obtain ⟨ready2, slotted2, retypes2, bodiesTyped⟩ := typed' clean ready1 slotted1
    refine ⟨ready2, slotted2, retypes1.trans retypes2, forall_mem_cons.2 ⟨fun function' h => ?_,
      fun d' hd' function' h => ?_⟩⟩
    · obtain rfl : function = function' := mem_unique hfunction h
      have kept := fills'.kept id here notLater
      exact ⟨inner, bodyTyped.transfer fills'.scope.ext ⟨_, _, _, _, walks.trees body,
        fun i le lt => kept.stmts i le lt.le, kept.exprs⟩⟩
    · obtain ⟨more, hmore⟩ := walks.scope.functions _ _ h
      have typed := bodiesTyped d' hd' _ hmore
      exact typed

/-! ### Programs -/

lemma listed_initial (bare : ast.Bare) (report : Report) :
    Listed ⟨ast, .initial, [], Scope.main, report⟩ [] [] := by
  have function : ∀ f other, Scope.initial.function? f = some other →
      f = Scope.main ∧ other = ⟨"main", [], [], [], .int, none⟩ := by
    intro f other h
    obtain ⟨lt, h⟩ := Array.getElem?_eq_some_iff.1 h
    obtain rfl : f = 0 := Nat.lt_one_iff.1 lt
    exact ⟨rfl, h.symm⟩
  have carries_none : ∀ id f, ¬ Carries ast id f := by
    rintro id f ⟨keyword, name, parameters, returnType, body, here⟩
    obtain ⟨node, hnode, kind⟩ := map_eq_some_iff.1 here
    have erased := bare id node hnode
    rw [kind] at erased
    cases erased
  have none : ∀ v x, Scope.initial.var? v ≠ some x := fun v x h => by simp [Scope.initial, Scope.var?] at h
  refine ⟨⟨⟨fun v x h => absurd h (none v x), fun f other i v h hi => ?_, fun f other h => ?_⟩,
    fun f other h => ?_, fun f g other other' h h' _ =>
    (function f other h).1.trans (function g other' h').1.symm⟩, ⟨fun v x h => absurd h (none v x),
    fun f other h => ?_, fun f other h p hp => ?_⟩, rfl, ⟨[], .slnil, .nil, fun _ => rfl,
    fun id f carries => absurd carries (carries_none id f)⟩, fun f other h => ?_, rfl⟩
  all_goals obtain ⟨rfl, rfl⟩ := function f other h
  · simp at hi
  · exact prefix_rfl
  · rfl
  · exact ⟨by simp, by simp⟩
  · simp at hp
  · rfl

end Resolution

/-- The statement declares the function `f`, which has all that is written there. -/
def Program.Declares (p : Program) (id : StmtId) (f : FunId) (function : Function) : Prop :=
  ∃ keyword name parameters returnType body,
    p.ast.stmtKind? id = some (.function keyword name parameters returnType body (some f)) ∧
    function.name = name.literal ∧ function.declaration = some id ∧ function.body = body.statements ∧
    Forall₂ (Resolution.Names p.scope) function.parameters parameters ∧
    Resolution.returnTypeOf returnType = some function.returnType

/-- What holds of an accepted program. -/
structure Program.Checked (p : Program) : Prop where
  ready : Resolution.Ready p.scope
  slotted : p.scope.Slotted
  names : ∀ f g function function', p.scope.function? f = some function → p.scope.function? g = some function' →
    function.name = function'.name → f = g
  main : ∃ function, p.scope.function? Scope.main = some function ∧ function.name = "main" ∧
    function.parameters = []
  trees : ∀ f function, p.scope.function? f = some function →
    ∃ slo elo shi ehi, StmtTrees p.ast slo elo function.body shi ehi
  bodies : ∀ f function, p.scope.function? f = some function →
    ∃ vars, StmtsTyped p.ast p.scope f function.parameters.reverse function.body vars
  outside : ∀ function, p.scope.function? Scope.main = some function →
    function.body = p.ast.topLevel.filter (!declares p.ast ·)
  declared : ∀ f function, p.scope.function? f = some function → f ≠ Scope.main →
    ∃ id ∈ p.ast.topLevel, p.Declares id f function
  listed : ∀ id ∈ p.ast.topLevel, declares p.ast id = true →
    ∃ f function, p.scope.function? f = some function ∧ f ≠ Scope.main ∧ p.Declares id f function
  carried : ∀ id f, Resolution.Carries p.ast id f → id ∈ p.ast.topLevel

namespace Resolution

/-- A program all of whose functions are declared, and none of whose bodies was looked at. -/
structure Declared (s : State) (ids : List StmtId) (ds : List Declaration) : Prop where
  locals : s.locals = []
  topLevel : s.ast.topLevel = ids
  fresh : Fresh s.scope
  main : s.scope.function? Scope.main = some ⟨"main", [], [], ids.filter (!declares s.ast ·), .int, none⟩
  owners : ∃ owners, Owners s ids owners ds
  functions : Scope.main :: ds.map Declaration.function = range s.scope.functions.size
  bodies : ∀ d ∈ ds, ∃ function, s.scope.function? d.function = some function ∧ Signs d s function
  ready : s.report.errors = [] → Ready s.scope

lemma declarations_declare (bare : ast.Bare) (report : Report) : Post (do
      let ds := (← ast.topLevel.mapM declareStatement).filterMap id
      ds.forM declareSignature
      return ds) ⟨ast, .initial, [], Scope.main, report⟩ fun ds t =>
      Lists ⟨ast, .initial, [], Scope.main, report⟩ t ∧ Declared t ast.topLevel ds := by
  simp only [post_bind, post_pure]
  refine (declareStatements_list (listed_initial bare report) ast.topLevel).imp
    fun found s ⟨lists, listed⟩ => ?_
  rw [nil_append, nil_append] at listed
  generalize found.filterMap id = ds at listed ⊢
  have functions := listed.functions
  have nodup : (Scope.main :: ds.map Declaration.function).Nodup := functions ▸ nodup_range
  obtain ⟨notMain, nodup⟩ := nodup_cons.1 nodup
  have known d (hd : d ∈ ds) : ∃ function, s.scope.function? d.function = some function ∧
      function.parameters = [] := by
    have mem : d.function ∈ range s.scope.functions.size :=
      functions ▸ mem_cons_of_mem _ (mem_map_of_mem hd)
    have found : s.scope.function? d.function = some _ := Array.getElem?_eq_getElem (mem_range.1 mem)
    exact ⟨_, found, listed.bare _ _ found⟩
  refine (declareSignatures_sign listed.fresh known nodup).imp fun _ t signed => ?_
  refine ⟨lists.trans signed.lists, signed.lists.locals.trans lists.locals,
    signed.lists.topLevel.trans lists.topLevel, signed.fresh, ?_, ?_, signed.size ▸ functions,
    signed.found, fun clean => signed.ready clean listed.ready⟩
  · rw [signed.others _ notMain, listed.main]
    simp only [declares_congr signed.lists]
  · obtain ⟨owners, owned⟩ := listed.owners
    exact ⟨owners, owned.retained signed.retains signed.lists.shape signed.lists.errors⟩

/-- A statement of the main function declares nothing, so that it is not one of those that declare
functions. -/
lemma not_owner (declared : Forall₂ (DeclaredBy s) owners ds) {id : StmtId}
    (other : declares s.ast id = false) : id ∉ owners := by
  intro mem
  obtain ⟨d, -, owner⟩ := exists_of_forall₂ declared.flip mem
  have yes := DeclaredBy.declares owner
  rw [other] at yes
  cases yes

lemma Signs.grown (h : Signs d s function) (grows : s.scope.Grows t.scope)
    (errors : t.report.errors = [] → s.report.errors = []) (locals : List VarId) :
    Signs d t { function with locals } :=
  ⟨h.body, h.parameters.imp fun v _ ⟨x, hx, name⟩ => ⟨x, grows.vars v x hx, name⟩,
  fun clean => h.returns (errors clean)⟩

lemma DeclaredBy.program
    {id : StmtId} (h : DeclaredBy s id d) (found : s.scope.function? d.function = some function)
    (signs : Signs d s function) (clean : s.report.errors = []) :
    (⟨s.ast, s.scope, s.report⟩ : Program).Declares id d.function function := by
  obtain ⟨keyword, name, _, here, found', named, declaration⟩ := h
  obtain rfl := mem_unique found' found
  exact ⟨keyword, name, _, _, _, here, named, declaration, signs.body,
    signs.parameters.imp fun _ _ h => h.names, signs.returns clean⟩

/-- Looks at the bodies of all functions, the main function first. -/
def bodies (n : Nat) (ds : List Declaration) : Resolve Unit := do
  let body := (((← get).scope.function? Scope.main).map (·.body)).getD []
  functionBody n Scope.main body
  ds.forM fun d => functionBody n d.function d.body.statements

/-- Every function is the main function or one of those declared. -/
lemma Declared.main_or (declared : Declared s ids ds) (found : s.scope.function? f = some function) :
    f = Scope.main ∨ ∃ d ∈ ds, f = d.function := by
  have mem : f ∈ Scope.main :: ds.map Declaration.function :=
    declared.functions ▸ mem_range.2 (Array.getElem?_eq_some_iff.1 found).1
  obtain rfl | mem := mem_cons.1 mem
  · exact .inl rfl
  · obtain ⟨d, hd, rfl⟩ := mem_map.1 mem
    exact .inr ⟨d, hd, rfl⟩

/-- When all bodies are typed, the program is checked. -/
lemma Declared.checked (declared : Declared s ids ds)
    (grows : s.scope.Grows u.scope) (alike : Ast.Alike s.ast u.ast) (retains : Retains s u)
    (errors : u.report.errors = [] → s.report.errors = []) (clean : u.report.errors = [])
    (ready : Ready u.scope) (slotted : u.scope.Slotted) (typed : ∀ f function, u.scope.function? f =
      some function → (∃ slo elo shi ehi, StmtTrees u.ast slo elo function.body shi ehi) ∧
      ∃ vars, StmtsTyped u.ast u.scope f function.parameters.reverse function.body vars) :
    (⟨u.ast, u.scope, u.report⟩ : Program).Checked := by
  have kinds f function (h : s.scope.function? f = some function) := declared.main_or h
  obtain ⟨-, topLevel, fresh, main, ⟨owners, owned⟩, functions, signed, -⟩ := declared
  obtain ⟨sublist, owned, all, only⟩ := owned.retained retains alike.stmts errors
  have listed : u.ast.topLevel = ids := alike.topLevel.trans topLevel
  have program id d (hd : d ∈ ds) (declared : DeclaredBy u id d) :
      ∃ function, u.scope.function? d.function = some function ∧
      (⟨u.ast, u.scope, u.report⟩ : Program).Declares id d.function function := by
    obtain ⟨function, found, signs⟩ := signed d hd
    obtain ⟨more, hmore⟩ := grows.functions _ _ found
    exact ⟨_, hmore, declared.program hmore (signs.grown grows errors _) clean⟩
  obtain ⟨more, hmore⟩ := grows.functions _ _ main
  refine ⟨ready, slotted, fun f g function function' hf hg same => ?_, ⟨_, hmore, rfl, rfl⟩,
    fun f function h => (typed f function h).1, fun f function h => (typed f function h).2,
    fun function hf => ?_, fun f function hf notMain => ?_, fun id hid declares => ?_,
    fun id f carries => ?_⟩
  · obtain ⟨old, more, hold, rfl⟩ := grows.function_of hf
    obtain ⟨old', more', hold', rfl⟩ := grows.function_of hg
    exact fresh.names f g old old' hold hold' same
  · obtain rfl := mem_unique hmore hf
    simp only [listed, declares, alike.stmts]
  · obtain ⟨old, -, hold, -⟩ := grows.function_of hf
    obtain rfl | ⟨d, hd, rfl⟩ := kinds f old hold
    · exact absurd rfl notMain
    obtain ⟨id, hid, declared⟩ := exists_of_forall₂ owned hd
    obtain ⟨function', found, h⟩ := program id d hd declared
    obtain rfl := mem_unique found hf
    exact ⟨id, by simpa only [listed] using sublist.subset hid, h⟩
  · have mem : id ∈ owners := all clean ▸ mem_filter.2 ⟨listed ▸ hid, declares⟩
    obtain ⟨d, hd, declared⟩ := exists_of_forall₂ owned.flip mem
    obtain ⟨function, found, h⟩ := program id d hd declared
    have nodup : (Scope.main :: ds.map Declaration.function).Nodup := functions ▸ nodup_range
    refine ⟨d.function, function, found, fun isMain => ?_, h⟩
    exact (nodup_cons.1 nodup).1 (isMain ▸ mem_map_of_mem hd)
  · rw [listed]
    exact sublist.subset (only id f carries)

lemma bodies_resolve (declared : Declared s ids ds) (perm : ids.Perm read)
    (others : ids.filter (!declares s.ast ·) = read.filter (!declares s.ast ·))
    (trees : StmtTrees s.ast 0 0 read shi ehi) (deep : 2 * shi + ehi ≤ n) :
    Post (bodies n ds) s fun _ t =>
      Ast.Alike s.ast t.ast ∧ (t.report.errors = [] → Retypes s.ast t.ast ∧
      (⟨t.ast, t.scope, t.report⟩ : Program).Checked) := by
  have declared' := declared
  obtain ⟨locals, topLevel, fresh, main, ⟨owners, sublist, owned, -⟩, -, signed, ready⟩ := declared
  obtain ⟨region, nodup, apart, inside⟩ := trees.regions_of_perm perm
  have deep' id (hid : id ∈ ids) : 2 * id + (region id).ehi ≤ n := by
    obtain ⟨-, lt, le⟩ := inside id hid
    exact (Nat.add_le_add (Nat.mul_le_mul_left 2 lt.le) le).trans deep
  simp only [bodies, post_bind, post_get, main, map_some, getD_some]
  have mainTrees := trees.sublist (filter_sublist (p := (!declares s.ast ·)))
  rw [← others] at mainTrees
  refine (functionBody_resolves locals main mainTrees deep).imp fun _ t ⟨walks, retains, locals', typed⟩ => ?_
  have owned' : Forall₂ (DeclaredBy t) owners ds := owned.imp fun i d h => h.retained retains
  have known d (hd : d ∈ ds) : ∃ function, t.scope.function? d.function = some function := by
    obtain ⟨function, found, -⟩ := signed d hd
    exact ⟨_, (walks.scope.functions _ _ found).choose_spec⟩
  refine (functionBodies_resolve (fun _ h _ h' => apart.forall h h') locals' owned'
    (fun id hid => sublist.subset hid) (sublist.nodup nodup) (fun id hid =>
    walks.tree (inside id hid).1) deep' known).imp fun _ u ⟨fills, typed'⟩ => ?_
  have grows := walks.scope.trans fills.scope
  have alike : Ast.Alike s.ast u.ast := ⟨fun e => (fills.exprShape e).trans (walks.exprShape e),
    fun i => (fills.stmtShape i).trans (walks.stmtShape i), fills.topLevel.trans walks.topLevel⟩
  refine ⟨alike, fun clean => ?_⟩
  have errors : u.report.errors = [] → s.report.errors = [] := fun clean => walks.errors (fills.errors clean)
  obtain ⟨ready1, slotted1, retypes1, inner, mainTyped⟩ :=
    typed (fills.errors clean) (ready (errors clean)) fresh.slotted
  obtain ⟨ready2, slotted2, retypes2, bodiesTyped⟩ := typed' clean ready1 slotted1
  refine ⟨retypes1.trans retypes2,
    declared'.checked grows alike (retains.trans fills.retains) errors clean ready2 slotted2 ?_⟩
  have shapes : ∀ {slo elo shi ehi : Nat} {ids : List StmtId}, StmtTrees s.ast slo elo ids shi ehi →
      StmtTrees u.ast slo elo ids shi ehi := fun trees =>
    (walks.trees trees).congr (fun i _ => (fills.stmtShape i).trans) fun i _ => (fills.exprShape i).trans
  intro f function hf
  obtain ⟨old, more, hold, rfl⟩ := grows.function_of hf
  obtain rfl | ⟨d, hd, rfl⟩ := declared'.main_or hold
  · obtain rfl := mem_unique main hold
    refine ⟨⟨_, _, _, _, shapes mainTrees⟩, inner, ?_⟩
    refine mainTyped.kept region fills.scope.ext (fun id hid => ?_) fun id hid => ?_
    · exact walks.tree (inside id (mem_of_mem_filter hid)).1
    · have other : declares s.ast id = false := by simpa using of_mem_filter hid
      exact fills.kept id (mem_of_mem_filter hid) (not_owner owned other)
  · obtain ⟨function, found, signs⟩ := signed d hd
    obtain rfl := mem_unique found hold
    obtain ⟨id, hid, declared⟩ := exists_of_forall₂ owned hd
    obtain ⟨more', hmore'⟩ := walks.scope.functions _ _ found
    have trees := body_trees (inside id (sublist.subset hid)).1 declared
    have typed := bodiesTyped d hd _ hmore'
    simp only [signs.body]
    exact ⟨⟨_, _, _, _, shapes trees⟩, typed⟩

/-- A program that is a forest and about which nothing is reported is checked, in whatever order its
functions are declared. -/
theorem program_resolves (bare : ast.Bare) (report : Report) (perm : ast.topLevel.Perm read)
    (others : ast.topLevel.filter (!declares ast ·) = read.filter (!declares ast ·))
    (trees : StmtTrees ast 0 0 read ast.statements.size ast.expressions.size) :
    Post program ⟨ast, .initial, [], Scope.main, report⟩ fun _ t =>
      Ast.Alike ast t.ast ∧ (t.report.errors = [] → Retypes ast t.ast ∧
      (⟨t.ast, t.scope, t.report⟩ : Program).Checked) := by
  have declared := declarations_declare bare report
  simp only [program, post_bind, post_get, post_pure] at declared ⊢
  refine declared.imp fun _ s next => next.imp fun _ t ⟨lists, declared⟩ => ?_
  have deep : 2 * ast.statements.size + ast.expressions.size ≤ 2 * ast.depth := by
    unfold Ast.depth
    omega
  simp only [← declares_congr lists] at others
  have checked := bodies_resolve declared perm others (lists.trees trees) deep
  simp only [bodies, post_bind, post_get] at checked
  refine checked.imp fun _ u next => next.imp fun _ v ⟨alike, checked⟩ => ?_
  exact ⟨lists.alike.trans alike, fun clean => (checked clean).imp_left (retypes_of_same lists.exprs).trans⟩

end Resolution

lemma Program.resolve_checked (bare : ast.Bare) (report : Report) (perm : ast.topLevel.Perm read)
    (others : ast.topLevel.filter (!declares ast ·) = read.filter (!declares ast ·))
    (trees : StmtTrees ast 0 0 read ast.statements.size ast.expressions.size) :
    Ast.Alike ast (Program.resolve ast report).ast ∧
    ((Program.resolve ast report).report.errors = [] → Resolution.Retypes ast
      (Program.resolve ast report).ast ∧ (Program.resolve ast report).Checked) := by
  have checked := Resolution.program_resolves bare report perm others trees
  unfold Post at checked
  unfold Program.resolve
  revert checked
  exact id

variable {text : List Char} {p : Program}

section

variable (h : Program.compile text = .ok p)

include h

lemma Program.of_compile : (Parser.parse (Token.tokenize text)).2.errors = [] ∧ p =
    Program.resolve (Parser.parse (Token.tokenize text)).1 (Parser.parse (Token.tokenize text)).2 ∧
    p.report.errors = [] := by
  have clean {report : Report} (h : ¬ report.hasErrors = true) : report.errors = [] := by
    simpa [Report.hasErrors] using h
  simp only [Program.compile] at h
  split_ifs at h with unread unresolved
  cases h
  exact ⟨clean unread, rfl, clean unresolved⟩

/-- An accepted program is checked, and has the nodes of a program that was read without errors. -/
lemma Program.read_of_compile : (∃ ast : Ast, ast.Whole ∧ ast.Alike p.ast) ∧ p.Checked := by
  obtain ⟨unread, rfl, clean⟩ := Program.of_compile h
  obtain ⟨whole, bare⟩ := Parser.parse_whole unread
  obtain ⟨alike, checked⟩ := Program.resolve_checked bare _ (.refl _) rfl (Parser.parse_forest unread)
  exact ⟨⟨_, whole, alike⟩, (checked clean).2⟩

/-- **An accepted program is checked.** -/
theorem Program.checked_of_compile : p.Checked :=
  (Program.read_of_compile h).2

lemma Program.errors_of_compile : p.report.errors = [] :=
  (Program.of_compile h).2.2

end

lemma Program.exists_of_check
    {check : Program → Bool} (h : ((Program.compile text).map check).toOption = some true) :
    ∃ p, Program.compile text = .ok p ∧ check p = true := by
  revert h
  cases Program.compile text with
  | error => exact nofun
  | ok p => exact fun h => ⟨p, rfl, some.inj h⟩

lemma exists_of_toBool {ε α : Type} {result : Except ε α} (h : result.toBool = true) : ∃ a, result = .ok a := by
  cases result with
  | ok a => exact ⟨a, rfl⟩
  | error _ => cases h

lemma exists_of_any {ε α : Type} {result : Except ε α} {check : α → Bool}
    (h : result.toOption.any check = true) : ∃ a, result = .ok a ∧ check a = true := by
  cases result with
  | error => cases h
  | ok a => exact ⟨a, rfl, h⟩

end EmLang
