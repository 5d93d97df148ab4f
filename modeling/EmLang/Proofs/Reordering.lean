import EmLang.Proofs.Accepting
import EmLang.Proofs.Lockstep

/-!
Programs whose functions are declared in another order. Declaring the functions reports nothing just
if their names and types are in order, and then every name is that of a function with the same types
in both programs. All bodies are looked at with these functions in scope, so what is found out about
one does not depend on those looked at before it: the one program is accepted just if the other is.
-/

namespace EmLang

open Ast List Option Scope Text

variable {function : Function} {n : Nat} {id : StmtId} {ast ast' : Ast}
  {report : Report}

/-! ### Declarations in another order -/

/-- The nodes are the same. Outside all bodies the declarations of functions may stand elsewhere,
and all other statements are in the same order. -/
structure Ast.Reordered (ast ast' : Ast) : Prop where
  statements : ast'.statements = ast.statements
  expressions : ast'.expressions = ast.expressions
  perm : ast'.topLevel.Perm ast.topLevel
  others : ast'.topLevel.filter (!declares ast ·) = ast.topLevel.filter (!declares ast ·)

namespace Ast.Reordered

variable (h : ast.Reordered ast')

include h

lemma nodes : ast.SameNodes ast' :=
  ⟨fun e => by rw [exprRead?, expr?, h.expressions]; rfl, fun id => by rw [stmtRead?, stmt?, h.statements]; rfl⟩

lemma declares (id : StmtId) : declares ast' id = EmLang.declares ast id := by
  simp only [EmLang.declares, h.nodes.stmtShape?]

lemma symm : ast'.Reordered ast where
  statements := h.statements.symm
  expressions := h.expressions.symm
  perm := h.perm.symm
  others := by simpa only [h.declares] using h.others.symm

lemma bare (bare : ast.Bare) : ast'.Bare := by
  intro id node here
  rw [stmt?, h.statements] at here
  exact bare id node here

lemma depth : ast'.depth = ast.depth := by rw [Ast.depth, Ast.depth, h.statements, h.expressions]

end Ast.Reordered

/-- The name of the function that the statement declares. -/
def Ast.declaredName? (ast : Ast) (id : StmtId) : Option String :=
  match ast.stmtShape? id with
  | some (.function _ name _ _ _ _) => some name.literal
  | _ => none

/-- All types that the declaration names are there. -/
def StmtKind.NamesTypes : StmtKind → Prop
  | .function _ _ parameters returnType _ _ => (Resolution.returnTypeOf returnType).isSome = true ∧
      ∀ parameter ∈ parameters, (Ty.ofName? parameter.ascription.typeName.literal).isSome = true
  | _ => True

/-- Functions can be declared under the names that are written, with the types that are written. -/
structure Ast.Declarable (ast : Ast) : Prop where
  names : (ast.topLevel.filterMap ast.declaredName?).Nodup
  free : ∀ name ∈ ast.topLevel.filterMap ast.declaredName?, name ≠ "main" ∧ Builtin.ofName? name = none
  types : ∀ id ∈ ast.topLevel, ∀ kind, ast.stmtShape? id = some kind → kind.NamesTypes

lemma Ast.SameNodes.declaredName? (h : ast.SameNodes ast') : ast'.declaredName? = ast.declaredName? := by
  funext id
  rw [Ast.declaredName?, Ast.declaredName?, h.stmtShape?]

lemma Ast.Declarable.reordered (h : ast.Declarable) (reordered : ast.Reordered ast') : ast'.Declarable := by
  have perm := reordered.perm.filterMap ast.declaredName?
  refine ⟨?_, fun name mem => ?_, fun id mem kind here => ?_⟩
  · rw [reordered.nodes.declaredName?]
    exact perm.nodup_iff.2 h.names
  · rw [reordered.nodes.declaredName?] at mem
    exact h.free name (perm.mem_iff.1 mem)
  · rw [reordered.nodes.stmtShape?] at here
    exact h.types id (reordered.perm.mem_iff.1 mem) kind here

namespace Resolution

variable {d : Declaration} {ds ds' : List Declaration} {ids : List StmtId} {s s' : State} {report' : Report}

/-! ### When declaring reports nothing -/

/-- Functions can be declared under all these names. -/
structure Free (scope : Scope) (names : List String) : Prop where
  nodup : names.Nodup
  unknown : ∀ name ∈ names, scope.lookup? name = none
  other : ∀ name ∈ names, Builtin.ofName? name = none

variable {scope scope' : Scope} {name : String} {f : FunId} {base base' : State}

lemma lookup?_eq_none_iff : scope.lookup? name = none ↔ ∀ function ∈ scope.functions, function.name ≠ name := by
  simp [lookup?, Array.findIdx?_eq_none_iff]

lemma free_congr (h : ∀ name, scope'.lookup? name = scope.lookup? name) (names : List String) :
    Free scope' names ↔ Free scope names :=
  ⟨fun ⟨nodup, unknown, other⟩ => ⟨nodup, fun name mem => (h name).symm.trans (unknown name mem), other⟩,
    fun ⟨nodup, unknown, other⟩ => ⟨nodup, fun name mem => (h name).trans (unknown name mem), other⟩⟩

/-- A function takes its name away from those declared later. -/
lemma free_cons_iff (created : scope.createFunction name id = .ok (scope', f))
    (other : Builtin.ofName? name = none) (names : List String) :
    Free scope' names ↔ Free scope (name :: names) := by
  unfold createFunction at created
  split at created
  · cases created
  · rename_i unknown
    obtain ⟨rfl, -⟩ := Prod.mk.inj (Except.ok.inj created)
    have taken name' : lookup? { scope with functions := scope.functions.push ⟨name, [], [], [],
        .void, some id⟩ } name' = none ↔ scope.lookup? name' = none ∧ name ≠ name' := by
      simp only [lookup?_eq_none_iff, Array.mem_push]
      exact ⟨fun h => ⟨fun function mem => h function (.inl mem), h _ (.inr rfl)⟩,
        fun ⟨old, new⟩ function mem => mem.elim (old function) fun same => same ▸ new⟩
    constructor
    · intro ⟨nodup, free, others⟩
      have fresh : name ∉ names := fun mem => ((taken name).1 (free name mem)).2 rfl
      exact ⟨nodup_cons.2 ⟨fresh, nodup⟩, forall_mem_cons.2 ⟨unknown,
        fun n mem => ((taken n).1 (free n mem)).1⟩, forall_mem_cons.2 ⟨other, others⟩⟩
    · intro ⟨nodup, free, others⟩
      obtain ⟨fresh, nodup⟩ := nodup_cons.1 nodup
      refine ⟨nodup, fun n mem => (taken n).2 ⟨free n (mem_cons_of_mem _ mem), ?_⟩,
        fun n mem => others n (mem_cons_of_mem _ mem)⟩
      rintro rfl
      exact fresh mem

lemma lookup?_modifyFunction {change : Function → Function} (scope : Scope) (f : FunId)
    (names : ∀ function, (change function).name = function.name) (name : String) :
    (scope.modifyFunction f change).lookup? name = scope.lookup? name := by
  have same : (scope.functions.modify f change).map Function.name = scope.functions.map Function.name := by
    refine Array.ext_getElem? fun g => ?_
    rw [Array.getElem?_map, Array.getElem?_map, Array.getElem?_modify]
    split
    · cases scope.functions[g]? <;> simp [names]
    · rfl
  rw [lookup?_eq, lookup?_eq, ← same]
  rfl

/-- A declaration is accepted just if its name is free. -/
lemma declareStatement_free (s : State) (id : StmtId) : Post (declareStatement id) s fun _ t =>
    s.ast.SameNodes t.ast ∧ ∀ names, t.report.errors = [] ∧ Free t.scope names ↔
    s.report.errors = [] ∧ Free s.scope ((s.ast.declaredName? id).toList ++ names) := by
  simp only [declareStatement, post_bind, post_get]
  split
  · rename_i keyword name parameters returnType body bound here
    have named : s.ast.declaredName? id = some name.literal := by
      simp only [declaredName?, stmtShape?_of_stmtKind here, StmtKind.erase]
    rw [named, toList_some]
    simp only [declareFunction, post_bind, post_get, post_pure]
    split
    · rename_i scope f made
      obtain ⟨other, created⟩ : Builtin.ofName? name.literal = none ∧
          s.scope.createFunction name.literal id = .ok (scope, f) := by
        split at made
        · cases made
        · rename_i other
          refine ⟨other, ?_⟩
          cases created : s.scope.createFunction name.literal id <;> simp_all [Except.toOption]
      exact ⟨.modifyStmt _ id (fun _ => by simp) fun _ => rfl, fun names => and_congr_right fun _ =>
        free_cons_iff created other names⟩
    · rename_i rejected
      refine ⟨.refl _, fun names => iff_of_false (fun both => Parser.add_errors_ne rfl both.1) ?_⟩
      rintro ⟨_, free⟩
      have unknown := free.unknown name.literal (by simp)
      rw [free.other name.literal (by simp), createFunction, unknown] at rejected
      cases rejected
  · rename_i other
    have unnamed : s.ast.declaredName? id = none := by
      unfold declaredName?
      split
      · rename_i here
        obtain ⟨node, found, erased⟩ := map_eq_some_iff.1 here
        cases kind : node.kind with
        | function => exact (other _ _ _ _ _ _ (by rw [found, map_some, kind])).elim
        | _ => simp [kind, StmtKind.erase] at erased
      · rfl
    rw [unnamed, toList_none]
    simp only [post_bind, post_modify, post_pure]
    refine ⟨.refl _, fun names => and_congr_right fun _ => free_congr ?_ names⟩
    exact lookup?_modifyFunction s.scope main fun _ => rfl

/-- All declarations are accepted just if their names are free. -/
lemma declareStatements_free (s : State) (ids : List StmtId) : Post (ids.mapM declareStatement) s
    fun _ t => s.ast.SameNodes t.ast ∧ ∀ names, t.report.errors = [] ∧ Free t.scope names ↔
    s.report.errors = [] ∧ Free s.scope (ids.filterMap s.ast.declaredName? ++ names) := by
  induction ids generalizing s with
  | nil =>
    rw [mapM_nil]
    exact ⟨.refl _, fun names => Iff.rfl⟩
  | cons id ids ih =>
    simp only [mapM_cons, post_bind, post_pure]
    refine (declareStatement_free s id).imp fun _ t ⟨nodes, first⟩ => (ih t).imp fun _ u ⟨nodes', later⟩ =>
      ⟨nodes.trans nodes', fun names => ?_⟩
    rw [later, nodes.declaredName?, first, ← append_assoc, filterMap_cons]
    cases s.ast.declaredName? id <;> rfl

/-- All types that the declaration names are there. -/
def Declaration.NamesTypes (d : Declaration) : Prop :=
  (StmtKind.function default default d.parameters d.returnType d.body none).NamesTypes

lemma typeNamed_clean (name : Span) (s : State) : Post (typeNamed name) s fun _ t => t.ast = s.ast ∧
      (t.report.errors = [] ↔ s.report.errors = [] ∧ (Ty.ofName? name.literal).isSome = true) := by
  unfold typeNamed
  cases Ty.ofName? name.literal with
  | some ty =>
    rw [post_pure]
    exact ⟨rfl, by simp⟩
  | none => exact ⟨rfl, iff_of_false (Parser.add_errors_ne rfl) fun h => nomatch h.2⟩

lemma declareParameters_clean (f : FunId) (parameters : List Parameter) (s : State) :
    Post (parameters.forM fun parameter => do
      let ty ← typeNamed parameter.ascription.typeName
      modify fun s => { s with scope :=
        (s.scope.declareVariable parameter.name.literal ty f true).1 }) s fun _ t =>
      t.ast = s.ast ∧ (t.report.errors = [] ↔ s.report.errors = [] ∧
        ∀ parameter ∈ parameters, (Ty.ofName? parameter.ascription.typeName.literal).isSome = true) := by
  induction parameters generalizing s with
  | nil =>
    rw [post_forM_nil]
    exact ⟨rfl, by simp⟩
  | cons parameter parameters ih =>
    simp only [post_forM_cons, post_bind, post_modify]
    refine (typeNamed_clean parameter.ascription.typeName s).imp fun ty t ⟨ast, clean⟩ =>
      (ih _).imp fun _ u ⟨ast', clean'⟩ =>
      ⟨ast'.trans ast, ?_⟩
    rw [clean', forall_mem_cons, ← and_assoc]
    exact and_congr_left fun _ => clean

/-- A signature is accepted just if its types are there. -/
lemma declareSignature_clean (d : Declaration) (s : State) : Post (declareSignature d) s fun _ t =>
    t.ast = s.ast ∧ (t.report.errors = [] ↔ s.report.errors = [] ∧ d.NamesTypes) := by
  have rest : ∀ {ty : Ty} {t : State}, t.ast = s.ast ∧
      (t.report.errors = [] ↔ s.report.errors = [] ∧ (returnTypeOf d.returnType).isSome = true) → Post (do
      modify fun s =>
        { s with scope := s.scope.modifyFunction d.function fun f =>
            { f with returnType := ty, body := d.body.statements } }
      d.parameters.forM fun parameter => do
        let ty ← typeNamed parameter.ascription.typeName
        modify fun s =>
          { s with scope :=
          (s.scope.declareVariable parameter.name.literal ty d.function true).1 }) t fun _ u =>
      u.ast = s.ast ∧ (u.report.errors = [] ↔ s.report.errors = [] ∧ d.NamesTypes) := by
    rintro ty t ⟨ast, clean⟩
    rw [post_bind, post_modify]
    refine (declareParameters_clean d.function d.parameters _).imp fun _ u ⟨ast', clean'⟩ =>
      ⟨ast'.trans ast, ?_⟩
    rw [clean', Declaration.NamesTypes, StmtKind.NamesTypes, ← and_assoc]
    exact and_congr_left fun _ => clean
  unfold declareSignature
  cases written : d.returnType with
  | some type =>
    rw [written] at rest
    dsimp only
    rw [post_bind]
    exact (typeNamed_clean type.typeName s).imp fun _ _ h => rest h
  | none =>
    rw [written] at rest
    exact rest ⟨rfl, by simp [returnTypeOf]⟩

lemma declareSignatures_clean (ds : List Declaration) (s : State) : Post (ds.forM declareSignature) s fun _ t =>
      t.ast = s.ast ∧ (t.report.errors = [] ↔ s.report.errors = [] ∧ ∀ d ∈ ds, d.NamesTypes) := by
  induction ds generalizing s with
  | nil =>
    rw [post_forM_nil]
    exact ⟨rfl, by simp⟩
  | cons d ds ih =>
    rw [post_forM_cons]
    refine (declareSignature_clean d s).imp fun _ t ⟨ast, clean⟩ =>
      (ih t).imp fun _ u ⟨ast', clean'⟩ => ⟨ast'.trans ast, ?_⟩
    rw [clean', forall_mem_cons, ← and_assoc]
    exact and_congr_left fun _ => clean

/-! ### The functions of both programs -/

/-- The functions of `ast` are declared, and no body has been looked at. -/
structure Begun (ast : Ast) (report : Report) (s : State) (ds : List Declaration) : Prop where
  nodes : ast.SameNodes s.ast
  declared : Declared s ast.topLevel ds
  clean : s.report.errors = [] ↔ report.errors = [] ∧ ast.Declarable

lemma DeclaredBy.namesTypes_iff {kind : StmtKind} (h : DeclaredBy s id d)
    (here : s.ast.stmtShape? id = some kind) : d.NamesTypes ↔ kind.NamesTypes := by
  obtain ⟨keyword, name, shape⟩ := h.shape
  obtain rfl := mem_unique shape here
  exact Iff.rfl

/-- The types that were found are those that are written. -/
lemma Listed.namesTypes_iff (listed : Listed s ids ds) (clean : s.report.errors = []) :
    (∀ d ∈ ds, d.NamesTypes) ↔ ∀ id ∈ ids, ∀ kind, s.ast.stmtShape? id = some kind → kind.NamesTypes := by
  obtain ⟨owners, sublist, declared, all, -⟩ := listed.owners
  constructor
  · intro known id mem kind here
    by_cases isDeclaration : declares s.ast id = true
    · have owner : id ∈ owners := all clean ▸ mem_filter.2 ⟨mem, isDeclaration⟩
      obtain ⟨d, hd, declaredBy⟩ := exists_of_forall₂ declared.flip owner
      exact (DeclaredBy.namesTypes_iff declaredBy here).1 (known d hd)
    · rw [declares_of_shape here] at isDeclaration
      cases kind with
      | function => exact absurd rfl isDeclaration
      | _ => trivial
  · intro written d hd
    obtain ⟨id, owner, declaredBy⟩ := exists_of_forall₂ declared hd
    obtain ⟨keyword, name, shape⟩ := declaredBy.shape
    exact (declaredBy.namesTypes_iff shape).2 (written id (sublist.subset owner) _ shape)

lemma free_initial_iff {names : List String} : Free .initial names ↔ names.Nodup ∧
    ∀ name ∈ names, name ≠ "main" ∧ Builtin.ofName? name = none := by
  have unknown name : initial.lookup? name = none ↔ name ≠ "main" := by
    rw [lookup?_eq_none_iff]
    simp [initial, eq_comm]
  exact ⟨fun ⟨nodup, free, other⟩ => ⟨nodup,
    fun name mem => ⟨(unknown name).1 (free name mem), other name mem⟩⟩, fun ⟨nodup, free⟩ =>
    ⟨nodup, fun name mem => (unknown name).2 (free name mem).1, fun name mem => (free name mem).2⟩⟩

/-- First the functions are declared, and then the bodies are looked at. -/
lemma program_begins (bare : ast.Bare) (report : Report) : ∃ s ds, Begun ast report s ds ∧ ∀ Q,
    Post (bodies (2 * ast.depth) ds) s Q → Post program ⟨ast, .initial, [], main, report⟩ Q := by
  have begun : Post (do
      let ds := (← ast.topLevel.mapM declareStatement).filterMap id
      ds.forM declareSignature
      return ds) ⟨ast, .initial, [], main, report⟩ fun ds t => Begun ast report t ds := by
    have declared := declarations_declare bare report
    simp only [post_bind, post_pure] at declared ⊢
    refine (declared.and ((declareStatements_list (listed_initial bare report) ast.topLevel).and
      (declareStatements_free _ ast.topLevel))).imp fun found s ⟨declared, ⟨lists, listed⟩, nodes, free⟩ => ?_
    rw [nil_append, nil_append] at listed
    refine (declared.and (declareSignatures_clean _ s)).imp fun _ t ⟨⟨_, declared⟩, same, clean⟩ => ?_
    refine ⟨same ▸ nodes, declared, ?_⟩
    have first : s.report.errors = [] ↔ report.errors = [] ∧
        Free .initial (ast.topLevel.filterMap ast.declaredName?) := by
      simpa using (and_iff_left ⟨nodup_nil, nofun, nofun⟩).symm.trans (free [])
    have shapes : (∀ id ∈ ast.topLevel, ∀ kind, s.ast.stmtShape? id = some kind → kind.NamesTypes) ↔
        ∀ id ∈ ast.topLevel, ∀ kind, ast.stmtShape? id = some kind → kind.NamesTypes := by
      simp only [nodes.stmtShape?]
    rw [clean, and_congr_right listed.namesTypes_iff, shapes, first, free_initial_iff, and_assoc]
    exact and_congr_right fun _ => ⟨fun ⟨⟨names, free⟩, types⟩ => ⟨names, free, types⟩,
      fun ⟨names, free, types⟩ => ⟨⟨names, free⟩, types⟩⟩
  exact ⟨_, _, begun, fun _ h => h⟩

lemma Declared.notMain (declared : Declared s ids ds) (hd : d ∈ ds) : d.function ≠ Scope.main := by
  have nodup : (Scope.main :: ds.map Declaration.function).Nodup := declared.functions ▸ nodup_range
  exact fun same => (nodup_cons.1 nodup).1 (same ▸ mem_map_of_mem hd)

/-- A call of a name that only one function has means that function. -/
lemma callee?_eq_some (names : ∀ f g function function', scope.function? f = some function →
      scope.function? g = some function' → function.name = function'.name → f = g)
    (found : scope.function? f = some function) (notMain : f ≠ main) :
    scope.callee? function.name = some f := by
  refine filter_eq_some_iff.2 ⟨?_, decide_eq_true notMain⟩
  cases first : scope.lookup? function.name with
  | none => exact absurd rfl (lookup?_eq_none_iff.1 first function (Array.mem_of_getElem? found))
  | some g =>
    obtain ⟨other, there, named⟩ := lookup?_function first
    rw [names g f other function there found named]

/-- What a call means: a function that was declared under that name. -/
lemma Declared.callee?_iff (declared : Declared s ids ds) : s.scope.callee? name = some f ↔
      ∃ d ∈ ds, d.function = f ∧ ∃ function, s.scope.function? f = some function ∧ function.name = name := by
  constructor
  · intro h
    obtain ⟨found, notMain⟩ := filter_eq_some_iff.1 h
    obtain ⟨function, here, named⟩ := lookup?_function found
    have mem : f ∈ Scope.main :: ds.map Declaration.function :=
      declared.functions ▸ mem_range.2 (Array.getElem?_eq_some_iff.1 here).1
    obtain rfl | mem := mem_cons.1 mem
    · simp at notMain
    · obtain ⟨d, hd, same⟩ := mem_map.1 mem
      exact ⟨d, hd, same, function, here, named⟩
  · rintro ⟨d, hd, rfl, function, here, rfl⟩
    exact callee?_eq_some declared.fresh.names here (declared.notMain hd)

lemma sameVariables {parameters : List Parameter} {vs vs' : List VarId}
    (h : Forall₂ (Binds scope) vs parameters) (h' : Forall₂ (Binds scope') vs' parameters) :
    Forall₂ (Scope.SameVariable scope scope') vs vs' := by
  induction h generalizing vs' with
  | nil =>
    obtain _ | _ := h'
    exact .nil
  | cons head _ ih =>
    obtain _ | ⟨head', tail'⟩ := h'
    obtain ⟨x, hx, name, ty⟩ := head
    obtain ⟨x', hx', name', ty'⟩ := head'
    exact .cons ⟨x, x', hx, hx', name'.trans name.symm, ty'.trans ty.symm⟩ (ih tail')

section

variable (begun : Begun ast report s ds) (begun' : Begun ast' report' s' ds')
  (reordered : ast.Reordered ast') (clean : s.report.errors = []) (clean' : s'.report.errors = [])

include begun begun' reordered clean clean'

lemma Begun.declaration (hd : d ∈ ds) :
    ∃ d' ∈ ds', d'.body = d.body ∧ SameFunction s.scope s'.scope d.function d'.function ∧
      ∀ function, s.scope.function? d.function = some function →
        ∃ function', s'.scope.function? d'.function = some function' ∧ function'.name = function.name := by
  obtain ⟨owners, sublist, declared, -, -⟩ := begun.declared.owners
  obtain ⟨owners', -, declared', all', -⟩ := begun'.declared.owners
  obtain ⟨id, owner, declaredBy⟩ := exists_of_forall₂ declared hd
  have nodes : s.ast.SameNodes s'.ast := begun.nodes.symm.trans (reordered.nodes.trans begun'.nodes)
  have owner' : id ∈ owners' := by
    rw [all' clean', mem_filter]
    refine ⟨reordered.perm.mem_iff.2 (sublist.subset owner), ?_⟩
    simpa only [declares, nodes.stmtShape?] using declaredBy.declares
  obtain ⟨d', hd', declaredBy'⟩ := exists_of_forall₂ declared'.flip owner'
  obtain ⟨function, found, signs⟩ := begun.declared.bodies d hd
  obtain ⟨function', found', signs'⟩ := begun'.declared.bodies d' hd'
  obtain ⟨keyword, name, old, here, there, named, -⟩ := declaredBy
  obtain ⟨keyword', name', old', here', there', named', -⟩ := declaredBy'
  have shape := stmtShape?_of_stmtKind here
  rw [← nodes.stmtShape?, stmtShape?_of_stmtKind here'] at shape
  obtain ⟨-, rfl, parameters, returnType, body, -⟩ := StmtKind.function.inj (some.inj shape)
  obtain rfl := mem_unique there found
  obtain rfl := mem_unique there' found'
  refine ⟨d', hd', body, ⟨old, old', found, found', ?_,
    sameVariables signs.parameters (parameters ▸ signs'.parameters)⟩, fun function here => ?_⟩
  · have returns := signs'.returns clean'
    rw [returnType, signs.returns clean] at returns
    exact (some.inj returns).symm
  · obtain rfl := mem_unique found here
    exact ⟨old', found', named'.trans named.symm⟩

lemma Begun.callee (h : s.scope.callee? name = some f) :
    ∃ f', s'.scope.callee? name = some f' ∧ SameFunction s.scope s'.scope f f' := by
  obtain ⟨d, hd, rfl, function, here, named⟩ := begun.declared.callee?_iff.1 h
  obtain ⟨d', hd', -, same, names⟩ := begun.declaration begun' reordered clean clean' hd
  obtain ⟨function', here', named'⟩ := names function here
  exact ⟨d'.function, begun'.declared.callee?_iff.2 ⟨d', hd', rfl, function', here', named'.trans named⟩, same⟩

/-- Calls mean functions of the same types. -/
lemma Begun.sameCalls : s.scope.SameCalls s'.scope := by
  intro name
  cases found : s.scope.callee? name with
  | some f =>
    obtain ⟨f', found', same⟩ := begun.callee begun' reordered clean clean' found
    rw [found']
    exact .some same
  | none =>
    cases found' : s'.scope.callee? name with
    | some f' =>
      obtain ⟨f, found'', -⟩ := begun'.callee begun reordered.symm clean' clean found'
      rw [found] at found''
      cases found''
    | none => exact .none

end

/-! ### Bodies one after the other -/

/-- The same functions are declared in both. -/
structure Common (base base' : State) : Prop where
  nodes : base.ast.SameNodes base'.ast
  sound : ∀ e place, base.ast.exprShape? e ≠ some (.error place)
  calls : base.scope.SameCalls base'.scope

/-- Since `base` bodies have been looked at, and none is open. -/
structure Rests (base s : State) : Prop where
  nodes : base.ast.SameNodes s.ast
  scope : base.scope.Grows s.scope
  locals : s.locals = []

/-- The function is the main function in both or in none, and takes and returns the same types. -/
def Paired (base base' : State) (f f' : FunId) : Prop :=
  (f' = main ↔ f = main) ∧ SameFunction base.scope base'.scope f f'

lemma Rests.refl (locals : base.locals = []) : Rests base base := ⟨.refl _, .refl _, locals⟩

/-- About the same body the same is reported, whatever bodies were looked at before. -/
lemma functionBody_together {f' : FunId} (common : Common base base') (rests : Rests base s)
    (rests' : Rests base' s') (paired : Paired base base' f f') (n : Nat) (ids : List StmtId) :
    Post (functionBody n f ids) s fun _ t => Post (functionBody n f' ids) s' fun _ t' =>
      Rests base t ∧ Rests base' t' ∧
        ∃ more, t.report.errors = s.report.errors ++ more ∧ t'.report.errors = s'.report.errors ++ more := by
  have inside := paired.2.grown rests.scope rests'.scope
  have twins : Twins { s with function := f } { s' with function := f' } := by
    refine ⟨rests.nodes.symm.trans (common.nodes.trans rests'.nodes), fun e place => ?_,
      common.calls.grown rests.scope rests'.scope, ?_, paired.1, inside⟩
    · rw [rests.nodes.exprShape?]
      exact common.sound e place
    · simp only [SameLocals, rests.locals, rests'.locals]
      exact .nil
  obtain ⟨function, function', here, here', -, parameters⟩ := inside
  simp only [functionBody, post_bind, post_modify, post_get, here, here', map_some, getD_some]
  refine (inBody_keeps (walksAlike n) ids twins (rel_reverse parameters)).imp fun _ t next =>
    next.imp fun _ t' h => ?_
  obtain ⟨⟨first, second, -, errors⟩, locals, locals'⟩ := h
  exact ⟨⟨rests.nodes.trans first.nodes, rests.scope.trans first.scope, locals.trans rests.locals⟩,
    ⟨rests'.nodes.trans second.nodes, rests'.scope.trans second.scope, locals'.trans rests'.locals⟩, errors⟩

/-- About the body nothing is reported. -/
def Quiet (n : Nat) (base : State) (d : Declaration) : Prop :=
  ∃ s, Rests base s ∧ Post (functionBody n d.function d.body.statements) s fun _ t =>
  t.report.errors = s.report.errors

/-- If nothing is reported in the end, nothing was reported about any body. -/
lemma functionBodies_quiet (common : Common base base)
    (paired : ∀ d ∈ ds, Paired base base d.function d.function) (rests : Rests base s) :
    Post (ds.forM fun d => functionBody n d.function d.body.statements) s fun _ t =>
      Rests base t ∧ (t.report.errors = [] → s.report.errors = [] ∧ ∀ d ∈ ds, Quiet n base d) := by
  induction ds generalizing s with
  | nil =>
    rw [post_forM_nil]
    exact ⟨rests, fun clean => ⟨clean, by simp⟩⟩
  | cons d ds ih =>
    obtain ⟨head, tail⟩ := forall_mem_cons.1 paired
    rw [post_forM_cons]
    have body := functionBody_together common rests rests head n d.body.statements
    refine body.imp fun _ t next => ?_
    obtain ⟨rests', -, more, errors, errors'⟩ := next
    refine (ih tail rests').imp fun _ u ⟨rests'', clean⟩ => ⟨rests'', fun h => ?_⟩
    obtain ⟨clean', quiet⟩ := clean h
    rw [errors, append_eq_nil_iff] at clean'
    refine ⟨clean'.1, forall_mem_cons.2 ⟨⟨s, rests, ?_⟩, quiet⟩⟩
    rw [clean'.2, append_nil] at errors'
    exact errors'

/-- Nothing is reported about bodies about which nothing is reported in another program. -/
lemma functionBodies_clean
    (common : Common base base') (quiet : ∀ d' ∈ ds, ∃ d, d'.body.statements = d.body.statements ∧
      Paired base base' d.function d'.function ∧ Quiet n base d) (rests : Rests base' s') :
    Post (ds.forM fun d => functionBody n d.function d.body.statements) s' fun _ t =>
      Rests base' t ∧ t.report.errors = s'.report.errors := by
  induction ds generalizing s' with
  | nil => exact ⟨rests, rfl⟩
  | cons d' ds ih =>
    obtain ⟨⟨d, same, paired, s, rests', silent⟩, tail⟩ := forall_mem_cons.1 quiet
    rw [post_forM_cons]
    have body := functionBody_together common rests' rests paired n d.body.statements
    rw [← same] at body silent
    obtain ⟨next, silent⟩ := body.and silent
    refine next.imp fun _ t ⟨_, rests'', more, errors, errors'⟩ => ?_
    have none : more = [] := self_eq_append_right.1 (silent.symm.trans errors)
    rw [none, append_nil] at errors'
    exact (ih tail rests'').imp fun _ u ⟨rests, errors⟩ => ⟨rests, errors.trans errors'⟩

/-! ### Programs -/

/-- The main function, as if it were declared. -/
def mainDeclaration (body : List StmtId) : Declaration := ⟨main, [], none, ⟨default, body, default⟩⟩

section

/-- All functions, the main function first. -/
def Declared.all (_ : Declared s ids ds) : List Declaration :=
  mainDeclaration (ids.filter (!declares s.ast ·)) :: ds

variable (declared : Declared s ids ds)

include declared

lemma Declared.post_bodies {Q : PUnit.{1} → State → Prop}
    (h : Post (declared.all.forM fun d => functionBody n d.function d.body.statements) s Q) :
    Post (Resolution.bodies n ds) s Q := by
  simp only [Resolution.bodies, post_bind, post_get, declared.main, map_some, getD_some]
  exact h

lemma Declared.exists_of_function
    (found : s.scope.function? f = some function) : ∃ d ∈ declared.all, d.function = f := by
  have functions : declared.all.map Declaration.function = range s.scope.functions.size := declared.functions
  have mem : f ∈ declared.all.map Declaration.function :=
    functions ▸ mem_range.2 (Array.getElem?_eq_some_iff.1 found).1
  exact mem_map.1 mem

lemma Declared.body (hd : d ∈ declared.all)
    (found : s.scope.function? d.function = some function) : function.body = d.body.statements := by
  obtain rfl | hd := mem_cons.1 hd
  · obtain rfl := mem_unique declared.main found
    rfl
  · obtain ⟨function', found', signs⟩ := declared.bodies d hd
    obtain rfl := mem_unique found' found
    exact signs.body

lemma Declared.paired (hd : d ∈ declared.all) : Paired s s d.function d.function := by
  refine ⟨Iff.rfl, ?_⟩
  obtain rfl | hd := mem_cons.1 hd
  · exact ⟨_, _, declared.main, declared.main, rfl, .nil⟩
  · obtain ⟨function, found, signs⟩ := declared.bodies d hd
    exact ⟨function, function, found, found, rfl, sameVariables signs.parameters signs.parameters⟩

lemma Declared.common (sound : ∀ e place, s.ast.exprShape? e ≠ some (.error place)) : Common s s := by
  refine ⟨.refl _, sound, fun name => ?_⟩
  cases found : s.scope.callee? name with
  | none => exact .none
  | some f =>
    obtain ⟨d, hd, rfl, -⟩ := declared.callee?_iff.1 found
    exact .some (declared.paired (mem_cons_of_mem _ hd)).2

end

lemma Begun.exists_paired (begun : Begun ast report s ds) (begun' : Begun ast' report' s' ds')
    (reordered : ast.Reordered ast') (clean : s.report.errors = []) (clean' : s'.report.errors = [])
    (hd : d ∈ begun.declared.all) : ∃ d' ∈ begun'.declared.all, d'.body.statements =
    d.body.statements ∧ Paired s s' d.function d'.function := by
  obtain rfl | hd := mem_cons.1 hd
  · refine ⟨_, mem_cons_self, ?_, Iff.rfl, _, _, begun.declared.main, begun'.declared.main, rfl, .nil⟩
    show ast'.topLevel.filter (!declares s'.ast ·) = ast.topLevel.filter (!declares s.ast ·)
    simpa only [declares, begun.nodes.stmtShape?, begun'.nodes.stmtShape?,
      reordered.nodes.stmtShape?] using reordered.others
  · obtain ⟨d', hd', body, same, -⟩ := begun.declaration begun' reordered clean clean' hd
    exact ⟨d', mem_cons_of_mem _ hd', congrArg Body.statements body,
      iff_of_false (begun'.declared.notMain hd') (begun.declared.notMain hd), same⟩

end Resolution

namespace Program

open Resolution

lemma exists_of_post {Q : State → Prop} (h : Post program ⟨ast, .initial, [], main, report⟩ fun _ t => Q t) :
    ∃ t, resolve ast report = ⟨t.ast, t.scope, t.report⟩ ∧ Q t :=
  ⟨_, rfl, h⟩

/-- Both have the same nodes, and functions with the same types and bodies. -/
structure Matches (p p' : Program) : Prop where
  nodes : p.ast.SameNodes p'.ast
  calls : p.scope.SameCalls p'.scope
  functions : ∀ f function, p.scope.function? f = some function →
    ∃ f' function', p'.scope.function? f' = some function' ∧ function'.body = function.body ∧
    p.scope.SameFunction p'.scope f f' ∧ (f' = main ↔ f = main)

/-- **A program is accepted in whatever order its functions are declared**, and has the same
functions then. -/
theorem resolve_matches (bare : ast.Bare) (sound : ∀ e place, ast.exprShape? e ≠ some (.error place))
    (reordered : ast.Reordered ast') (clean : (resolve ast report).report.errors = []) :
    (resolve ast' report).report.errors = [] ∧ (resolve ast report).Matches (resolve ast' report) := by
  obtain ⟨s, ds, begun, run⟩ := program_begins bare report
  obtain ⟨s', ds', begun', run'⟩ := program_begins (reordered.bare bare) report
  have sound' e place : s.ast.exprShape? e ≠ some (.error place) := begun.nodes.exprShape? e ▸ sound e place
  -- nothing is reported about any body, as nothing is reported in the end
  have quiet := functionBodies_quiet (begun.declared.common sound') (n := 2 * ast.depth)
    (fun d => begun.declared.paired) (.refl begun.declared.locals)
  obtain ⟨t, same, rests, quiet⟩ := exists_of_post (run _ (begun.declared.post_bodies quiet))
  rw [same] at clean ⊢
  obtain ⟨clean, quiet⟩ := quiet clean
  obtain ⟨unreported, declarable⟩ := begun.clean.1 clean
  have clean' := begun'.clean.2 ⟨unreported, declarable.reordered reordered⟩
  have common : Common s s' := ⟨begun.nodes.symm.trans (reordered.nodes.trans begun'.nodes), sound',
    begun.sameCalls begun' reordered clean clean'⟩
  have silent d' (hd' : d' ∈ begun'.declared.all) : ∃ d, d'.body.statements = d.body.statements ∧
      Paired s s' d.function d'.function ∧ Quiet (2 * ast.depth) s d := by
    obtain ⟨d, hd, body, main, same⟩ := begun'.exists_paired begun reordered.symm clean' clean hd'
    exact ⟨d, body.symm, ⟨main.symm, same.symm⟩, quiet d hd⟩
  have bodies := functionBodies_clean common silent (.refl begun'.declared.locals)
  rw [reordered.depth] at run'
  obtain ⟨t', same', rests', errors⟩ := exists_of_post (run' _ (begun'.declared.post_bodies bodies))
  rw [same']
  refine ⟨errors.trans clean', rests.nodes.symm.trans (common.nodes.trans rests'.nodes),
    common.calls.grown rests.scope rests'.scope, fun f function found => ?_⟩
  obtain ⟨old, more, hold, rfl⟩ := rests.scope.function_of found
  obtain ⟨d, hd, rfl⟩ := begun.declared.exists_of_function hold
  obtain ⟨d', hd', body, main, paired⟩ := begun.exists_paired begun' reordered clean clean' hd
  obtain ⟨-, old', -, hold', -⟩ := id paired
  obtain ⟨more', hmore'⟩ := rests'.scope.functions _ _ hold'
  refine ⟨d'.function, _, hmore', ?_, paired.grown rests.scope rests'.scope, main⟩
  exact (begun'.declared.body hd' hold').trans (body.trans (begun.declared.body hd hold).symm)

end Program

end EmLang
