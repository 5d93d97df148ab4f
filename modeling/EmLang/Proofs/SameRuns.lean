import EmLang.Proofs.LexicalScoping
import EmLang.Proofs.Lockstep

/-!
Runs that are the same. The evaluator follows the names that are written and never looks at what was
reported before. So two programs with the same nodes and the same declarations come to the same end,
whatever their variables and functions are in the tables.
-/

namespace EmLang

open List Option Text

namespace Lexical

/-! ### Runs by names -/

/-- The same nodes, and the same declaration of every name. -/
structure SameNames (ast ast' : Ast) : Prop where
  nodes : ast.SameNodes ast'
  declarations : ∀ name, findDeclaration ast' name = findDeclaration ast name

/-- With the bound `n` on the depth, both are run in the same way. -/
structure SameAt (ast ast' : Ast) (clock : Nat → Int64) (n : Nat) : Prop where
  expression : expression ⟨ast', clock⟩ n = expression ⟨ast, clock⟩ n
  call : call ⟨ast', clock⟩ n = call ⟨ast, clock⟩ n
  block : block ⟨ast', clock⟩ n = block ⟨ast, clock⟩ n
  statement : statement ⟨ast', clock⟩ n = statement ⟨ast, clock⟩ n
  loop : loop ⟨ast', clock⟩ n = loop ⟨ast, clock⟩ n

variable {ast ast' : Ast} {clock : Nat → Int64} {n : Nat}

lemma callBuiltin_eq (ast ast' : Ast) (b : Builtin) (values : List Value) :
    Eval.callBuiltin ⟨ast', .initial, clock⟩ b values = Eval.callBuiltin ⟨ast, .initial, clock⟩ b values := by
  cases b <;> rfl

lemma expression_eq (same : SameNames ast ast') (ih : SameAt ast ast' clock n) :
    expression ⟨ast', clock⟩ (n + 1) = expression ⟨ast, clock⟩ (n + 1) := by
  funext e
  rw [expression, expression]
  have nodes := same.nodes.expr e
  generalize ast.expr? e = found at nodes ⊢
  generalize ast'.expr? e = found' at nodes ⊢
  obtain ⟨erased, span⟩ | _ := nodes
  swap
  · rfl
  rename_i node node'
  have read := ExprKind.readAs erased
  simp only [span, ih.expression, ih.call, callBuiltin_eq ast ast']
  cases kind : node.kind with
  | var | assign | call =>
    rw [kind] at read
    obtain ⟨_, kind'⟩ := read
    rw [kind']
  | _ =>
    rw [kind] at read
    rw [show node'.kind = _ from read]

lemma statement_eq (same : SameNames ast ast') (ih : SameAt ast ast' clock n) :
    statement ⟨ast', clock⟩ (n + 1) = statement ⟨ast, clock⟩ (n + 1) := by
  funext id
  rw [statement, statement]
  have nodes := same.nodes.stmt id
  generalize ast.stmt? id = found at nodes ⊢
  generalize ast'.stmt? id = found' at nodes ⊢
  obtain ⟨erased, -⟩ | _ := nodes
  swap
  · rfl
  rename_i node node'
  have read := StmtKind.readAs erased
  simp only [ih.expression, ih.block, ih.loop]
  cases kind : node.kind with
  | letVar | function =>
    rw [kind] at read
    obtain ⟨_, kind'⟩ := read
    rw [kind']
  | _ =>
    rw [kind] at read
    rw [show node'.kind = _ from read]

theorem sameAt (same : SameNames ast ast') (clock : Nat → Int64) : ∀ n, SameAt ast ast' clock n
  | 0 => {
      expression := by funext e; rw [expression, expression]
      call := by funext name arguments; rw [call, call]
      block := by funext ids; rw [block, block]
      statement := by funext id; rw [statement, statement]
      loop := by funext condition ids; rw [loop, loop] }
  | n + 1 =>
    have ih := sameAt same clock n
    { expression := expression_eq same ih
      call := by
        funext name arguments
        rw [call, call]
        simp only [same.declarations, ih.block]
      block := by
        funext ids
        rw [block, block, ih.statement]
      statement := statement_eq same ih
      loop := by
        funext condition ids
        rw [loop, loop]
        simp only [ih.expression, ih.block, ih.loop] }

/-- The first declaration of a name is the only one, in whatever order they stand. -/
lemma find?_eq_of_perm {α : Type} {p : α → Bool} {l l' : List α} (perm : l'.Perm l)
    (unique : ∀ a ∈ l, ∀ b ∈ l, p a = true → p b = true → a = b) : l'.find? p = l.find? p := by
  cases found : l.find? p with
  | none =>
    rw [find?_eq_none] at found ⊢
    exact fun a mem => found a (perm.mem_iff.1 mem)
  | some a =>
    have mem := mem_of_find?_eq_some found
    have holds := find?_some found
    cases found' : l'.find? p with
    | none => exact absurd holds (find?_eq_none.1 found' a (perm.mem_iff.2 mem))
    | some b =>
      have mem' := perm.mem_iff.1 (mem_of_find?_eq_some found')
      rw [unique b mem' a mem (find?_some found') holds]

end Lexical

namespace Program

open Lexical

lemma declaration?_erase (kind : StmtKind) : declaration? kind.erase = declaration? kind :=
    by cases kind <;> rfl

/-- No two statements of a checked program declare functions of the same name. -/
lemma Checked.declaration_unique {p : Program} (checked : p.Checked) {id id' : StmtId}
    (mem : id ∈ p.ast.topLevel) (mem' : id' ∈ p.ast.topLevel) {d d' : Lexical.Declaration}
    (here : (p.ast.stmt? id).bind (declaration? ·.kind) = some d) (here' : (p.ast.stmt? id').bind
      (declaration? ·.kind) = some d') (same : d.name = d'.name) : d = d' := by
  have listed : ∀ {id : StmtId} {d : Lexical.Declaration}, id ∈ p.ast.topLevel →
      (p.ast.stmt? id).bind (declaration? ·.kind) = some d → ∃ f function, p.scope.function? f =
      some function ∧ function.name = d.name ∧ function.declaration = some id := by
    intro id d mem here
    obtain ⟨node, hnode, hkind⟩ := bind_eq_some_iff.1 here
    have kind : p.ast.stmtKind? id = some node.kind := by rw [Ast.stmtKind?, hnode]; rfl
    have declares : declares p.ast id = true := by
      rw [declares_of_shape (Ast.stmtShape?_of_stmtKind kind), StmtKind.isDeclaration_erase]
      cases hk : node.kind with
      | function => rfl
      | _ =>
        rw [hk] at hkind
        cases hkind
    obtain ⟨f, function, found, -, keyword, name, parameters, returnType, body, written, named,
      declaration, -⟩ := checked.listed id mem declares
    refine ⟨f, function, found, named.trans ?_, declaration⟩
    rw [mem_unique kind written] at hkind
    cases hkind
    rfl
  obtain ⟨f, function, found, named, declaration⟩ := listed mem here
  obtain ⟨f', function', found', named', declaration'⟩ := listed mem' here'
  obtain rfl := checked.names f f' function function' found found' (named.trans (same.trans named'.symm))
  obtain rfl := mem_unique found found'
  obtain rfl := mem_unique declaration declaration'
  exact mem_unique here here'

/-- The declarations stand in another order, and each name has only one. -/
lemma Checked.sameNames {p p' : Program} (checked : p.Checked) (nodes : p.ast.SameNodes p'.ast)
    (perm : p'.ast.topLevel.Perm p.ast.topLevel) : SameNames p.ast p'.ast := by
  refine ⟨nodes, fun name => ?_⟩
  have same : (fun id => (p'.ast.stmt? id).bind (declaration? ·.kind)) = fun id =>
      (p.ast.stmt? id).bind (declaration? ·.kind) := by
    funext id
    have node := nodes.stmt id
    generalize p.ast.stmt? id = found at node ⊢
    generalize p'.ast.stmt? id = found' at node ⊢
    obtain ⟨erased, -⟩ | _ := node
    · rw [bind_some, bind_some, ← declaration?_erase, erased, declaration?_erase]
    · rfl
  unfold findDeclaration
  rw [same]
  refine find?_eq_of_perm (perm.filterMap _) fun d mem d' mem' named named' => ?_
  obtain ⟨id, listed, here⟩ := mem_filterMap.1 mem
  obtain ⟨id', listed', here'⟩ := mem_filterMap.1 mem'
  exact checked.declaration_unique listed listed' here here'
    ((of_decide_eq_true named).trans (of_decide_eq_true named').symm)

/-- Both runs come to the same end, in states that differ in the open calls only, and report the
same behind what was reported before. -/
theorem Checked.runs_same {p p' : Program} (checked : p.Checked) (checked' : p'.Checked)
    (nodes : p.ast.SameNodes p'.ast) (perm : p'.ast.topLevel.Perm p.ast.topLevel)
    (others : p'.ast.topLevel.filter (!declares p.ast ·) = p.ast.topLevel.filter (!declares p.ast ·))
    (clock : Nat → Int64) (fuel : Nat) : (p'.run clock fuel).1 = (p.run clock fuel).1 ∧
    ∃ s : Eval.State, { (p.run clock fuel).2 with frames := [] } = s.under p.report ∧
    { (p'.run clock fuel).2 with frames := [] } = s.under p'.report := by
  have names := checked.sameNames nodes perm
  have outside : p'.ast.topLevel.filter (!declares p'.ast ·) = p.ast.topLevel.filter (!declares p.ast ·) := by
    simpa only [declares, nodes.stmtShape?] using others
  have same : Lexical.main ⟨p'.ast, clock⟩ fuel = Lexical.main ⟨p.ast, clock⟩ fuel := by
    simp only [Lexical.main, outside, (sameAt names clock fuel).block]
  have start report : bare (.start report) = Eval.State.under report (.start .empty) := by
    simp [Eval.State.start, Eval.State.under, bare, Report.append, Report.empty]
  obtain ⟨result, core⟩ := (main_agrees clock checked fuel (start p.report)).same
  obtain ⟨result', core'⟩ := (main_agrees clock checked' fuel (start p'.report)).same
  rw [same] at result' core'
  exact ⟨result'.symm.trans result, _, core, core'⟩

end Program

end EmLang
