import EmLang.Proofs.SameBlocks
import EmLang.Proofs.SameRuns

/-!
The order of function declarations does not matter. A program whose declarations stand elsewhere
among its statements is accepted just if the program is, runs in the same way, and has blocks just
if the program has.
-/

namespace EmLang

open Eval.State

/-! ### Nodes of a program that was read -/

section

variable {ast : Ast}

lemma StmtTrees.tree_of_mem {slo elo shi ehi : Nat}
    {ids : List StmtId} (trees : StmtTrees ast slo elo ids shi ehi) {id : StmtId} (mem : id ∈ ids) :
    ∃ slo elo ehi, StmtTree ast slo elo id ehi := by
  obtain ⟨region, -, inside⟩ := trees.regions
  exact ⟨_, _, _, (inside id mem).1⟩

variable {slo elo shi ehi : Nat}

variable (whole : ast.Whole) (trees : StmtTrees ast slo elo ast.topLevel shi ehi)

include whole trees

lemma Ast.Whole.stmtTree {id : StmtId} {kind : StmtKind}
    (here : ast.stmtShape? id = some kind) : ∃ slo elo ehi, StmtTree ast slo elo id ehi := by
  -- a statement stands outside all bodies or in a statement behind it
  induction left : ast.statements.size - id using Nat.strong_induction_on generalizing id kind with
  | _ left ih =>
    obtain outside | ⟨parent, above, there, mem, lt⟩ := whole.stmts id kind here
    · exact trees.tree_of_mem outside
    · have fewer := Nat.sub_lt_sub_left (Ast.lt_size_of_stmtShape here) lt
      obtain ⟨slo, elo, ehi, tree⟩ := ih _ (left ▸ fewer) there rfl
      obtain ⟨here', -, below, -⟩ := tree
      obtain rfl := Option.mem_unique there here'
      exact below.tree_of_mem mem

lemma Ast.Whole.exprTree {e : ExprId} {kind : ExprKind}
    (here : ast.exprShape? e = some kind) : ∃ lo, ExprTree ast lo e := by
  -- an expression stands in an expression behind it or in a statement
  induction left : ast.expressions.size - e using Nat.strong_induction_on generalizing e kind with
  | _ left ih =>
    obtain ⟨parent, above, there, mem, lt⟩ | ⟨id, above, there, mem⟩ := whole.exprs e kind here
    · have fewer := Nat.sub_lt_sub_left (Ast.lt_size_of_exprShape here) lt
      obtain ⟨lo, tree⟩ := ih _ (left ▸ fewer) there rfl
      obtain ⟨here', -, below, -⟩ := tree
      obtain rfl := Option.mem_unique there here'
      exact below.tree_of_mem mem
    · obtain ⟨slo, elo, ehi, tree⟩ := whole.stmtTree trees there
      obtain ⟨here', own, -, -⟩ := tree
      obtain rfl := Option.mem_unique there here'
      exact own.tree_of_mem mem

lemma Ast.Whole.sound (e : ExprId) (place : Text.Span) :
    ast.exprShape? e ≠ some (.error place) := by
  intro here
  obtain ⟨lo, tree⟩ := whole.exprTree trees here
  obtain ⟨here', sound, -, -⟩ := tree
  exact sound place (Option.mem_unique here' here)

end

namespace Program

/-! ### Programs whose declarations stand elsewhere -/

/-- Both runs come to the same value or fault and print the same. What they report stands behind
what was reported before. -/
structure SameRun (p p' : Program) (clock : Nat → Int64) (fuel : Nat) : Prop where
  result : (p'.run clock fuel).1 = (p.run clock fuel).1
  output : (p'.run clock fuel).2.output = (p.run clock fuel).2.output
  notes : (p'.run clock fuel).2.notes = (p.run clock fuel).2.notes
  faults : ∃ faults : Report, (p.run clock fuel).2.report = p.report.append faults ∧
    (p'.run clock fuel).2.report = p'.report.append faults

lemma hasErrors_eq_false_iff {report : Report} : report.hasErrors = false ↔ report.errors = [] := by
  simp [Report.hasErrors]

lemma Checked.sameRun {p p' : Program} (checked : p.Checked) (checked' : p'.Checked)
    (nodes : p.ast.SameNodes p'.ast) (perm : p'.ast.topLevel.Perm p.ast.topLevel)
    (others : p'.ast.topLevel.filter (!declares p.ast ·) = p.ast.topLevel.filter
      (!declares p.ast ·)) (clock : Nat → Int64) (fuel : Nat) : p.SameRun p' clock fuel := by
  obtain ⟨result, s, first, second⟩ := checked.runs_same checked' nodes perm others clock fuel
  refine ⟨result, ?_, ?_, s.report, congrArg Eval.State.report first, congrArg Eval.State.report second⟩
  · exact (congrArg output second).trans (congrArg output first).symm
  · exact (congrArg notes second).trans (congrArg notes first).symm

/-- **The order in which functions are declared does not matter.** A program is accepted in one
order just if it is in the other; its runs come to the same end then, with the same output, and it
has blocks in both orders or in neither. -/
theorem resolve_reordered {text : List Char} {ast ast' : Ast} {report : Report}
    (read : Parser.parse (Token.tokenize text) = (ast, report)) (clean : report.hasErrors = false)
    (reordered : ast.Reordered ast') : (resolve ast' report).report.hasErrors =
    (resolve ast report).report.hasErrors ∧ ((resolve ast report).report.hasErrors = false →
      (∀ clock fuel, (resolve ast report).SameRun (resolve ast' report) clock fuel) ∧
      ((∃ lir, (resolve ast' report).build.lir = .ok lir) ↔ ∃ lir, (resolve ast report).build.lir =
      .ok lir)) := by
  rw [hasErrors_eq_false_iff] at clean
  have unread : (Parser.parse (Token.tokenize text)).2.errors = [] := by rw [read]; exact clean
  have trees := Parser.parse_forest unread
  obtain ⟨whole, bare⟩ := Parser.parse_whole unread
  rw [read] at trees whole bare
  have sound := whole.sound trees
  have sound' e place : ast'.exprShape? e ≠ some (.error place) := by
    rw [reordered.nodes.exprShape?]
    exact sound e place
  have first := fun h : (resolve ast report).report.errors = [] => resolve_matches bare sound reordered h
  have second := fun h : (resolve ast' report).report.errors = [] =>
    resolve_matches (reordered.bare bare) sound' reordered.symm h
  have same : (resolve ast' report).report.hasErrors = false ↔
      (resolve ast report).report.hasErrors = false := by
    rw [hasErrors_eq_false_iff, hasErrors_eq_false_iff]
    exact ⟨fun h => (second h).1, fun h => (first h).1⟩
  refine ⟨Bool.eq_iff_iff.2 (by simpa using not_congr same), fun accepted => ?_⟩
  have accepted' := hasErrors_eq_false_iff.1 (same.2 accepted)
  rw [hasErrors_eq_false_iff] at accepted
  obtain ⟨alike, checked⟩ := resolve_checked bare report (.refl _) rfl trees
  have trees' : StmtTrees ast' 0 0 ast.topLevel ast'.statements.size ast'.expressions.size := by
    rw [reordered.statements, reordered.expressions]
    exact trees.congr (fun id _ => (reordered.nodes.stmtShape? id).trans) fun e _ =>
      (reordered.nodes.exprShape? e).trans
  obtain ⟨alike', checked'⟩ := resolve_checked (reordered.bare bare) report reordered.perm
    (by simpa only [reordered.declares] using reordered.others) trees'
  replace checked := (checked accepted).2
  replace checked' := (checked' accepted').2
  have matched := (first accepted).2
  have matched' := (second accepted').2
  refine ⟨checked.sameRun checked' matched.nodes ?_ ?_, ?_⟩
  · rw [alike.topLevel, alike'.topLevel]
    exact reordered.perm
  · rw [alike.topLevel, alike'.topLevel]
    simpa only [declares, alike.stmts] using reordered.others
  · rw [checked.exists_lir_iff, checked'.exists_lir_iff]
    exact not_congr ⟨matched'.flawed checked' checked, matched.flawed checked checked'⟩

/-- Functions declared between the statements that call them, one of which calls the other. -/
def scattered : List Char :=
  ("print(f(3));\nfx f(n: int) -> int \x7b return g(n, n); \x7d\nlet k = g(1, 1);\n" ++
    "fx g(a: int, b: int) -> int \x7b return a + b; \x7d\nprint(k);").toList

def scatteredRead : Ast × Report :=
  Parser.parse (Token.tokenize scattered)

/-- The second function is declared first, and the first one last. -/
def scatteredAnew : Ast :=
  { scatteredRead.1 with topLevel := [5, 0, 3, 6, 2] }

theorem resolve_reordered_scattered : Parser.parse (Token.tokenize scattered) = scatteredRead ∧
    scatteredRead.2.hasErrors = false ∧ scatteredRead.1.Reordered scatteredAnew ∧
    scatteredAnew.topLevel ≠ scatteredRead.1.topLevel ∧
    (resolve scatteredAnew scatteredRead.2).report.hasErrors = false ∧
    ((resolve scatteredAnew scatteredRead.2).run (fun _ => 0) 20).2.output = #[.number 6, .number 2] ∧
    ∃ lir, (resolve scatteredAnew scatteredRead.2).build.lir = .ok lir := by
  -- the text is evaluated once for all that is needed of it
  obtain ⟨clean, order, others, accepted, output, built⟩ : scatteredRead.2.hasErrors = false ∧
      scatteredRead.1.topLevel = [0, 2, 3, 5, 6] ∧ [5, 0, 3, 6, 2].filter
      (!declares scatteredRead.1 ·) = [0, 2, 3, 5, 6].filter (!declares scatteredRead.1 ·) ∧
      (resolve scatteredRead.1 scatteredRead.2).report.hasErrors = false ∧
      ((resolve scatteredRead.1 scatteredRead.2).run (fun _ => 0) 20).2.output = #[.number 6,
      .number 2] ∧ (resolve scatteredRead.1 scatteredRead.2).build.lir.toBool = true := by
    rw [scatteredRead, show scattered = _ from Token.toList_ofList_append ..]
    decide +kernel
  have reordered : scatteredRead.1.Reordered scatteredAnew := by
    refine ⟨rfl, rfl, ?_, ?_⟩
    · rw [order]
      exact (by decide : [5, 0, 3, 6, 2].Perm [0, 2, 3, 5, 6])
    · rw [order]
      exact others
  obtain ⟨same, agree⟩ := resolve_reordered rfl clean reordered
  obtain ⟨runs, blocks⟩ := agree accepted
  refine ⟨rfl, clean, reordered, ?_, same.trans accepted, (runs _ 20).output.trans output,
    blocks.2 (exists_of_toBool built)⟩
  rw [order]
  exact (by decide : ([5, 0, 3, 6, 2] : List StmtId) ≠ [0, 2, 3, 5, 6])

end Program

end EmLang
