import EmLang.Proofs.CallSimulation

/-!
A program and the blocks it is built to do the same. A run on the tree that comes to its end has a
run on the blocks that ends in the same way; a run on the tree whose bound on the depth is used up
has one that is at least as long as that bound tells. The blocks run in one way only, so this is
enough to go back from the blocks to the tree.
-/

namespace EmLang

open Lir

variable {lir : Lir} {t : Eval.State}

namespace Lir

variable {S : Progress}

/-- Where the blocks of a program have ended, if the program has come to its end in the state
`t`. -/
def endOf (t : Eval.State) : Progress :=
  if t.halted then .trapped t.output else .finished (some (.word 0)) t.output

lemma endOf_eq_finished {output : Array Value} : endOf t = .finished (some (.word 0)) output ↔
    t.halted = false ∧ t.output = output := by
  cases halted : t.halted <;> simp [endOf, halted]

lemma endOf_eq_trapped {output : Array Value} : endOf t = .trapped output ↔ t.halted = true ∧
    t.output = output := by
  cases halted : t.halted <;> simp [endOf, halted]

lemma endOf_output (t : Eval.State) : (endOf t).output = t.output := by
  unfold endOf
  split <;> rfl

lemma endOf_ended (t : Eval.State) : (endOf t).Ended := by
  unfold endOf
  split <;> trivial

lemma endOf_ne_stuck (t : Eval.State) : endOf t ≠ .stuck := by
  unfold endOf
  split <;> exact Progress.noConfusion

lemma Shows.output (h : Shows t S) : S.output = t.output := by
  cases halted : t.halted with
  | true =>
    rw [h.1 halted]
    rfl
  | false =>
    obtain ⟨m, rfl, output⟩ := h.2 halted
    exact output

lemma Shows.ne_stuck (h : Shows t S) : S ≠ .stuck := by
  rintro rfl
  cases halted : t.halted with
  | true => cases h.1 halted
  | false =>
    obtain ⟨m, hm, -⟩ := h.2 halted
    cases hm

lemma main_simulates {K : Nat} {env : Eval.Env} {function : EmLang.Function} (fits : Fits env lir)
    (large : env.ast.depth + 6 ≤ K) (found : env.scope.function? Scope.main = some function)
    (name : function.name = "main") (parameters : function.parameters = []) (report : Report)
    (n : Nat) : Ends (Eval.block env n function.body) { Eval.State.start report with frames := [∅] }
    (fun _ t => ∃ k, Goes lir env.clock k lir.start (endOf t))
    (fun _ t => ∃ k S, Goes lir env.clock k lir.start S ∧ Shows t S ∧ n + 1 ≤ k * K + K) := by
  obtain ⟨b, entry⟩ := fits.entry found
  obtain ⟨report', checked⟩ := fits.checked
  obtain ⟨vars, typed⟩ := checked.bodies _ _ found
  rw [parameters] at typed
  have inside := Eval.inside_start env.scope Scope.main report
  have within : Within env Scope.main function [] { Eval.State.start report with frames := [∅] } :=
    ⟨⟨inside, rfl, by simp [Eval.Bound]⟩, found, by simp [Owned]⟩
  have start : lir.start = .running ⟨.enter (b.body ++ b.ending) [], [], ⟨#[], 0⟩⟩ := by
    rw [Lir.start, ← name, entry]
  have holds : Holds env.scope Scope.main { Eval.State.start report with frames := [∅] } fun i =>
      ([] : List Datum)[i]? := by
    intro v x value _ _ hv
    rw [Eval.State.var?_cons] at hv
    simp at hv
  have here : At env Scope.main (b.body ++ b.ending) (fun i => ([] : List Datum)[i]?) []
      { Eval.State.start report with frames := [∅] } lir.start := .of_running rfl start holds
  have sound := (Eval.soundAt fits.checked n).block _ _ _ _ _ typed within.before
  have blocks := block_simulates (n := n) fits large
    (fun m _ => (simulates fits large m).1) b.exitCode within b.bodyBuilt le_rfl typed here
  refine (sound.and blocks).imp ?_ fun _ _ both => both.2 both.1.1
  rintro _ t ⟨passed, k, S', goes, trapped, running⟩
  cases halted : t.halted with
  | true =>
    rw [trapped halted] at goes
    exact ⟨k, by rwa [endOf, if_pos halted]⟩
  | false =>
    obtain ⟨ended, slots, result, rfl, -⟩ := running halted
    -- The main function has no `return`.
    have unreturned : t.returned = false := by
      by_contra returned
      exact (passed.inside.result (by simpa using returned)).1 rfl
    have open_ : b.ended = false := ended.symm.trans unreturned
    have built := b.endBuilt
    rw [open_] at built goes
    generalize b.ending = ending at built goes
    obtain _ | _ | ⟨other, -, -⟩ | ⟨other, -⟩ := built
    · have left := ((goes.trans (goes_result rfl)).trans (goes_jmp b.exitCode)).trans goes_ret
      exact ⟨_, by rw [endOf, if_neg (by simp [halted])]; exact left⟩
    · exact absurd name other
    · exact absurd name other

end Lir

namespace Program

variable {p : Program}

section

variable (checked : p.Checked) (built : p.build.lir = .ok lir) (clock : Nat → Int64)

include checked built clock

lemma Checked.fits : Fits ⟨p.ast, p.scope, clock⟩ lir := by
  obtain ⟨count, -, builds⟩ := checked.builds_of_build built
  exact ⟨⟨p.report, checked⟩, count, builds⟩

/-- A run comes to its end, and the blocks end in the same way; or the bound on its depth is used
up, and the blocks have made many steps. -/
lemma run_cases (fuel : Nat) : (∃ t, p.run clock fuel =
      (.ok (if t.halted then .void else .number 0), t) ∧ ∃ k, Goes lir clock k lir.start (endOf t))
    ∨ ∃ fault t, p.run clock fuel = (.error fault, t) ∧ ∃ k S, Goes lir clock k lir.start S ∧
    Shows t S ∧ fuel + 1 ≤ k * (p.ast.depth + 6) + (p.ast.depth + 6) := by
  obtain ⟨function, found, name, parameters⟩ := checked.main
  have blocks := main_simulates (checked.fits built clock) le_rfl found name parameters p.report fuel
  have main : Ends (Eval.main ⟨p.ast, p.scope, clock⟩ fuel) (.start p.report)
      (fun v t => v = (if t.halted then .void else .number 0) ∧ ∃ k, Goes lir clock k lir.start (endOf t))
      (fun _ t => ∃ k S, Goes lir clock k lir.start S ∧ Shows t S ∧
        fuel + 1 ≤ k * (p.ast.depth + 6) + (p.ast.depth + 6)) := by
    simp only [Eval.main, found, Eval.openFrame, Eval.closeFrame, ends_bind, ends_modify, ends_get, ends_pure]
    exact blocks.mono fun _ t reached => ⟨trivial, reached⟩
  cases h : p.run clock fuel with
  | mk r t =>
    cases r with
    | ok v =>
      obtain ⟨rfl, reached⟩ := main.of_ok h
      exact .inl ⟨t, rfl, reached⟩
    | error fault => exact .inr ⟨fault, t, rfl, main.of_error h⟩

/-- After so many steps the blocks are still at work, or they have ended as a run of the program
does. With a large bound on its depth the program prints at least as much. -/
lemma progress_cases (n : Nat) :
    ∃ fuel, (lir.run clock n).output.toList <+: (p.run clock fuel).2.output.toList ∧
    ((∃ m, lir.run clock n = .running m) ∨ ∃ t, p.run clock fuel =
      (.ok (if t.halted then .void else .number 0), t) ∧ lir.run clock n = endOf t) := by
  obtain ⟨k, le, goes⟩ : ∃ k ≤ n, Goes lir clock k lir.start (lir.run clock n) := goes_iterate n lir.start
  refine ⟨n * (p.ast.depth + 6) + (p.ast.depth + 6), ?_⟩
  obtain ⟨t, hrun, j, reached⟩ | ⟨fault, t, hrun, j, S, reached, shows, far⟩ := run_cases checked built clock _
  · rw [hrun]
    obtain before | behind := Nat.le_total k j
    · have goes := goes.sub reached before
      refine ⟨endOf_output t ▸ goes.output (endOf_ne_stuck t), ?_⟩
      cases h : lir.run clock n with
      | running m => exact .inl ⟨m, rfl⟩
      | finished | trapped | stuck =>
        rw [h] at goes
        exact .inr ⟨t, rfl, (goes.of_ended trivial).2.symm⟩
    · obtain ⟨-, same⟩ := (reached.sub goes behind).of_ended (endOf_ended t)
      rw [same, endOf_output]
      exact ⟨List.prefix_rfl, .inr ⟨t, rfl, rfl⟩⟩
  · -- The blocks have made more than `n` steps and were still at work before the last.
    rw [hrun]
    have more : n < j := by
      refine Nat.lt_of_mul_lt_mul_right (a := p.ast.depth + 6) ?_
      omega
    have goes := goes.sub reached (by omega)
    refine ⟨shows.output ▸ goes.output shows.ne_stuck, .inl ?_⟩
    cases h : lir.run clock n with
    | running m => exact ⟨m, rfl⟩
    | finished | trapped | stuck =>
      rw [h] at goes
      obtain ⟨none, -⟩ := goes.of_ended trivial
      omega

end

/-- A program and its blocks do the same. -/
structure RunsAlike (p : Program) (lir : Lir) (clock : Nat → Int64) : Prop where
  /-- The blocks finish exactly when the program has the value 0, and have printed the same. -/
  finishes : ∀ output, (∃ fuel t, p.run clock fuel = (.ok (.number 0), t) ∧ t.output = output) ↔
    ∃ n, lir.run clock n = .finished (some (.word 0)) output
  /-- They trap exactly when a fault halts the program, and have printed the same. -/
  traps : ∀ output, (∃ fuel value t, p.run clock fuel = (.ok value, t) ∧ t.halted = true ∧ t.output = output) ↔
    ∃ n, lir.run clock n = .trapped output
  /-- What the program has printed with any bound on its depth, the blocks have printed at some
  moment. -/
  prints : ∀ fuel, ∃ n, (lir.run clock n).output = (p.run clock fuel).2.output
  /-- What the blocks have printed at any moment, the program prints first with some bound on its
  depth. -/
  printed : ∀ n, ∃ fuel, (lir.run clock n).output.toList <+: (p.run clock fuel).2.output.toList
  /-- There is no other way to end. -/
  ends : ∀ n, (∃ m, lir.run clock n = .running m) ∨ (∃ output, lir.run clock n =
    .finished (some (.word 0)) output) ∨ ∃ output, lir.run clock n = .trapped output

lemma run_ended {fuel : Nat} {value : Value} (checked : p.Checked) (built : p.build.lir = .ok lir)
    {clock : Nat → Int64} (run : p.run clock fuel = (.ok value, t)) :
    value = (if t.halted then .void else .number 0) ∧ ∃ n, lir.run clock n = endOf t := by
  obtain ⟨t', run', n, goes⟩ | ⟨fault, t', run', -⟩ := run_cases checked built clock fuel
  · rw [run] at run'
    obtain ⟨hvalue, rfl⟩ := Prod.mk.inj run'
    exact ⟨Except.ok.inj hvalue, n, goes.iterate⟩
  · rw [run] at run'
    cases run'

/-- **Blocks do what the program does.** -/
theorem runsAlike_of_build {text : List Char} (accepted : Program.compile text = .ok p)
    (built : p.build.lir = .ok lir) (clock : Nat → Int64) : p.RunsAlike lir clock := by
  have checked := checked_of_compile accepted
  have progress := progress_cases checked built clock
  refine ⟨fun output => ⟨?_, ?_⟩, fun output => ⟨?_, ?_⟩, fun fuel => ?_, fun n => ?_, fun n => ?_⟩
  · rintro ⟨fuel, t, run, rfl⟩
    obtain ⟨value, n, ended⟩ := run_ended checked built run
    have unhalted : t.halted = false := by
      by_contra halted
      rw [if_pos (by simpa using halted)] at value
      cases value
    exact ⟨n, ended.trans (endOf_eq_finished.2 ⟨unhalted, rfl⟩)⟩
  · rintro ⟨n, finished⟩
    obtain ⟨fuel, -, ⟨m, running⟩ | ⟨t, run, ended⟩⟩ := progress n
    · rw [finished] at running
      cases running
    · obtain ⟨unhalted, same⟩ := endOf_eq_finished.1 (ended.symm.trans finished)
      rw [unhalted] at run
      exact ⟨fuel, t, run, same⟩
  · rintro ⟨fuel, value, t, run, halted, rfl⟩
    obtain ⟨-, n, ended⟩ := run_ended checked built run
    exact ⟨n, ended.trans (endOf_eq_trapped.2 ⟨halted, rfl⟩)⟩
  · rintro ⟨n, trapped⟩
    obtain ⟨fuel, -, ⟨m, running⟩ | ⟨t, run, ended⟩⟩ := progress n
    · rw [trapped] at running
      cases running
    · obtain ⟨halted, same⟩ := endOf_eq_trapped.1 (ended.symm.trans trapped)
      exact ⟨fuel, _, t, run, halted, same⟩
  · obtain ⟨t, run, n, goes⟩ | ⟨fault, t, run, n, S, goes, shows, -⟩ := run_cases checked built clock fuel
    · exact ⟨n, by rw [run, Lir.run, goes.iterate, endOf_output]⟩
    · exact ⟨n, by rw [run, Lir.run, goes.iterate, shows.output]⟩
  · obtain ⟨fuel, printed, -⟩ := progress n
    exact ⟨fuel, printed⟩
  · obtain ⟨fuel, -, running | ⟨t, -, ended⟩⟩ := progress n
    · exact .inl running
    · rw [ended]
      cases halted : t.halted with
      | true => exact .inr (.inr ⟨_, endOf_eq_trapped.2 ⟨halted, rfl⟩⟩)
      | false => exact .inr (.inl ⟨_, endOf_eq_finished.2 ⟨halted, rfl⟩⟩)

/-- Operands that later operands change, and a division by 0 behind output. -/
def changes : List Char :=
  ("fx twice(n: int) -> int { let m: int = n; m = m + (m = m + m) * -n; return m - n; }\n" ++
    "let i: int = 3;\nprint(i + (i = twice(i)));\nprint(\"done\");\nprint(7 / (i * (i = 0)));").toList

lemma exists_changes : ∃ p lir, Program.compile changes = .ok p ∧ p.build.lir = .ok lir ∧
    lir.functions.size = 2 := by
  rw [show changes = _ from Token.toList_ofList_append ..]
  apply Program.exists_built
  decide +kernel

theorem runsAlike_changes : ∃ p lir, Program.compile changes = .ok p ∧ p.build.lir = .ok lir ∧
    ∀ clock, p.RunsAlike lir clock := by
  obtain ⟨p, lir, accepted, built, -⟩ := exists_changes
  exact ⟨p, lir, accepted, built, runsAlike_of_build accepted built⟩

end Program

end EmLang
