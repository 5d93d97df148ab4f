import EmLang.Lir.Routine
import EmLang.Proofs.Activation
import EmLang.Value
import Mathlib.Data.List.Infix
import Mathlib.Logic.Function.Iterate

/-!
Runs of whole programs in blocks. A slot holds a word or a text. The callers wait in a list, the
innermost first; a call inside the program starts the function of that name, and one outside it does
what the routine of that name stands for. A word does not tell whether it is a number or a truth
value, so the routine that prints it says so.
-/

namespace EmLang.Lir

open List

/-- What a slot holds when a whole program runs. -/
inductive Datum where
  | word (w : Int64)
  | text (s : String)
deriving DecidableEq

def Datum.word? : Datum → Option Int64
  | word w => some w
  | text _ => none

/-- The data of a program: a string of it stands for its text. -/
def data (strings : Array String) : Domain Datum := ⟨.word, Datum.word?, fun index => strings[index]?.map .text⟩

/-- What a run does to the outside. -/
structure World where
  /-- What was printed, in order. -/
  output : Array Value
  /-- How often the clock was read. -/
  readings : Nat

def World.print (world : World) (v : Value) : World := { world with output := world.output.push v }

/-- What a routine answers, where `clock` says what each reading shows. -/
def Routine.perform (clock : Nat → Int64) : Routine → List Datum → World → Option (Option Datum × World)
  | .printInt, [.word w], world => some (none, world.print (.number w))
  | .printBool, [.word w], world => some (none, world.print (.bool (w ≠ 0)))
  | .printStr, [.text s], world => some (none, world.print (.string s))
  | .tick, [], world =>
      some (some (.word (clock world.readings)), { world with readings := world.readings + 1 })
  | .intToString, [.word w], world => some (some (.text (toString w)), world)
  | _, _, _ => none

/-- A program at work. -/
structure Machine where
  current : Activation Datum
  /-- The callers, each with the type of the call that it waits for. -/
  callers : List (Ty × Activation Datum)
  world : World

/-- How far a run has come. -/
inductive Progress where
  | running (m : Machine)
  | finished (result : Option Datum) (output : Array Value)
  /-- A division was refused. -/
  | trapped (output : Array Value)
  | stuck

def Progress.output : Progress → Array Value
  | running m => m.world.output
  | finished _ output | trapped output => output
  | stuck => #[]

variable (lir : Lir) (clock : Nat → Int64)

def code? (b : BlockId) : Option (List Instr) := lir.blocks[b]?.map Block.instructions

/-- The instructions that a call of a function begins with. -/
def firstCode? (symbol : String) : Option (List Instr) := (lir.functionNamed? symbol).bind fun f =>
    f.blocks.head?.bind lir.code?

namespace Machine

/-- Begins a call, where `a` is the caller. -/
def call (m : Machine) (symbol : String) (isExternal : Bool) (arguments : List Datum) (returnType : Ty)
    (a : Activation Datum) : Progress :=
  if isExternal then
    match (Routine.ofSymbol? symbol).bind fun r => r.perform clock arguments m.world with
    | some (answer, world) => .running { m with current := a.resume returnType answer, world }
    | none => .stuck
  else
    match lir.firstCode? symbol with
    | some code => .running { m with current := .enter code arguments, callers := (returnType, a) :: m.callers }
    | none => .stuck

/-- Ends the innermost call. -/
def finish (m : Machine) (result : Option Datum) : Progress :=
  match m.callers with
  | [] => .finished result m.world.output
  | (returnType, a) :: callers => .running { m with current := a.resume returnType result, callers }

def step (m : Machine) : Progress :=
  match m.current.step (data lir.strings) lir.code? with
  | .next a => .running { m with current := a }
  | .call symbol isExternal arguments returnType a => m.call lir clock symbol isExternal arguments returnType a
  | .finish result => m.finish result
  | .trap => .trapped m.world.output
  | .stuck => .stuck

end Machine

def advance : Progress → Progress
  | .running m => m.step lir clock
  | ended => ended

def start : Progress :=
  match lir.firstCode? "main" with
  | some code => .running ⟨.enter code [], [], ⟨#[], 0⟩⟩
  | none => .stuck

/-- How far the program has come after so many steps. -/
def run (n : Nat) : Progress := (lir.advance clock)^[n] lir.start

/-! ### Sequences of steps -/

/-- So many steps lead from the one place to the other. There are none from where a run has
ended. -/
inductive Goes : Nat → Progress → Progress → Prop where
  | refl (S : Progress) : Goes 0 S S
  | cons {n : Nat} {m : Machine} {T : Progress} (rest : Goes n (m.step lir clock) T) :
      Goes (n + 1) (.running m) T

/-- Where a run has ended. -/
def Progress.Ended : Progress → Prop
  | .running _ => False
  | _ => True

section Goes

variable {lir clock} {S T U : Progress} {n k : Nat} {m : Machine}

lemma Goes.trans (h : Goes lir clock n S T) (h' : Goes lir clock k T U) : Goes lir clock (n + k) S U := by
  induction h with
  | refl S => rwa [Nat.zero_add]
  | cons _ ih =>
    rw [Nat.add_right_comm]
    exact .cons (ih h')

lemma Goes.step (h : m.step lir clock = T) : Goes lir clock 1 (.running m) T := by
  subst h
  exact .cons (.refl _)

lemma Goes.next {a : Activation Datum} (h : m.current.step (data lir.strings) lir.code? = .next a) :
    Goes lir clock 1 (.running m) (.running { m with current := a }) := by
  apply Goes.step
  simp only [Machine.step, h]

/-- Two runs from one place: the longer goes on where the shorter ends. -/
lemma Goes.sub (h : Goes lir clock n S T) (h' : Goes lir clock k S U) (le : n ≤ k) :
    Goes lir clock (k - n) T U := by
  induction h generalizing k with
  | refl S => exact h'
  | cons _ ih =>
    cases h' with
    | refl => omega
    | cons rest =>
      rw [Nat.add_sub_add_right]
      exact ih rest (by omega)

lemma Goes.of_ended (h : Goes lir clock n S T) (ended : S.Ended) : n = 0 ∧ T = S := by
  cases h with
  | refl => exact ⟨rfl, rfl⟩
  | cons _ => cases ended

lemma Goes.iterate (h : Goes lir clock n S T) : (lir.advance clock)^[n] S = T := by
  induction h with
  | refl S => rfl
  | cons _ ih => exact ih

lemma goes_iterate (n : Nat) (S : Progress) : ∃ k ≤ n, Goes lir clock k S ((lir.advance clock)^[n] S) := by
  induction n generalizing S with
  | zero => exact ⟨0, le_rfl, .refl S⟩
  | succ n ih =>
    cases S with
    | running m =>
      obtain ⟨k, le, goes⟩ := ih (m.step lir clock)
      exact ⟨k + 1, by omega, .cons goes⟩
    | finished | trapped | stuck =>
      rw [Function.iterate_fixed rfl]
      exact ⟨0, Nat.zero_le _, .refl _⟩

end Goes

/-! ### What is printed stays printed -/

lemma World.print_output (world : World) (v : Value) :
    world.output.toList <+: (world.print v).output.toList := by
  simp [World.print]

lemma Routine.perform_output {answer : Option Datum} {arguments : List Datum} {world world' : World}
    {r : Routine} (h : r.perform clock arguments world = some (answer, world')) :
    world.output.toList <+: world'.output.toList := by
  cases r with
  | tick =>
    cases arguments <;> cases h
    exact prefix_rfl
  | printInt | printBool | printStr =>
    obtain _ | ⟨_ | _, _ | _⟩ := arguments <;> cases h
    exact world.print_output _
  | intToString =>
    obtain _ | ⟨_ | _, _ | _⟩ := arguments <;> cases h
    exact prefix_rfl

lemma Machine.step_output (m : Machine) (ok : m.step lir clock ≠ .stuck) :
    m.world.output.toList <+: (m.step lir clock).output.toList := by
  revert ok
  unfold Machine.step
  split
  · exact fun _ => prefix_rfl
  · unfold Machine.call
    split
    · cases h : (Routine.ofSymbol? _).bind fun r => r.perform clock _ m.world with
      | none => exact fun ok => absurd rfl ok
      | some answer =>
        obtain ⟨r, -, hr⟩ := Option.bind_eq_some_iff.1 h
        exact fun _ => Routine.perform_output clock hr
    · split
      · exact fun _ => prefix_rfl
      · exact fun ok => absurd rfl ok
  · unfold Machine.finish
    split <;> exact fun _ => prefix_rfl
  · exact fun _ => prefix_rfl
  · exact fun ok => absurd rfl ok

lemma Goes.output {lir : Lir} {clock : Nat → Int64} {n : Nat} {S T : Progress} (h : Goes lir clock n S T)
    (ok : T ≠ .stuck) : S.output.toList <+: T.output.toList := by
  induction h with
  | refl S => exact prefix_rfl
  | @cons n m T rest ih =>
    refine (m.step_output lir clock fun stuck => ok ?_).trans (ih ok)
    rw [stuck] at rest
    exact (rest.of_ended trivial).2

end EmLang.Lir
