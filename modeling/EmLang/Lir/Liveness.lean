import EmLang.Lir.Flow
import Std.Data.ExtTreeSet

/-!
Which slots are live: those whose value may still be mentioned. Going backward over an instruction,
every slot that it mentions becomes live, and a declaration ends the life of its slot. What is live
at the start of a block is live at the end of those before it, and the blocks are gone through until
this holds.
-/

namespace EmLang.Lir

abbrev LiveSet := Std.ExtTreeSet Slot

namespace LiveSet

def subset (a b : LiveSet) : Bool := a.toList.all b.contains

def insertAll (live : LiveSet) (slots : List Slot) : LiveSet := slots.foldl (·.insert ·) live

def union (a b : LiveSet) : LiveSet := insertAll a b.toList

end LiveSet

def liveBefore (i : Instr) (after : LiveSet) : LiveSet :=
  match i with
  | .unary .declare (.slot s) => after.erase s
  | _ => after.insertAll i.slots

def liveAtStart (out : LiveSet) (is : List Instr) : LiveSet := is.foldr liveBefore out

/-- What is live after each of a list of instructions, and before the first. -/
def liveAround (out : LiveSet) : List Instr → List LiveSet × LiveSet
  | [] => ([], out)
  | i :: is =>
    let (after, live) := liveAround out is
    (live :: after, liveBefore i live)

def liveAfterEach (out : LiveSet) (is : List Instr) : List LiveSet := (liveAround out is).1

theorem liveAround_snd (out : LiveSet) (is : List Instr) : (liveAround out is).2 = liveAtStart out is := by
  induction is with
  | nil => rfl
  | cons i is ih => simp [liveAround, liveAtStart, ih]

@[simp] theorem liveAfterEach_nil (out : LiveSet) : liveAfterEach out [] = [] := rfl

@[simp] theorem liveAfterEach_cons (out : LiveSet) (i : Instr) (is : List Instr) :
    liveAfterEach out (i :: is) = liveAtStart out is :: liveAfterEach out is := by
  simp [liveAfterEach, liveAround, liveAround_snd]

/-- What is live in a function, by the positions of its blocks. -/
structure Liveness where
  liveIn : List LiveSet
  liveOut : List LiveSet
  /-- For each block, what is live after each instruction. -/
  liveAfter : List (List LiveSet)
  /-- How many blocks were gone through. -/
  iterations : Nat
  /-- The blocks that were gone through, with what was live at their start. -/
  history : List (Nat × LiveSet)

namespace Liveness

structure State where
  liveIn : List LiveSet
  liveOut : List LiveSet
  /-- The positions to go through, the next first. -/
  pending : List Nat
  history : List (Nat × LiveSet)

/-- Makes what is live at the start of a block live at the end of one before it, which has to be
gone through again if that is new there. -/
def feed (live : LiveSet) (s : State) (p : Nat) : State :=
  let out := s.liveOut.getD p ∅
  if live.subset out then s
  else
    { s with
      liveOut := s.liveOut.set p (out.union live)
      pending := if p ∈ s.pending then s.pending else s.pending ++ [p] }

/-- Goes through the block at `position`, which is no longer pending. -/
def step (f : Function) (flow : Flow) (code : List (List Instr)) (s : State) (position : Nat) :
    Except Failure State :=
  let live := liveAtStart (s.liveOut.getD position ∅) (code.getD position [])
  if (s.liveIn.getD position ∅).subset live then
    let s := { s with history := s.history ++ [(position, live)] }
    let s := (flow.predecessors.getD position []).foldl (feed live) s
    .ok { s with liveIn := s.liveIn.set position live }
  else .error (.shrank (flow.blocks.getD position 0) f.name)

/-- Goes through pending blocks until none is left, at most so often. -/
def iterate (f : Function) (flow : Flow) (code : List (List Instr)) (limit : Nat) :
    Nat → State → Except Failure State
  | n, s =>
    match s.pending with
    | [] => .ok s
    | position :: rest =>
      match n with
      | 0 => .error (.notConverged f.name limit)
      | n + 1 => do
        let s ← step f flow code { s with pending := rest } position
        iterate f flow code limit n s

/-- How often blocks are gone through at most. -/
def limit (f : Function) (flow : Flow) : Nat := flow.blocks.length * (f.slotCount + 1)

/-- Nothing is live, and all blocks are pending, the last first. -/
def start (n : Nat) : State :=
  ⟨List.replicate n ∅, List.replicate n ∅, (List.range n).reverse, []⟩

def of (lir : Lir) (f : Function) (flow : Flow) : Except Failure Liveness := do
  let code ← flow.blocks.mapM fun b => return (← lir.getBlock b).instructions
  let s ← iterate f flow code (limit f flow) (limit f flow) (start flow.blocks.length)
  return {
    liveIn := s.liveIn
    liveOut := s.liveOut
    liveAfter := List.zipWith liveAfterEach s.liveOut code
    iterations := s.history.length
    history := s.history }

end Liveness

end EmLang.Lir
