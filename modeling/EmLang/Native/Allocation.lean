import EmLang.Lir.Liveness
import EmLang.Native.Frame

/-!
Where the temporaries of a function are: in a register of the pool, or in a word of the frame that
is theirs for good once they got it.
-/

namespace EmLang.Native

open Lir

/-- A register, or an offset from the frame pointer. -/
inductive Location where
  | register (r : Register)
  | stack (offset : Int)
deriving DecidableEq, Inhabited

def Location.operand : Location → Operand
  | register r => .reg r
  | stack offset => frameWord offset

def Location.register? : Location → Option Register
  | register r => some r
  | stack _ => none

structure Allocation where
  frame : Frame
  locations : Std.ExtTreeMap Slot Location
  occupants : Std.ExtTreeMap Register Slot
  spillSlots : Std.ExtTreeMap Slot Int
  /-- The registers in use at some time that have to be given back as they were, in the order of
  their first use. -/
  usedCalleeSaved : List Register

namespace Allocation

/-- Nothing is anywhere. -/
def new (frame : Frame) : Allocation := ⟨frame, ∅, ∅, ∅, []⟩

def location? (a : Allocation) (s : Slot) : Option Location := a.locations[s]?

def occupant? (a : Allocation) (r : Register) : Option Slot := a.occupants[r]?

def isFree (a : Allocation) (r : Register) : Bool := (a.occupant? r).isNone

def vacate (a : Allocation) (s : Slot) : Allocation :=
  match a.location? s with
  | some (.register r) => { a with occupants := a.occupants.erase r }
  | _ => a

/-- Puts a slot in a register. What was there is forgotten, but not that it was there. -/
def bind (a : Allocation) (s : Slot) (r : Register) : Allocation :=
  let a := a.vacate s
  { a with
    occupants := a.occupants.insert r s
    locations := a.locations.insert s (.register r)
    usedCalleeSaved :=
      if isCalleeSaved r ∧ r ∉ a.usedCalleeSaved then a.usedCalleeSaved ++ [r] else a.usedCalleeSaved }

/-- Puts a slot in a word of the frame. -/
def moveToStack (a : Allocation) (s : Slot) (offset : Int) : Allocation :=
  let a := a.vacate s
  { a with locations := a.locations.insert s (.stack offset) }

/-- Empties a register; the slot that was there is nowhere. -/
def release (a : Allocation) (r : Register) : Allocation :=
  match a.occupant? r with
  | none => a
  | some s =>
    { a with
      occupants := a.occupants.erase r
      locations := if a.location? s = some (.register r) then a.locations.erase s else a.locations }

/-- Empties the registers of slots that are not live. -/
def releaseDead (a : Allocation) (live : LiveSet) : Allocation :=
  (a.occupants.toList.filter fun (_, s) => !live.contains s).foldl (fun a (r, _) => a.release r) a

/-- The first free register of the pool, apart from some. -/
def findFree? (a : Allocation) (excluded : List Register) : Option Register :=
  pool.find? fun r => a.isFree r && r ∉ excluded

/-- The first occupied register of the pool, apart from some. -/
def chooseVictim? (a : Allocation) (excluded : List Register) : Option Register :=
  pool.find? fun r => !a.isFree r && r ∉ excluded

/-- The word of the frame that belongs to a slot, handed out the first time. -/
def spillSlot (a : Allocation) (s : Slot) : Allocation × Int :=
  match a.spillSlots[s]? with
  | some offset => (a, offset)
  | none =>
    let (frame, offset) := a.frame.allocate
    ({ a with frame, spillSlots := a.spillSlots.insert s offset }, offset)

def occupied (a : Allocation) : List (Register × Slot) :=
  pool.filterMap fun r => (a.occupant? r).map (r, ·)

/-- The occupied registers that a call may change. -/
def occupiedCallerSaved (a : Allocation) : List (Register × Slot) :=
  a.occupied.filter fun (r, _) => isCallerSaved r

/-- Empties the registers of the pool. -/
def clear (a : Allocation) : Allocation := a.occupied.foldl (fun a (r, _) => a.release r) a

end Allocation

end EmLang.Native
