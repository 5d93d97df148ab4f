import EmLang.Lir
import EmLang.Native.Convention

/-!
Frames: the words below the frame pointer that a function keeps its values in, handed out one after
the other. A function stores its register arguments there when it begins, and gives back the
registers it promised when it ends.
-/

namespace EmLang.Native

open Lir Register

/-- The bytes handed out below the frame pointer. -/
structure Frame where
  size : Int
deriving DecidableEq, Inhabited

namespace Frame

def empty : Frame := ⟨0⟩

/-- Hands out a word; its offset from the frame pointer comes with it. -/
def allocate (frame : Frame) : Frame × Int := (⟨frame.size + word⟩, -(frame.size + word))

/-- The size rounded up to the alignment of the stack. -/
def alignedSize (frame : Frame) : Int := (frame.size + alignment - 1) / alignment * alignment

/-- Hands out a word for each of a list. -/
def allocateAll {α : Type} (frame : Frame) : List α → Frame × List (α × Int)
  | [] => (frame, [])
  | a :: as =>
    let (frame, offset) := frame.allocate
    let (frame, rest) := frame.allocateAll as
    (frame, (a, offset) :: rest)

end Frame

def frameWord (offset : Int) : Operand := .mem rbp offset

/-- Where the parameters and variables of a function live. -/
structure Homes where
  offsets : List Int
  parameterCount : Nat
deriving DecidableEq, Inhabited

namespace Homes

/-- The home of a slot: a stack argument stays where it is, and everything else gets a word of the
frame. -/
def place (parameterCount : Nat) (frame : Frame) (slot : Slot) : Frame × Int :=
  if slot < parameterCount ∧ argumentRegisters.length ≤ slot then (frame, stackArgumentOffset slot)
  else frame.allocate

def placeAll (parameterCount : Nat) (frame : Frame) : List Slot → Frame × List Int
  | [] => (frame, [])
  | slot :: slots =>
    let (frame, offset) := place parameterCount frame slot
    let (frame, offsets) := placeAll parameterCount frame slots
    (frame, offset :: offsets)

/-- The homes of the parameters and variables of a function, in an extended frame. -/
def of (f : Function) (frame : Frame) : Frame × Homes :=
  let (frame, offsets) := placeAll f.parameterCount frame (List.range f.declaredCount)
  (frame, ⟨offsets, f.parameterCount⟩)

def home? (homes : Homes) (slot : Slot) : Option Operand := homes.offsets[slot]?.map frameWord

/-- The parameters that come in registers, with their homes; none when one has no home. -/
def registerParameters? (homes : Homes) : Option (List (Register × Int)) :=
  (argumentRegisters.take homes.parameterCount).zipIdx.mapM fun (r, slot) =>
    return (r, ← homes.offsets[slot]?)

end Homes

/-- Whether a function with a frame of this size has to lower the stack pointer below it. -/
def needsStackAdjustment (isLeaf : Bool) (frameSize : Int) : Bool :=
  0 < frameSize && !(isLeaf && frameSize ≤ redZone)

/-- What a function does first: it sets up its frame, saves registers and stores its register
arguments. -/
def prologue? (homes : Homes) (frameSize : Int) (adjusts : Bool) (saved : List (Register × Int)) :
    Option (List Instr) := do
  let parameters ← homes.registerParameters?
  let store := fun (r, offset) => Instr.binary .mov (frameWord offset) (.reg r)
  return [.unary .push (.reg rbp), .binary .mov (.reg rbp) (.reg rsp)]
    ++ (if adjusts then [.binary .sub (.reg rsp) (.imm (Int64.ofInt frameSize))] else [])
    ++ saved.map store ++ parameters.map store

/-- What a function does last: it gives back the saved registers, the latest first, and its
frame. -/
def epilogue (adjusts : Bool) (saved : List (Register × Int)) : List Instr :=
  saved.reverse.map (fun (r, offset) => Instr.binary .mov (.reg r) (frameWord offset))
    ++ (if adjusts then [.binary .mov (.reg rsp) (.reg rbp)] else [])
    ++ [.unary .pop (.reg rbp)]

end EmLang.Native
