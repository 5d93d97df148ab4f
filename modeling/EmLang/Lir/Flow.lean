import EmLang.Lir.Failure

/-!
The flow of control between the blocks of a function. Blocks are named by their position in the
function's list. Control leaves a block by its terminator; a block without one falls through to the
next.
-/

namespace EmLang.Lir

/-- Which blocks follow which. -/
structure Flow where
  blocks : List BlockId
  successors : List (List Nat)
  predecessors : List (List Nat)
deriving DecidableEq

namespace Flow

def lastPosition? (blocks : List BlockId) (b : BlockId) : Option Nat :=
  (blocks.zipIdx.reverse.find? (·.1 = b)).map (·.2)

def jumpPosition (f : Function) (b : BlockId) (jump : Instr) : Except Failure Nat :=
  match jump.jumpTarget? with
  | none => .error (.malformedJump jump b)
  | some target =>
    match lastPosition? f.blocks target with
    | none => .error (.jumpOutside b target f.name)
    | some position => .ok position

/-- The positions that control can go to from the block `b` at `position`. -/
def successorsOf (lir : Lir) (f : Function) (b : BlockId) (position : Nat) : Except Failure (List Nat) := do
  let next := if position + 1 < f.blocks.length then [position + 1] else []
  let block ← lir.getBlock b
  match block.terminator? with
  | none => return next
  | some last =>
    match last.opcode with
    | .jmp => return [← jumpPosition f b last]
    | .jcc _ =>
      let taken ← jumpPosition f b last
      return taken :: next.filter (· ≠ taken)
    | _ => return []

/-- The positions from which control can go to `q`, once for every way. -/
def predecessorsOf (successors : List (List Nat)) (q : Nat) : List Nat :=
  successors.zipIdx.flatMap fun (targets, p) => List.replicate (targets.count q) p

def of (lir : Lir) (f : Function) : Except Failure Flow := do
  let successors ← f.blocks.zipIdx.mapM fun (b, position) => successorsOf lir f b position
  return ⟨f.blocks, successors, (List.range f.blocks.length).map (predecessorsOf successors)⟩

def position? (flow : Flow) (b : BlockId) : Option Nat := flow.blocks.idxOf? b

end Flow

end EmLang.Lir
