import EmLang.Lir.Failure

/-!
Laying out the blocks of a function one after the other. Moves of an operand onto itself, jumps to
the block that follows and blocks without instructions are left out, until there are none; jumps to
a block that was left out go to the next one that is there. Then the blocks are numbered and the
targets of jumps marked.
-/

namespace EmLang.Native.Layout

open Lir

def code (lir : Lir) (b : BlockId) : List Instr := ((lir.blocks[b]?).map Block.instructions).getD []

def setCode (lir : Lir) (b : BlockId) (is : List Instr) : Lir :=
  lir.modifyBlock b ({ · with instructions := is })

def blocksOf (lir : Lir) (f : Nat) : List BlockId := ((lir.functions[f]?).map Function.blocks).getD []

def nameOf (lir : Lir) (f : Nat) : String := ((lir.functions[f]?).map Function.name).getD ""

/-- Leaves out moves of an operand onto itself. -/
def dropSelfMoves (lir : Lir) (blocks : List BlockId) : Lir :=
  blocks.foldl (fun lir b => setCode lir b ((code lir b).filter fun i => !i.isSelfMove)) lir

/-- Leaves out the jump at the end of a block to the one that follows. -/
def dropJump (lir : Lir) (b next : BlockId) : Option Lir :=
  if (code lir b).getLast? = some (.unary .jmp (.block next)) then some (setCode lir b (code lir b).dropLast)
  else none

/-- Leaves out all jumps to the block that follows; the second part tells whether there was one. -/
def dropJumps (lir : Lir) (blocks : List BlockId) : Lir × Bool :=
  (blocks.zip blocks.tail).foldl (fun (lir, changed) (b, next) =>
    match dropJump lir b next with
    | some lir => (lir, true)
    | none => (lir, changed)) (lir, false)

def isTargeted (lir : Lir) (blocks : List BlockId) (target : BlockId) : Bool :=
  blocks.any fun b => (code lir b).any (·.jumpTarget? = some target)

/-- A jump to `a` made a jump to `b`. -/
def redirect (a b : BlockId) (i : Instr) : Instr :=
  match i with
  | .unary .jmp (.block target) => .unary .jmp (.block (if target = a then b else target))
  | .unary (.jcc condition) (.block target) =>
    .unary (.jcc condition) (.block (if target = a then b else target))
  | _ => i

/-- Makes all jumps to `a` jumps to `b`. -/
def retarget (lir : Lir) (blocks : List BlockId) (a b : BlockId) : Lir :=
  blocks.foldl (fun lir block => setCode lir block ((code lir block).map (redirect a b))) lir

/-- How a round of leaving out ends. -/
inductive Round where
  | done
  | again
  /-- A block at the end has no instructions, but there is a jump to it. -/
  | stuck (b : BlockId)

/-- One round: all jumps to the block that follows, and the first block without instructions. -/
def round (lir : Lir) (f : Nat) : Lir × Round :=
  let blocks := blocksOf lir f
  let (lir, changed) := dropJumps lir blocks
  match blocks.findIdx? fun b => (code lir b).isEmpty with
  | none => (lir, if changed then .again else .done)
  | some position =>
    let removed := blocks.getD position 0
    let without := fun lir : Lir => lir.modifyFunction f ({ · with blocks := blocks.eraseIdx position })
    match (blocks.drop (position + 1)).find? fun b => !(code lir b).isEmpty with
    | some next => (without (retarget lir blocks removed next), .again)
    | none => if isTargeted lir blocks removed then (lir, .stuck removed) else (without lir, .again)

/-- Rounds until nothing is left out any more. -/
def settle (f : Nat) : Nat → Lir → Lir × Option Failure
  | 0, lir => (lir, none)
  | n + 1, lir =>
    match round lir f with
    | (lir, .done) => (lir, none)
    | (lir, .again) => settle f n lir
    | (lir, .stuck b) => (lir, some (.emptyTarget b (nameOf lir f)))

/-- More rounds than there is anything to leave out. -/
def roundsFor (lir : Lir) (blocks : List BlockId) : Nat :=
  blocks.foldr (fun b rounds => (code lir b).length + 1 + rounds) 1

def number (lir : Lir) (blocks : List BlockId) : Lir :=
  blocks.zipIdx.foldl (fun lir (b, position) =>
    lir.modifyBlock b ({ · with position := some position, isTarget := false })) lir

def targets (lir : Lir) (blocks : List BlockId) : List BlockId :=
  blocks.flatMap fun b => (code lir b).filterMap Instr.jumpTarget?

def mark (lir : Lir) (blocks : List BlockId) : Lir :=
  blocks.foldl (fun lir b => lir.modifyBlock b ({ · with isTarget := true })) lir

/-- Lays out the blocks of a function. A failure leaves the program as far as it got. -/
def finalize (lir : Lir) (f : Nat) : Lir × Option Failure :=
  let isMissing := fun b => !decide (b < lir.blocks.size)
  match lir.functions[f]? with
  | none => (lir, some .missing)
  | some function =>
    if function.blocks.any isMissing then (lir, some .missing)
    else
      let lir := dropSelfMoves lir function.blocks
      match settle f (roundsFor lir function.blocks) lir with
      | (lir, some failure) => (lir, some failure)
      | (lir, none) =>
        let blocks := blocksOf lir f
        let lir := number lir blocks
        let targets := targets lir blocks
        if targets.any isMissing then (lir, some .missing) else (mark lir targets, none)

def findVirtual (b : BlockId) (is : List Instr) (function : String) : Option Failure :=
  (is.find? fun i => i.opcode = .declare || i.operands.any Operand.isVirtual).map fun i =>
    .leftVirtual i b function

/-- Checks that all instructions of a function are those of a machine. -/
def verify (lir : Lir) (f : Nat) : Option Failure :=
  (blocksOf lir f).findSome? fun b => findVirtual b (code lir b) (nameOf lir f)

end EmLang.Native.Layout
