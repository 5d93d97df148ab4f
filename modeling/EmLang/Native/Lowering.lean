import EmLang.Native.Allocation

/-!
Putting the slots of a function into registers and frame words. Variables and parameters live in
their homes; temporaries are kept in registers as long as there are any, and in their spill slots
otherwise. Between blocks all temporaries are in their spill slots.

Some instructions of the machine want their operands in certain places: a division works on two
fixed registers, a call takes its arguments where the convention says, and a word of memory cannot
be moved to another without a register between them.
-/

namespace EmLang.Native

open Lir Register

/-- What happened to temporaries around a call. -/
structure CallRecord where
  symbol : String
  /-- The temporaries that a register held which the call may change. -/
  saved : List (Slot × Register)
  /-- Where they were put after the call. -/
  restored : List (Slot × Location)
  /-- The bytes pushed for stack arguments, with padding. -/
  stackBytes : Int
deriving DecidableEq

/-- The frame of a function and the calls it makes. -/
structure FunctionReport where
  name : String
  frameSize : Int
  adjustsStack : Bool
  calleeSaved : List Register
  calls : List CallRecord
deriving DecidableEq

namespace Lowering

/-- The function that is lowered, and the homes of its variables. -/
structure Env where
  function : Function
  homes : Homes

structure State where
  allocation : Allocation
  /-- The frame words that registers are saved in around calls. -/
  saveArea : Std.ExtTreeMap Register Int
  calls : List CallRecord
  /-- The instructions of the current block so far. -/
  output : Array Instr

abbrev Lower := StateT State (Except Failure)

def emit (i : Instr) : Lower Unit := modify fun s => { s with output := s.output.push i }

def allocation : Lower Allocation := return (← get).allocation

def setAllocation (a : Allocation) : Lower Unit := modify ({ · with allocation := a })

def modifyAllocation (f : Allocation → Allocation) : Lower Unit :=
  modify fun s => { s with allocation := f s.allocation }

/-! ### Operands -/

def scratchOperand : Operand := .reg scratch

/-- Moves a value by way of the scratch register, which `op` loads. -/
def moveByScratch (op : Opcode) (destination source : Operand) : Lower Unit := do
  emit (.binary op scratchOperand source)
  emit (.binary .mov destination scratchOperand)

/-- Moves a value, unless it is in its place already. The address of a string is loaded; memory
takes no other memory and no wide number at once. -/
def emitMove (destination source : Operand) : Lower Unit :=
  if destination = source then pure ()
  else match destination, source with
    | .reg _, .str _ => emit (.binary .lea destination source)
    | _, .str _ => moveByScratch .lea destination source
    | .mem .., .mem .. => moveByScratch .mov destination source
    | .mem .., .imm value =>
      if fits32 value.toInt then emit (.binary .mov destination source)
      else moveByScratch .mov destination source
    | _, _ => emit (.binary .mov destination source)

/-- Where the value of an operand is now. -/
def read (env : Env) (operand : Operand) : Lower Operand := do
  match operand with
  | .slot s =>
    if env.function.isTemporary s then
      match (← allocation).location? s with
      | some location => return location.operand
      | none => throw (.readTooEarly s env.function.name)
    else
      match env.homes.home? s with
      | some home => return home
      | none => throw (.noHome s env.function.name)
  | .returnSlot => return .reg returnRegister
  | .callee .. | .flag _ | .block _ => throw (.noValue operand)
  | .str _ | .reg _ | .mem .. | .imm _ => return operand

def registerOf (a : Allocation) : Operand → List Register
  | .slot s => ((a.location? s).bind Location.register?).toList
  | .returnSlot => [returnRegister]
  | .reg r => [r]
  | _ => []

/-! ### Registers -/

/-- Stores the temporary in a register to its spill slot. -/
def spill (r : Register) : Lower Unit := do
  let a ← allocation
  match a.occupant? r with
  | none => pure ()
  | some s =>
    let (a, offset) := a.spillSlot s
    emit (.binary .mov (frameWord offset) (.reg r))
    setAllocation (a.moveToStack s offset)

/-- A register of the pool for a value, apart from some: a free one, or one whose temporary is
spilled. -/
def takeRegister (env : Env) (excluded : List Register) : Lower Register := do
  let a ← allocation
  match a.findFree? excluded with
  | some r => return r
  | none =>
    match a.chooseVictim? excluded with
    | some r =>
      spill r
      return r
    | none => throw (.allPinned env.function.name)

/-- The register of a temporary, which is loaded if it is in memory. -/
def inRegister (env : Env) (s : Slot) (excluded : List Register) : Lower Register := do
  match (← allocation).location? s with
  | some (.register r) => return r
  | some (.stack offset) =>
    let r ← takeRegister env excluded
    emit (.binary .mov (.reg r) (frameWord offset))
    modifyAllocation (·.bind s r)
    return r
  | none => throw (.usedTooEarly s env.function.name)

/-- Empties a register: its temporary is forgotten if it is dead, and else moved to a free register
apart from some, or spilled. -/
def evict (r : Register) (excluded : List Register) (live : LiveSet) : Lower Unit := do
  let a ← allocation
  match a.occupant? r with
  | none => pure ()
  | some s =>
    if live.contains s then
      match a.findFree? (excluded ++ [r]) with
      | some free =>
        emit (.binary .mov (.reg free) (.reg r))
        setAllocation (a.bind s free)
      | none => spill r
    else setAllocation (a.release r)

/-- A value as the second operand of an arithmetic instruction, which takes neither the address of a
string nor a wide number. -/
def materialize (env : Env) (value : Operand) (excluded : List Register) : Lower Operand := do
  match value with
  | .str _ =>
    let r ← takeRegister env excluded
    emit (.binary .lea (.reg r) value)
    return .reg r
  | .imm number =>
    if fits32 number.toInt then return value
    else
      let r ← takeRegister env excluded
      emit (.binary .mov (.reg r) value)
      return .reg r
  | _ => return value

/-! ### Instructions -/

/-- Whether a temporary can take over a register as it is: what the register held is not needed any
more. -/
def canAdopt (a : Allocation) (r : Register) (live : LiveSet) : Bool :=
  r ∈ pool && (a.occupant? r).all fun s => !live.contains s

/-- The register for a temporary that is nowhere yet and gets this value. -/
def adoptOrTake (env : Env) (value : Operand) (live : LiveSet) : Lower Register := do
  let a ← allocation
  match value with
  | .reg r =>
    if canAdopt a r live then
      setAllocation (a.release r)
      return r
    else takeRegister env [r]
  | _ => takeRegister env []

def lowerMove (env : Env) (destination source : Operand) (live : LiveSet) : Lower Unit := do
  let value ← read env source
  match destination with
  | .slot s =>
    if env.function.isTemporary s then
      match (← allocation).location? s with
      | some location => emitMove location.operand value
      | none =>
        let r ← adoptOrTake env value live
        modifyAllocation (·.bind s r)
        emitMove (.reg r) value
    else emitMove (← read env destination) value
  | .returnSlot =>
    unless value = .reg returnRegister do
      evict returnRegister (registerOf (← allocation) value) live
    emitMove (.reg returnRegister) value
  | _ =>
    if destination.isVirtual then throw (.notWritable destination)
    else emitMove destination value

/-- An instruction that works on its first operand, which has to be in a register. A variable is
worked on in the scratch register and, unless it is only compared, stored again. -/
def lowerArithmetic (env : Env) (op : Opcode) (destination source : Operand) : Lower Unit := do
  let pinned := registerOf (← allocation) source
  let inScratch : Lower (Register × Option Operand) := do
    let value ← read env destination
    emitMove scratchOperand value
    return (scratch, if op = .cmp then none else some value)
  let (left, home) ← match destination with
    | .slot s =>
      if env.function.isTemporary s then pure (← inRegister env s pinned, none) else inScratch
    | _ => inScratch
  let value ← read env source
  let value ← materialize env value (pinned ++ [left])
  emit (.binary op (.reg left) value)
  match home with
  | some home => emitMove home (.reg left)
  | none => pure ()

def lowerNegate (env : Env) (operand : Operand) : Lower Unit := do
  let target ← match operand with
    | .slot s => if env.function.isTemporary s then .reg <$> inRegister env s [] else read env operand
    | _ => read env operand
  emit (.unary .neg target)

/-- Whether a divisor has to be copied before the fixed registers are filled. -/
def needsCopy : Operand → Bool
  | .reg r => r = rax || r = rdx
  | .mem .. => false
  | _ => true

def emptyFixed (dividend : Option Slot) (pinned : List Register) (live : LiveSet) (r : Register) :
    Lower Unit := do
  let occupant := (← allocation).occupant? r
  if occupant.isSome ∧ occupant ≠ dividend then evict r pinned live

/-- A division: the dividend goes to `rax`, the quotient comes there and the remainder to `rdx`. -/
def lowerDivision (env : Env) (op : Opcode) (destination source : Operand) (live : LiveSet) :
    Lower Unit := do
  let value ← read env source
  let divisor := if needsCopy value then scratchOperand else value
  if needsCopy value then emitMove scratchOperand value
  let dividend := destination.slot?.filter env.function.isTemporary
  let pinned := [rax, rdx] ++ match divisor with
    | .reg r => [r]
    | _ => []
  emptyFixed dividend pinned live rax
  emptyFixed dividend pinned live rdx
  match dividend with
  | some s =>
    match (← allocation).location? s with
    | some location => emitMove (.reg rax) location.operand
    | none => throw (.dividedTooEarly s env.function.name)
  | none => emitMove (.reg rax) (← read env destination)
  emit (.nullary .cqo)
  emit (.unary .idiv divisor)
  let result := if op = .idiv then rax else rdx
  match dividend with
  | some s =>
    modifyAllocation fun a =>
      let a := match a.location? s with
        | some (.register previous) => a.release previous
        | _ => a
      ((a.release rax).release rdx).bind s result
  | none => emitMove (← read env destination) (.reg result)

/-! ### Calls -/

/-- The frame word that a register is saved in around calls, handed out the first time. -/
def saveSlot (r : Register) : Lower Int := do
  let s ← get
  match s.saveArea[r]? with
  | some offset => return offset
  | none =>
    let (frame, offset) := s.allocation.frame.allocate
    set { s with
      allocation := { s.allocation with frame }
      saveArea := s.saveArea.insert r offset }
    return offset

/-- Saves the temporaries that live on after a call in registers that it may change. -/
def saveLive (live : LiveSet) : List (Register × Slot) → Lower (List (Slot × Register × Int))
  | [] => return []
  | (r, s) :: rest => do
    if live.contains s then
      let offset ← saveSlot r
      emit (.binary .mov (frameWord offset) (.reg r))
      let saved ← saveLive live rest
      return (s, r, offset) :: saved
    else saveLive live rest

def pushOperand (value : Operand) : Lower Unit := do
  match value with
  | .imm number =>
    if fits32 number.toInt then emit (.unary .push value)
    else
      emit (.binary .mov scratchOperand value)
      emit (.unary .push scratchOperand)
  | .str _ =>
    emit (.binary .lea scratchOperand value)
    emit (.unary .push scratchOperand)
  | _ => emit (.unary .push value)

/-- Whether moving arguments one by one would overwrite a register that a later one is in. -/
def clobbersSource (values : List Operand) : Bool :=
  (values.zip argumentRegisters).any fun (value, target) =>
    match value with
    | .reg r => r ∈ argumentRegisters && r ≠ target
    | _ => false

/-- Puts values into the argument registers, by way of the stack if they stand in each other's
way. -/
def passInRegisters (values : List Operand) : Lower Unit := do
  if clobbersSource values then
    values.forM pushOperand
    (argumentRegisters.take values.length).reverse.forM fun r => emit (.unary .pop (.reg r))
  else
    (values.zip argumentRegisters).forM fun (value, r) => emitMove (.reg r) value

/-- Puts saved temporaries back, into free registers or their spill slots. The register of the
result stays free for it. -/
def restoreSaved : List (Slot × Register × Int) → Lower (List (Slot × Location))
  | [] => return []
  | (s, _, offset) :: rest => do
    let a ← allocation
    let location ← match a.findFree? [returnRegister] with
      | some r => do
        emit (.binary .mov (.reg r) (frameWord offset))
        setAllocation (a.bind s r)
        pure (Location.register r)
      | none => do
        let (a, spillOffset) := a.spillSlot s
        setAllocation a
        emitMove (frameWord spillOffset) (frameWord offset)
        modifyAllocation (·.moveToStack s spillOffset)
        pure (Location.stack spillOffset)
    let restored ← restoreSaved rest
    return (s, location) :: restored

/-- The temporary that the instructions after a call move its result to, with the number of
instructions up to and with that move and what is live after it. Declarations may stand before the
move. -/
def resultTarget? (f : Function) : List (Instr × LiveSet) → Option (Slot × Nat × LiveSet)
  | (.unary .declare _, _) :: rest => (resultTarget? f rest).map fun (s, n, live) => (s, n + 1, live)
  | (.binary .mov (.slot s) .returnSlot, live) :: _ => if f.isTemporary s then some (s, 1, live) else none
  | _ => none

/-- A call. Its result is taken over with the move that follows it. The number of instructions after
the call that are done with it is returned. -/
def lowerCall (env : Env) (symbol : String) (arguments : List Operand) (returnType : Ty) (isExternal : Bool)
    (live : LiveSet) (rest : List (Instr × LiveSet)) : Lower Nat := do
  let saved ← saveLive live (← allocation).occupiedCallerSaved
  let values ← arguments.mapM (read env)
  let onStack := values.drop argumentRegisters.length
  let padding := onStack.length % 2
  if padding = 1 then emit (.binary .sub (.reg rsp) (.imm (Int64.ofInt word)))
  onStack.reverse.forM pushOperand
  passInRegisters (values.take argumentRegisters.length)
  emit (.unary .call (.callee symbol [] returnType isExternal))
  let stackBytes : Int := (onStack.length + padding : Nat) * word
  if 0 < stackBytes then emit (.binary .add (.reg rsp) (.imm (Int64.ofInt stackBytes)))
  modifyAllocation fun a => a.occupiedCallerSaved.foldl (fun a (r, _) => a.release r) a
  let target := if returnType.hasValue then resultTarget? env.function rest else none
  match target with
  | some (s, _, _) => modifyAllocation (·.bind s returnRegister)
  | none => pure ()
  let restored ← restoreSaved saved
  let record : CallRecord := ⟨symbol, saved.map fun (s, r, _) => (s, r), restored, stackBytes⟩
  modify fun s => { s with calls := s.calls ++ [record] }
  match target with
  | some (_, n, liveAfter) =>
    modifyAllocation (·.releaseDead liveAfter)
    return n
  | none =>
    modifyAllocation (·.releaseDead live)
    return 0

/-! ### Blocks -/

/-- Stores the temporaries that are live at the end of a block to their spill slots. -/
def spillLiveOut (out : LiveSet) : Lower Unit := do
  (← allocation).occupied.forM fun (r, s) => if out.contains s then spill r else pure ()

/-- Lowers an instruction. The number of instructions after it that are done with it is returned. -/
def lowerInstr (env : Env) (out : LiveSet) (i : Instr) (live : LiveSet) (rest : List (Instr × LiveSet)) :
    Lower Nat := do
  match i with
  | .unary .call (.callee symbol arguments returnType isExternal) =>
    lowerCall env symbol arguments returnType isExternal live rest
  | _ =>
    match i with
    | .unary .declare _ => pure ()
    | .binary .mov destination source => lowerMove env destination source live
    | .binary .add destination source => lowerArithmetic env .add destination source
    | .binary .sub destination source => lowerArithmetic env .sub destination source
    | .binary .imul destination source => lowerArithmetic env .imul destination source
    | .binary .cmp destination source => lowerArithmetic env .cmp destination source
    | .binary .idiv destination source => lowerDivision env .idiv destination source live
    | .binary .irem destination source => lowerDivision env .irem destination source live
    | .unary .neg operand => lowerNegate env operand
    | .unary .jmp _ | .unary (.jcc _) _ =>
      spillLiveOut out
      emit i
    | _ =>
      if i.operands.any Operand.isVirtual then throw (.cannotLower i env.function.name)
      emit i
    modifyAllocation (·.releaseDead live)
    return 0

/-- Lowers instructions in their order, each with what is live after it; the first `done` are done
already. -/
def lowerInstrs (env : Env) (out : LiveSet) : Nat → List (Instr × LiveSet) → Lower Unit
  | _, [] => pure ()
  | done + 1, _ :: rest => lowerInstrs env out done rest
  | 0, (i, live) :: rest => do
    let done ← lowerInstr env out i live rest
    lowerInstrs env out done rest

/-- At the start of a block no register is occupied, and the live temporaries are in their spill
slots. -/
def enterBlock (env : Env) (liveIn : LiveSet) : Lower Unit := do
  modifyAllocation (·.clear)
  (liveIn.toList.filter env.function.isTemporary).forM fun s =>
    modifyAllocation fun a => let (a, offset) := a.spillSlot s; a.moveToStack s offset

def lowerBlock (env : Env) (liveness : Liveness) (block : Block) (position : Nat) : Lower (List Instr) := do
  let out := liveness.liveOut.getD position ∅
  enterBlock env (liveness.liveIn.getD position ∅)
  lowerInstrs env out 0 (block.instructions.zip (liveness.liveAfter.getD position []))
  if block.terminator?.isNone then spillLiveOut out
  modifyGet fun s => (s.output.toList, { s with output := #[] })

/-- Puts the epilogue before every return. -/
def withEpilogue (epilogue : List Instr) (is : List Instr) : List Instr :=
  is.flatMap fun i => if i.opcode = .ret then epilogue ++ [i] else [i]

/-- Lowers the blocks of a function in their order, and then sets up its frame around them. -/
def lowerBlocks (env : Env) (liveness : Liveness) (blocks : List Block) :
    Lower (List (List Instr) × FunctionReport) := do
  let codes ← blocks.zipIdx.mapM fun (block, position) => lowerBlock env liveness block position
  let s ← get
  let (frame, saved) := s.allocation.frame.allocateAll s.allocation.usedCalleeSaved
  let frameSize := frame.alignedSize
  let adjusts := needsStackAdjustment env.function.isLeaf frameSize
  let framed ← match codes with
    | [] => pure []
    | entry :: others =>
      match prologue? env.homes frameSize adjusts saved with
      | some start => pure ((start ++ entry) :: others)
      | none => throw .missing
  return (framed.map (withEpilogue (epilogue adjusts saved)),
    ⟨env.function.name, frameSize, adjusts, saved.map (·.1), s.calls⟩)

end Lowering

/-- The machine code of a function, by the positions of its blocks, with a report on it. -/
def lowerFunction (lir : Lir) (f : Function) (flow : Flow) (liveness : Liveness) :
    Except Failure (List (List Instr) × FunctionReport) := do
  let (frame, homes) := Homes.of f .empty
  let blocks ← flow.blocks.mapM lir.getBlock
  let start : Lowering.State := ⟨.new frame, ∅, [], #[]⟩
  let (result, _) ← (Lowering.lowerBlocks ⟨f, homes⟩ liveness blocks).run start
  return result

end EmLang.Native
