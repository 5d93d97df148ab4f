import EmLang.Proofs.FunctionRuns

/-!
The listing of a whole program. A function is laid out in two blocks, of which the first runs into
the second, so no jump is left; a function that is laid out leaves the blocks of others alone. In
the end every instruction is one that can be written down, and so every program that is built has a
listing.
-/

namespace EmLang.Lir

open Array

/-! ### Two blocks of a program -/

/-- The program with other blocks at two places. -/
def withBlocks (lir : Lir) (entry exit : BlockId) (first last : Block) : Lir :=
  (lir.modifyBlock entry fun _ => first).modifyBlock exit fun _ => last

variable {lir lir' : Lir} {entry exit : BlockId} {first last : Block}

lemma blocks_modifyBlock (lir : Lir) (b c : BlockId) (change : Block → Block) :
    (lir.modifyBlock b change).blocks[c]? = if c = b then (lir.blocks[c]?).map change else lir.blocks[c]? := by
  rw [modifyBlock, getElem?_modify]
  simp only [eq_comm]

lemma blocks_withBlocks (lir : Lir) (entry exit : BlockId) (first last : Block) (b : BlockId) :
    (lir.withBlocks entry exit first last).blocks[b]? = (lir.blocks[b]?).map fun block =>
    if b = exit then last else if b = entry then first else block := by
  rw [withBlocks, blocks_modifyBlock, blocks_modifyBlock]
  cases lir.blocks[b]? <;> split_ifs <;> rfl

lemma ext_blocks (functions : lir.functions = lir'.functions) (strings : lir.strings = lir'.strings)
    (blocks : ∀ b : BlockId, lir.blocks[b]? = lir'.blocks[b]?) : lir = lir' := by
  cases lir
  cases lir'
  simp only at functions strings blocks
  rw [functions, strings, ext_getElem? blocks]

lemma withBlocks_self (atEntry : lir.blocks[entry]? = some first) (atExit : lir.blocks[exit]? = some last) :
    lir.withBlocks entry exit first last = lir := by
  refine ext_blocks rfl rfl fun b => ?_
  rw [blocks_withBlocks]
  split_ifs with isExit isEntry
  · rw [isExit, atExit]
    rfl
  · rw [isEntry, atEntry]
    rfl
  · rw [Option.map_id']

lemma modifyBlock_entry (lir : Lir) (other : entry ≠ exit) (first last : Block)
    (change : Block → Block) : (lir.withBlocks entry exit first last).modifyBlock entry change =
    lir.withBlocks entry exit (change first) last := by
  refine ext_blocks rfl rfl fun b => ?_
  rw [blocks_modifyBlock, blocks_withBlocks, blocks_withBlocks]
  by_cases here : b = entry
  · have other' : b ≠ exit := here ▸ other
    simp only [here, other, if_true, if_false, Option.map_map, Function.comp_def]
  · simp only [here, if_false]

lemma modifyBlock_exit (lir : Lir) (entry exit : BlockId) (first last : Block)
    (change : Block → Block) : (lir.withBlocks entry exit first last).modifyBlock exit change =
    lir.withBlocks entry exit first (change last) := by
  refine ext_blocks rfl rfl fun b => ?_
  rw [blocks_modifyBlock, blocks_withBlocks, blocks_withBlocks]
  by_cases here : b = exit
  · simp only [here, if_true, Option.map_map, Function.comp_def]
  · simp only [here, if_false]

end EmLang.Lir

namespace EmLang.Native

open Lir List Lowering Option Register

variable {i : Instr} {S : Int → Prop} {front : List Instr} {o : Operand} {exit : BlockId}
  {f : Lir.Function} {g h : Nat} {lir lir' : Lir}

/-! ### Layout -/

namespace Layout

variable {entry : BlockId} {first last : Block}

/-- The block without moves of an operand onto itself. -/
def tidy (is : List Instr) : List Instr := is.filter fun i => !i.isSelfMove

lemma callees_tidy (is : List Instr) : callees (tidy is) = callees is := by
  rw [callees, callees, tidy, filterMap_filter]
  refine filterMap_congr fun i _ => ?_
  split
  · rfl
  · rename_i moves
    split
    · cases moves rfl
    · rfl

section

variable (other : entry ≠ exit) (atEntry : entry < lir.blocks.size) (atExit : exit < lir.blocks.size)

lemma code_exit (atExit : exit < lir.blocks.size) :
    code (lir.withBlocks entry exit first last) exit = last.instructions := by
  rw [code, blocks_withBlocks, Array.getElem?_eq_getElem atExit]
  simp

include other in
lemma code_entry (atEntry : entry < lir.blocks.size) :
    code (lir.withBlocks entry exit first last) entry = first.instructions := by
  rw [code, blocks_withBlocks, Array.getElem?_eq_getElem atEntry]
  simp [other]

include other in
lemma setCode_entry (is : List Instr) : setCode (lir.withBlocks entry exit first last) entry is =
    lir.withBlocks entry exit { first with instructions := is } last :=
  modifyBlock_entry lir other first last _

lemma setCode_exit (is : List Instr) : setCode (lir.withBlocks entry exit first last) exit is =
    lir.withBlocks entry exit first { last with instructions := is } :=
  modifyBlock_exit lir entry exit first last _

include other atEntry atExit

lemma dropSelfMoves_withBlocks : dropSelfMoves (lir.withBlocks entry exit first last) [entry,
      exit] = lir.withBlocks entry exit { first with instructions := tidy first.instructions }
    { last with instructions := tidy last.instructions } := by
  simp only [dropSelfMoves, foldl_cons, foldl_nil, code_entry other atEntry, setCode_entry other,
    code_exit atExit, setCode_exit, tidy]

lemma round_withBlocks (front : List Instr) (dropped : Bool) (blocks : blocksOf lir g =
      [entry, exit]) (drops : dropJumps (lir.withBlocks entry exit first last) [entry, exit] =
      (lir.withBlocks entry exit { first with instructions := front } last, dropped))
    (some_ : front ≠ []) (more : last.instructions ≠ []) :
    round (lir.withBlocks entry exit first last) g = (lir.withBlocks entry exit
      { first with instructions := front } last, if dropped then .again else .done) := by
  have same : blocksOf (lir.withBlocks entry exit first last) g = [entry, exit] := blocks
  have empty : ([entry, exit].findIdx? fun b =>
      (code (lir.withBlocks entry exit { first with instructions := front } last) b).isEmpty) = none := by
    simp [findIdx?_cons, code_entry other atEntry, code_exit atExit, some_, more]
  simp only [round, same, drops, empty]

omit atEntry atExit in
lemma number_withBlocks : number (lir.withBlocks entry exit first last) [entry, exit] =
    lir.withBlocks entry exit { first with position := some 0, isTarget := false }
    { last with position := some 1, isTarget := false } := by
  simp only [number, zipIdx_cons, zipIdx_nil, foldl_cons, foldl_nil, modifyBlock_entry lir other,
    modifyBlock_exit, zero_add]

variable (found : lir.functions[g]? = some f) (blocks : f.blocks = [entry, exit])

include found blocks

/-- A function whose first block ends with its only jump, to the second, is laid out without it. -/
lemma finalize_withBlocks (jumps : first.instructions = front ++ [.unary .jmp (.block exit)])
    (start : tidy front ≠ []) (more : tidy last.instructions ≠ [])
    (straight : ∀ i ∈ front ++ last.instructions, i.jumpTarget? = none) :
    finalize (lir.withBlocks entry exit first last) g = (lir.withBlocks entry exit
      { first with instructions := tidy front, position := some 0, isTarget := false }
      { last with instructions := tidy last.instructions, position := some 1, isTarget := false },
      none) := by
  have here : blocksOf lir g = [entry, exit] := by rw [blocksOf, found, map_some, getD_some, blocks]
  have size : (lir.withBlocks entry exit first last).blocks.size = lir.blocks.size := by
    simp only [withBlocks, modifyBlock, Array.size_modify]
  have present : ([entry, exit].any fun b =>
      !decide (b < (lir.withBlocks entry exit first last).blocks.size)) = false := by
    simp [size, atEntry, atExit]
  have tidied : tidy first.instructions = tidy front ++ [.unary .jmp (.block exit)] := by
    rw [jumps, tidy, filter_append]
    rfl
  have unjumped : ∀ {is : List Instr}, (∀ i ∈ is, i.jumpTarget? = none) → ∀ i ∈ tidy is, i.jumpTarget? = none :=
    fun h i hi => h i (mem_of_mem_filter hi)
  rw [forall_mem_append] at straight
  have stays : (tidy front).getLast? ≠ some (.unary .jmp (.block exit)) := by
    intro last
    cases unjumped straight.1 _ (mem_of_getLast? last)
  have settles n :
      settle g (n + 2) (lir.withBlocks entry exit { first with instructions := tidy first.instructions }
      { last with instructions := tidy last.instructions })
      = (lir.withBlocks entry exit { first with instructions := tidy front }
      { last with instructions := tidy last.instructions }, none) := by
    rw [settle, round_withBlocks other atEntry atExit (tidy front) true here ?_ start more]
    · show settle g (n + 1) _ = _
      rw [settle, round_withBlocks other atEntry atExit (tidy front) false here ?_ start more]
      · rfl
      · simp only [dropJumps, tail_cons, zip_cons_cons, zip_nil_right, foldl_cons, foldl_nil,
          dropJump, code_entry other atEntry, stays, if_false]
    · simp only [dropJumps, tail_cons, zip_cons_cons, zip_nil_right, foldl_cons, foldl_nil, dropJump,
        code_entry other atEntry, tidied, getLast?_concat, if_true, dropLast_concat, setCode_entry other]
  have rounds : ∃ n, roundsFor (lir.withBlocks entry exit { first with instructions := tidy first.instructions }
      { last with instructions := tidy last.instructions }) [entry, exit] = n + 2 :=
    ⟨(tidy first.instructions).length + ((tidy last.instructions).length + 1), by
      simp only [roundsFor, foldr_cons, foldr_nil, code_entry other atEntry, code_exit atExit]
      omega⟩
  obtain ⟨n, rounds⟩ := rounds
  have untargeted : targets (lir.withBlocks entry exit
      { first with instructions := tidy front, position := some 0, isTarget := false }
      { last with instructions := tidy last.instructions, position := some 1, isTarget := false }) [entry,
      exit] = [] := by
    simp only [targets, flatMap_cons, flatMap_nil, code_entry other atEntry, code_exit atExit,
      append_nil, append_eq_nil_iff, filterMap_eq_nil_iff]
    exact ⟨unjumped straight.1, unjumped straight.2⟩
  unfold finalize
  rw [show (lir.withBlocks entry exit first last).functions[g]? = some f from found]
  simp only [blocks, present, Bool.false_eq_true, if_false,
    dropSelfMoves_withBlocks other atEntry atExit, rounds, settles]
  rw [show blocksOf (lir.withBlocks entry exit _ _) g = [entry, exit] from here,
    number_withBlocks other, untargeted]
  rfl

lemma verify_withBlocks (physical : ∀ i ∈ first.instructions ++ last.instructions,
      i.opcode ≠ .declare ∧ ∀ o ∈ i.operands, o.isVirtual = false) :
    verify (lir.withBlocks entry exit first last) g = none := by
  have here : blocksOf (lir.withBlocks entry exit first last) g = [entry, exit] := by
    rw [blocksOf, show (lir.withBlocks entry exit first last).functions[g]? = some f from found,
      map_some, getD_some, blocks]
  have found : ∀ b (is : List Instr) name, (∀ i ∈ is, i.opcode ≠ .declare ∧
      ∀ o ∈ i.operands, o.isVirtual = false) → findVirtual b is name = none := by
    intro b is name physical
    rw [findVirtual, map_eq_none_iff, find?_eq_none]
    intro i hi
    obtain ⟨opcode, operands⟩ := physical i hi
    simpa [opcode] using operands
  rw [forall_mem_append] at physical
  rw [verify, here]
  simp only [findSome?_cons, findSome?_nil, code_entry other atEntry, code_exit atExit,
    found _ _ _ physical.1, found _ _ _ physical.2]

end

end Layout

/-! ### Instructions that can be written down -/

/-- An operand of the machine, for which there is a text. -/
structure Written (o : Operand) : Prop where
  physical : o.isVirtual = false
  text : ∀ lir g f, ∃ text, Listing.operandText lir g f o = .ok text

/-- The operand names no function. -/
def Unnamed (o : Operand) : Prop :=
  ∀ symbol arguments returnType isExternal, o ≠ .callee symbol arguments returnType isExternal

/-- An instruction of the machine, no jump, for which there is a line in a listing. -/
structure Printable (i : Instr) : Prop where
  opcode : i.opcode ≠ .declare ∧ i.opcode ≠ .irem
  stays : i.jumpTarget? = none
  operands : ∀ o ∈ i.operands, Written o
  calls : (∃ symbol returnType isExternal, i = .unary .call (.callee symbol [] returnType isExternal)) ∨
    i.opcode ≠ .call ∧ ∀ o ∈ i.operands, Unnamed o

lemma Printable.of_plain (opcode : i.opcode ≠ .declare ∧ i.opcode ≠ .irem ∧ i.opcode ≠ .call)
    (stays : i.jumpTarget? = none) (operands : ∀ o ∈ i.operands, Written o ∧ Unnamed o) :
    Printable i :=
  ⟨⟨opcode.1, opcode.2.1⟩, stays, fun o ho => (operands o ho).1,
  .inr ⟨opcode.2.2, fun o ho => (operands o ho).2⟩⟩

lemma Encodable.printable (h : Encodable S i) (stays : i.opcode ≠ .jmp) : Printable i := by
  have short {o : Operand} (h : isShort o = true) : Written o ∧ Unnamed o := by
    cases o with
    | reg _ | mem _ _ | imm _ => exact ⟨⟨rfl, fun _ _ _ => ⟨_, rfl⟩⟩, by rintro _ _ _ _ ⟨⟩⟩
    | _ => cases h
  have one {o : Operand} (h : Written o ∧ Unnamed o) : ∀ x ∈ [o], Written x ∧ Unnamed x :=
    forall_mem_singleton.2 h
  have pair {o o' : Operand} (h : isShort o = true) (h' : Written o' ∧ Unnamed o') : ∀ x ∈ [o, o'],
    Written x ∧ Unnamed x := forall_mem_cons.2 ⟨short h, one h'⟩
  cases h with
  | load form =>
    refine .of_plain (by simp [Instr.opcode]) rfl (pair rfl ?_)
    obtain form | ⟨w, rfl⟩ := form
    · exact short form
    · exact ⟨⟨rfl, fun _ _ _ => ⟨_, rfl⟩⟩, by rintro _ _ _ _ ⟨⟩⟩
  | store form _ => exact .of_plain (by simp [Instr.opcode]) rfl (pair rfl (short form))
  | lea r index => exact .of_plain (by simp [Instr.opcode]) rfl (pair rfl ⟨⟨rfl,
      fun _ _ _ => ⟨_, rfl⟩⟩, by rintro _ _ _ _ ⟨⟩⟩)
  | @operate op _ _ form source =>
    refine .of_plain ?_ rfl (pair rfl (short source))
    refine ⟨?_, ?_, ?_⟩ <;> rintro rfl <;> simp at form
  | @shift op bytes form _ =>
    refine .of_plain ?_ rfl (pair rfl ⟨⟨rfl, fun _ _ _ => ⟨_, rfl⟩⟩, by rintro _ _ _ _ ⟨⟩⟩)
    refine ⟨?_, ?_, ?_⟩ <;> rintro rfl <;> simp at form
  | idiv source _ | push source => exact .of_plain (by simp [Instr.opcode]) rfl (one (short source))
  | neg | pop => exact .of_plain (by simp [Instr.opcode]) rfl (one (short rfl))
  | cqo | ret => exact .of_plain (by simp [Instr.opcode]) rfl (by rintro _ ⟨⟩)
  | call symbol returnType isExternal =>
    refine ⟨by simp [Instr.opcode], rfl, forall_mem_singleton.2 ?_, .inl ⟨symbol, returnType, isExternal, rfl⟩⟩
    exact ⟨by simp [Operand.isVirtual, Operand.anyVirtual], fun _ _ _ => ⟨_, rfl⟩⟩
  | jmp b => exact absurd rfl stays

lemma Lowering.Lawful.encodable {σ : State} (h : Lawful σ i) : Encodable σ.Shifts i ∧ i.opcode ≠ .jmp := by
  obtain proper | ⟨⟨divisor, rfl, -⟩, encodable⟩ := h
  · refine ⟨proper.encodable, fun jumps => ?_⟩
    have plain := proper.plain
    rw [jumps] at plain
    cases plain
  · exact ⟨encodable, nofun⟩

/-- The numbers of bytes by which the code of a function moves the stack pointer. -/
def FunctionReport.Shifts (report : FunctionReport) (bytes : Int) : Prop :=
  bytes = word ∨ bytes = report.frameSize ∨ ∃ call ∈ report.calls, call.stackBytes = bytes

/-! ### One function after the other -/

/-- A block that can be written down without a label. -/
structure Listed (block : Block) : Prop where
  placed : ∃ position, block.position = some position
  unmarked : block.isTarget = false
  printable : ∀ i ∈ block.instructions, Printable i

/-- The machine has the code of a function, and no jump is left but the one between its blocks. -/
lemma Lowering.Assembly.encodable {code : List (List Instr)} {is : List Instr}
    {report : FunctionReport} {valued : Bool} (a : Assembly f exit valued is code report) :
    ∃ front last, code = [front ++ [.unary .jmp (.block exit)], last] ∧ .unary .push (.reg rbp) ∈
    front ∧ .nullary .ret ∈ last ∧ (∀ i ∈ front ++ last, Encodable report.Shifts i ∧
      i.opcode ≠ .jmp) ∧ callees front = callees is ∧ callees last = [] := by
  obtain ⟨_, σ1, rfl, ⟨-, -, body, added, coded, -⟩, -, grows, jump⟩ := a.leaves
  have shifts : ∀ bytes, σ1.Shifts bytes → report.Shifts bytes := by
    rintro bytes (rfl | ⟨call, made, rfl⟩)
    · exact .inl rfl
    · have calls : report.calls = a.final.calls := congrArg FunctionReport.calls a.report_eq
      exact .inr (.inr ⟨call, calls ▸ (grows.trans a.grows).calls.subset made, rfl⟩)
  refine ⟨enterCode report.frameSize report.adjustsStack ++
    (a.final.saved ++ a.parameters).map storeInstr ++ body,
    a.final.saved.reverse.map loadInstr ++ leaveCode report.adjustsStack ++ [.nullary .ret],
    ?_, by simp [enterCode], mem_append_right _ (mem_singleton_self _), ?_, ?_, ?_⟩
  · rw [append_assoc _ body,
      show body ++ [_] = a.ended.output.toList by rw [jump, added, a.entered_output]; rfl]
    exact a.code_eq
  · refine forall_mem_append.2 ⟨forall_mem_append.2 ⟨forall_mem_append.2 ⟨?_, ?_⟩, fun i hi => ?_⟩,
      forall_mem_append.2 ⟨forall_mem_append.2 ⟨?_, ?_⟩, ?_⟩⟩
    · have push : Encodable report.Shifts (.unary .push (.reg rbp)) := .push rfl
      have mov : Encodable report.Shifts (.binary .mov (.reg rbp) (.reg rsp)) := .load (.inl rfl)
      have sub : Encodable report.Shifts (.binary .sub (.reg rsp)
        (.imm (Int64.ofInt report.frameSize))) := .shift (.inr rfl) (.inr (.inl rfl))
      cases report.adjustsStack <;> simp [enterCode, Instr.opcode, push, mov, sub]
    · exact forall_mem_map.2 fun p _ => ⟨.store rfl rfl, by rintro ⟨⟩⟩
    · obtain ⟨encodable, stays⟩ := (coded.lawful i hi).encodable
      exact ⟨encodable.mono shifts, stays⟩
    · exact forall_mem_map.2 fun p _ => ⟨.load (.inl rfl), by rintro ⟨⟩⟩
    · have mov : Encodable report.Shifts (.binary .mov (.reg rsp) (.reg rbp)) := .load (.inl rfl)
      have pop : Encodable report.Shifts (.unary .pop (.reg rbp)) := .pop rbp
      cases report.adjustsStack <;> simp [leaveCode, Instr.opcode, mov, pop]
    · exact forall_mem_singleton.2 ⟨.ret, by rintro ⟨⟩⟩
  · have entering : callees (enterCode report.frameSize report.adjustsStack) = [] :=
      by cases report.adjustsStack <;> rfl
    have storing : callees ((a.final.saved ++ a.parameters).map storeInstr) = [] :=
      callees_of_forall (forall_mem_map.2 (by rintro _ _ ⟨⟩))
    rw [callees_append, callees_append, callees_append, entering, storing, coded.callees]
    exact (append_nil _).symm
  · have loading : callees (a.final.saved.reverse.map loadInstr) = [] :=
      callees_of_forall (forall_mem_map.2 (by rintro _ _ ⟨⟩))
    rw [callees_append, callees_append, loading]
    cases report.adjustsStack <;> rfl

/-- The functions that function number `g` calls, in the order of the calls. -/
def callsOf (lir : Lir) (g : Nat) : List (String × Bool) := (Layout.blocksOf lir g).flatMap fun b =>
    callees (Layout.code lir b)

/-- The code of function number `g`, block by block. -/
def codeOf (lir : Lir) (g : Nat) : List (List Instr) := (Layout.blocksOf lir g).map (Layout.code lir)

lemma callsOf_eq (lir : Lir) (g : Nat) : callsOf lir g = (codeOf lir g).flatMap callees := by
  rw [callsOf, codeOf, flatMap_map]

/-- The machine has all instructions of function number `g`, of which there is this report. -/
def Formed (lir : Lir) (g : Nat) (report : FunctionReport) : Prop :=
  ∀ is ∈ codeOf lir g, ∀ i ∈ is, Encodable report.Shifts i

/-- Function number `g` waits to be lowered. -/
def Waits (lir : Lir) (g : Nat) : Prop :=
  ∃ f entry exit front first last, lir.functions[g]? = some f ∧ Plainly lir g f entry exit front first last

/-- Function number `g` can be written down. -/
def Settled (lir : Lir) (g : Nat) : Prop :=
  ∀ f, lir.functions[g]? = some f → ∀ b ∈ f.blocks, ∃ block, lir.blocks[b]? = some block ∧
  block.function = g ∧ Listed block

/-- Only blocks of function number `g` differ. -/
structure Spares (g : Nat) (lir lir' : Lir) : Prop where
  functions : lir'.functions = lir.functions
  blocks : ∀ (b : BlockId) block, lir.blocks[b]? = some block → block.function ≠ g →
    lir'.blocks[b]? = some block

/-- The blocks of function number `g` belong to no other. -/
def Owned (lir : Lir) (g : Nat) : Prop :=
  ∀ b ∈ Layout.blocksOf lir g, ∃ block, lir.blocks[b]? = some block ∧ block.function = g

lemma Waits.owned (waits : Waits lir g) : Owned lir g := by
  obtain ⟨f, entry, exit, front, first, last, found, plainly⟩ := waits
  rw [Owned, Layout.blocksOf, found, map_some, getD_some, plainly.blocks]
  exact forall_mem_cons.2 ⟨⟨first, plainly.atEntry, plainly.owned.1⟩, forall_mem_singleton.2 ⟨last,
    plainly.atExit, plainly.owned.2⟩⟩

lemma Settled.owned (settled : Settled lir g) : Owned lir g := by
  intro b hb
  rw [Layout.blocksOf] at hb
  cases found : lir.functions[g]? with
  | none =>
    rw [found] at hb
    cases hb
  | some f =>
    rw [found] at hb
    obtain ⟨block, here, owned, -⟩ := settled f found b hb
    exact ⟨block, here, owned⟩

lemma Spares.codeOf (spares : Spares g lir lir') (owned : Owned lir h) (other : h ≠ g) :
    codeOf lir' h = codeOf lir h := by
  rw [Native.codeOf, Native.codeOf, show Layout.blocksOf lir' h =
    Layout.blocksOf lir h by rw [Layout.blocksOf, spares.functions]; rfl]
  refine map_congr_left fun b hb => ?_
  obtain ⟨block, here, own⟩ := owned b hb
  rw [Layout.code, Layout.code, here, spares.blocks b block here (own ▸ other)]

lemma Waits.keep (waits : Waits lir h) (spares : Spares g lir lir') (other : h ≠ g) : Waits lir' h := by
  obtain ⟨f, entry, exit, front, first, last, found, plainly⟩ := waits
  refine ⟨f, entry, exit, front, first, last, spares.functions ▸ found,
    { plainly with atEntry := ?_, atExit := ?_ }⟩
  · exact spares.blocks _ _ plainly.atEntry (plainly.owned.1 ▸ other)
  · exact spares.blocks _ _ plainly.atExit (plainly.owned.2 ▸ other)

lemma Settled.keep (settled : Settled lir h) (spares : Spares g lir lir') (other : h ≠ g) : Settled lir' h := by
  intro f found b hb
  obtain ⟨block, here, owned, listed⟩ := settled f (spares.functions ▸ found) b hb
  exact ⟨block, spares.blocks b block here (owned ▸ other), owned, listed⟩

lemma lowerInPlace_of_waits (waits : Waits lir g) :
    ∃ lir' report, lowerInPlace lir g = (lir', .ok report) ∧ Settled lir' g ∧ Spares g lir lir' ∧
    callsOf lir' g = callsOf lir g ∧ Formed lir' g report := by
  obtain ⟨f, entry, exit, front, first, last, found, plainly⟩ := waits
  obtain ⟨code, report, lowered, ⟨assembly⟩⟩ := plainly.functionCode found
  obtain ⟨start, finish, rfl, push, ret, encodable, calls, quiet⟩ := assembly.encodable
  have printable i (hi : i ∈ start ++ finish) : Printable i := (encodable i hi).1.printable (encodable i hi).2
  have other := plainly.other
  have atEntry := (getElem?_eq_some_iff.1 plainly.atEntry).1
  have atExit := (getElem?_eq_some_iff.1 plainly.atExit).1
  -- The program with the code of the function, and then with its layout.
  let first1 : Block := { first with instructions := start ++ [.unary .jmp (.block exit)] }
  let last1 : Block := { last with instructions := finish }
  let first2 : Block := { first with instructions := Layout.tidy start, position := some 0, isTarget := false }
  let last2 : Block := { last with instructions := Layout.tidy finish, position := some 1, isTarget := false }
  have coded : ([entry, exit].zip [start ++ [.unary .jmp (.block exit)], finish]).foldl
      (fun lir p => Layout.setCode lir p.1 p.2) lir = lir.withBlocks entry exit first1 last1 := by
    simp only [zip_cons_cons, zip_nil_right, foldl_cons, foldl_nil]
    conv_lhs => rw [← withBlocks_self plainly.atEntry plainly.atExit]
    rw [Layout.setCode_entry other, Layout.setCode_exit]
  have finalized : Layout.finalize (lir.withBlocks entry exit first1 last1) g =
    (lir.withBlocks entry exit first2 last2, none) :=
    Layout.finalize_withBlocks other atEntry atExit found plainly.blocks rfl
    (ne_nil_of_mem (mem_filter.2 ⟨push, rfl⟩)) (ne_nil_of_mem (mem_filter.2 ⟨ret, rfl⟩)) fun i hi =>
    (printable i hi).stays
  rw [forall_mem_append] at printable
  have printable1 i (hi : i ∈ first2.instructions) : Printable i := printable.1 i (mem_of_mem_filter hi)
  have printable2 i (hi : i ∈ last2.instructions) : Printable i := printable.2 i (mem_of_mem_filter hi)
  have verified : Layout.verify (lir.withBlocks entry exit first2 last2) g = none :=
    Layout.verify_withBlocks other atEntry atExit found plainly.blocks (forall_mem_append.2
      ⟨fun i hi => ⟨(printable1 i hi).opcode.1, fun o ho => ((printable1 i hi).operands o ho).physical⟩,
        fun i hi => ⟨(printable2 i hi).opcode.1, fun o ho => ((printable2 i hi).operands o ho).physical⟩⟩)
  have code_eq : codeOf (lir.withBlocks entry exit first2 last2) g = [Layout.tidy start,
      Layout.tidy finish] := by
    have blocks : Layout.blocksOf lir g = [entry, exit] := by rw [Layout.blocksOf, found, map_some,
      getD_some, plainly.blocks]
    rw [codeOf, show Layout.blocksOf (lir.withBlocks entry exit first2 last2) g = [entry,
      exit] from blocks, map_cons, map_singleton, Layout.code_entry other atEntry,
      Layout.code_exit atExit]
  refine ⟨lir.withBlocks entry exit first2 last2, report, ?_, fun f' found' b hb => ?_,
    ⟨rfl, fun b block here foreign => ?_⟩, ?_, ?_⟩
  · simp only [lowerInPlace, lowered, coded, finalized, verified]
  · obtain rfl := mem_unique found found'
    rw [plainly.blocks, mem_pair] at hb
    obtain rfl | rfl := hb
    · exact ⟨first2, by rw [blocks_withBlocks, plainly.atEntry, map_some, if_neg other,
        if_pos rfl], plainly.owned.1, ⟨0, rfl⟩, rfl, printable1⟩
    · exact ⟨last2, by rw [blocks_withBlocks, plainly.atExit, map_some,
        if_pos rfl], plainly.owned.2, ⟨1, rfl⟩, rfl, printable2⟩
  · have notExit : b ≠ exit := by
      rintro rfl
      exact foreign (mem_unique here plainly.atExit ▸ plainly.owned.2)
    have notEntry : b ≠ entry := by
      rintro rfl
      exact foreign (mem_unique here plainly.atEntry ▸ plainly.owned.1)
    rw [blocks_withBlocks, here, map_some, if_neg notExit, if_neg notEntry]
  · have blocks : Layout.blocksOf lir g = [entry, exit] := by rw [Layout.blocksOf, found, map_some,
      getD_some, plainly.blocks]
    have before : callsOf lir g = callees first.instructions := by
      rw [callsOf, blocks, flatMap_cons, flatMap_singleton, Layout.code, Layout.code,
        plainly.atEntry, plainly.atExit, map_some, map_some, getD_some, getD_some, plainly.returns]
      exact append_nil _
    rw [before, callsOf_eq, code_eq, flatMap_cons, flatMap_singleton, Layout.callees_tidy,
      Layout.callees_tidy, calls, quiet, append_nil]
  · rw [Formed, code_eq]
    rw [forall_mem_append] at encodable
    exact forall_mem_cons.2 ⟨fun i hi => (encodable.1 i (mem_of_mem_filter hi)).1,
      forall_mem_singleton.2 fun i hi => (encodable.2 i (mem_of_mem_filter hi)).1⟩

lemma lowerEach_of_waits {gs : List Nat} (distinct : gs.Nodup) (waits : ∀ g ∈ gs, Waits lir g) :
    ∃ lir' reports, lowerEach lir gs = ⟨lir', reports, none⟩ ∧
    lir'.functions = lir.functions ∧ (∀ g ∈ gs, Settled lir' g) ∧
    (∀ h, h ∉ gs → Settled lir h → Settled lir' h ∧ codeOf lir' h = codeOf lir h) ∧
    (∀ g ∈ gs, callsOf lir' g = callsOf lir g) ∧ Forall₂ (Formed lir') gs reports := by
  induction gs generalizing lir with
  | nil => exact ⟨lir, [], rfl, rfl, nofun, fun _ _ settled => ⟨settled, rfl⟩, nofun, .nil⟩
  | cons g gs ih =>
    obtain ⟨fresh, distinct⟩ := nodup_cons.1 distinct
    rw [forall_mem_cons] at waits
    obtain ⟨lir1, report, lowered, settled, spares, calls, formed⟩ := lowerInPlace_of_waits waits.1
    have ne : ∀ {h}, h ∈ gs → h ≠ g := fun hh same => fresh (same ▸ hh)
    obtain ⟨lir', reports, rest, functions, all, keeps, called, formedAll⟩ :=
      ih distinct fun h hh => (waits.2 h hh).keep spares (ne hh)
    obtain ⟨settled', same⟩ := keeps g fresh settled
    refine ⟨lir', report :: reports, ?_, functions.trans spares.functions, forall_mem_cons.2 ⟨settled', all⟩,
      fun h hh before => ?_, forall_mem_cons.2 ⟨?_, fun h hh => ?_⟩, .cons ?_ formedAll⟩
    · simp only [lowerEach, lowered, rest]
    · rw [mem_cons, not_or] at hh
      obtain ⟨after, same⟩ := keeps h hh.2 (before.keep spares hh.1)
      exact ⟨after, same.trans (spares.codeOf before.owned hh.1)⟩
    · rw [callsOf_eq, same, ← callsOf_eq, calls]
    · rw [called h hh, callsOf_eq, spares.codeOf (waits.2 h hh).owned (ne hh), ← callsOf_eq]
    · rw [Formed, same]
      exact formed

lemma waits_of_built {p : Program} (checked : p.Checked) (built : p.build.lir = .ok lir) :
    ∀ g ∈ range lir.functions.size, Waits lir g := by
  intro g hg
  obtain ⟨f, found⟩ : ∃ f, lir.functions[g]? = some f := ⟨_, Array.getElem?_eq_getElem (mem_range.1 hg)⟩
  obtain ⟨entry, exit, front, first, last, plainly⟩ := plainly_of_built checked built found
  exact ⟨f, entry, exit, front, first, last, found, plainly⟩

/-! ### Listings -/

namespace Listing

lemma instrText_of_printable (h : Printable i) : ∃ text, instrText lir g f i = .ok text := by
  obtain ⟨texts, written⟩ := exists_mapM_ok (operandText lir g f) fun o ho => (h.operands o ho).text lir g f
  have opcode : ¬ (i.opcode = .declare ∨ i.opcode = .irem) := not_or.2 h.opcode
  rw [instrText, if_neg opcode, written]
  cases texts <;> exact ⟨_, rfl⟩

lemma blockText_of_listed {b : BlockId} {block : Block} (here : lir.blocks[b]? = some block)
    (h : Listed block) : ∃ text, blockText lir g f b = .ok text := by
  obtain ⟨position, placed⟩ := h.placed
  have lines i (hi : i ∈ block.instructions) : ∃ line,
      (do return "    " ++ (← instrText lir g f i) ++ "\n") = Except.ok line := by
    obtain ⟨text, line⟩ : ∃ text, instrText lir g f i = .ok text := instrText_of_printable (h.printable i hi)
    exact ⟨_, by rw [line]; rfl⟩
  obtain ⟨lines, written⟩ := exists_mapM_ok _ lines
  rw [blockText, getBlock, here]
  simp only [bind, Except.bind, placed] at written ⊢
  rw [written]
  exact ⟨_, rfl⟩

lemma of_settled (settled : ∀ g, Settled lir g) : ∃ listing, Listing.of lir = .ok listing := by
  have all : ∀ p ∈ lir.functions.toList.zipIdx, ∃ text, functionText lir p.2 p.1 = .ok text := by
    rintro ⟨f, g⟩ hp
    have found : lir.functions[g]? = some f := by
      rw [← Array.getElem?_toList]
      exact mem_zipIdx_iff_getElem?.1 hp
    have blocks b (hb : b ∈ f.blocks) : ∃ text, blockText lir g f b = .ok text := by
      obtain ⟨block, here, -, listed⟩ := settled g f found b hb
      exact blockText_of_listed here listed
    obtain ⟨texts, written⟩ := exists_mapM_ok _ blocks
    rw [functionText, written]
    exact ⟨_, rfl⟩
  obtain ⟨texts, written⟩ := exists_mapM_ok _ all
  rw [Listing.of, written]
  exact ⟨_, rfl⟩

end Listing

/-- **Every program that is built has a listing**: no step on the way to it fails. -/
theorem compile_of_build {text : List Char} {p : Program} {lir : Lir} (accepted : Program.compile text = .ok p)
    (built : p.build.lir = .ok lir) : ∃ listing, Native.compile lir = .ok listing := by
  obtain ⟨lir', reports, lowered, functions, settled, -⟩ := lowerEach_of_waits nodup_range
    (waits_of_built (Program.checked_of_compile accepted) built)
  have all : ∀ g, Settled lir' g := by
    intro g f found
    have lt : g < lir'.functions.size := (getElem?_eq_some_iff.1 found).1
    exact settled g (mem_range.2 (functions ▸ lt)) f found
  obtain ⟨listing, written⟩ := Listing.of_settled all
  refine ⟨listing, ?_⟩
  rw [Native.compile, lower, lowered]
  exact written

theorem compile_of_build_sevenArguments : ∃ p lir listing, Program.compile sevenArguments = .ok p ∧
    p.build.lir = .ok lir ∧ Native.compile lir = .ok listing := by
  obtain ⟨p, lir, _, _, _, _, accepted, built, -⟩ := exists_sevenArguments
  obtain ⟨listing, written⟩ := compile_of_build accepted built
  exact ⟨p, lir, listing, accepted, built, written⟩

end EmLang.Native
