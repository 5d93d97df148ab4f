import EmLang.Proofs.FunctionRuns

/-!
The registers that a function has to give back. A register that is listed in the report on a
function is stored before anything else and loaded again at the end, so it comes back; one that no
instruction names as its destination is not changed at all. Only a number that is too wide for
another instruction is put in a register without a note of it, and then the register may be lost.
-/

namespace EmLang.Native

open Cpu Lir List Lowering Option Register

variable {s s' s₁ : Cpu} {r : Register} {v : Word} {destination source : Operand} {i : Instr}
  {result : Option Cpu}

/-! ### Instructions that leave a register alone -/

/-- The registers that instructions change without naming them. -/
def isImplicit : Register → Bool
  | rax | rdx | rsp => true
  | _ => false

lemma Effect.ofOption_eq_next (h : Effect.ofOption result = .next s') : result = some s' := by
  cases result with
  | none => cases h
  | some t =>
    cases h
    rfl

/-- What is known of an effect from the instruction: it changes the register that the instruction
names and those that it need not name, where only some move the stack pointer, or control goes where
the instruction says. -/
def Effect.Follows (i : Instr) (s : Cpu) : Effect → Prop
  | .next s' => ∀ r, isImplicit r = false ∨ r = rsp ∧ usesStack i.opcode = false →
      destination? i ≠ some r → s'.reg r = s.reg r
  | .call _ => ∃ operand, i = .unary .call operand
  | .jump b => i.jumpTarget? = some b
  | .ret => i = .nullary .ret
  | .trap | .stuck => True

lemma Effect.follows_ofOption (h : ∀ s', result = some s' → (Effect.next s').Follows i s) :
    (ofOption result).Follows i s := by
  cases result with
  | none => trivial
  | some s' => exact h s' rfl

section

variable (named : ∀ r, destination = .reg r → destination? i = some r)

include named

lemma Cpu.follows_put? (same : s₁.reg = s.reg) :
    (Effect.ofOption (s₁.put? v destination)).Follows i s := by
  refine Effect.follows_ofOption fun s' h r _ other => ?_
  rw [← same]
  cases destination with
  | reg q =>
    cases h
    exact s₁.reg_set_of_ne v fun same => other (named r (same ▸ rfl))
  | mem base offset =>
    simp only [put?] at h
    split_ifs at h
    cases h
    rfl
  | _ => cases h

lemma Cpu.follows_operate {exact_ : Int → Int → Int} {f : Word → Word → Word} :
    (s.operate f exact_ destination source).Follows i s := by
  unfold operate
  split_ifs
  · trivial
  · split
    · exact follows_put? named rfl
    · trivial

end

lemma Cpu.follows_binary (s : Cpu) (strings : Nat → Word) (op : Opcode) (destination source : Operand) :
    (s.binary strings op destination source).Follows (.binary op destination source) s := by
  have named (plain : op ≠ .cmp) r (same : destination = .reg r) :
      destination? (.binary op destination source) = some r := by
    rw [same]
    exact if_neg plain
  cases op with
  | mov =>
    simp only [binary, move]
    split
    · exact fun r _ other => s.reg_set_of_ne _ fun same => other (same ▸ rfl)
    · split_ifs
      · trivial
      · cases s.value? source with
        | none => trivial
        | some v => exact follows_put? (named (by rintro ⟨⟩)) rfl
  | lea =>
    simp only [binary]
    split
    · exact fun r _ other => s.reg_set_of_ne _ fun same => other (same ▸ rfl)
    · trivial
  | add | sub => exact follows_operate (named (by rintro ⟨⟩))
  | imul =>
    simp only [binary]
    split_ifs
    · trivial
    · exact follows_operate (named (by rintro ⟨⟩))
  | cmp =>
    simp only [binary, compare]
    split_ifs
    · trivial
    · split
      · exact fun r _ _ => rfl
      · trivial
  | _ => trivial

lemma Cpu.perform_follows (s : Cpu) (strings : Nat → Word) (i : Instr) : (s.perform strings i).Follows i s := by
  have ne {r} (explicit : isImplicit r = false ∨ r = rsp ∧ usesStack i.opcode = false) :
      r ≠ rax ∧ r ≠ rdx ∧ (usesStack i.opcode = true → r ≠ rsp) := by
    obtain explicit | ⟨rfl, unused⟩ := explicit
    · refine ⟨?_, ?_, fun _ => ?_⟩ <;> rintro rfl <;> cases explicit
    · exact ⟨by decide, by decide, fun used => nomatch unused.symm.trans used⟩
  cases i with
  | nullary op =>
    cases op with
    | cqo => exact fun r explicit _ => s.reg_set_of_ne _ (ne explicit).2.1
    | ret => rfl
    | _ => trivial
  | binary op destination source => exact s.follows_binary strings op destination source
  | unary op operand =>
    cases op with
    | neg =>
      simp only [perform, unary, negate]
      split
      · exact follows_put? (fun r same => by rw [same]; rfl) rfl
      · trivial
    | idiv =>
      simp only [perform, unary, divide]
      split
      · split_ifs
        · trivial
        · exact fun r explicit _ => by rw [reg_set_of_ne _ _ (ne explicit).2.1,
            reg_set_of_ne _ _ (ne explicit).1]
      · trivial
    | push =>
      refine Effect.follows_ofOption fun s' h r explicit _ => ?_
      obtain ⟨v, -, rfl⟩ := map_eq_some_iff.1 h
      exact s.reg_set_of_ne _ ((ne explicit).2.2 rfl)
    | pop =>
      cases operand with
      | reg q =>
        intro r explicit other
        have other' : r ≠ q := fun same => other (same ▸ rfl)
        rw [pop, reg_set_of_ne _ _ other', reg_set_of_ne _ _ ((ne explicit).2.2 rfl)]
      | _ => trivial
    | jcc condition =>
      cases operand with
      | block b =>
        simp only [perform, unary]
        split_ifs
        · rfl
        · exact fun r _ _ => rfl
      | _ => trivial
    | call => cases operand <;> first | exact ⟨_, rfl⟩ | trivial
    | jmp => cases operand <;> first | rfl | trivial
    | _ => trivial

lemma Cpu.reg_of_perform {strings : Nat → Word} (h : s.perform strings i = .next s')
    (explicit : isImplicit r = false ∨ r = rsp ∧ usesStack i.opcode = false)
    (other : destination? i ≠ some r) : s'.reg r = s.reg r := by
  have follows := s.perform_follows strings i
  rw [h] at follows
  exact follows r explicit other

/-! ### Runs that leave a register alone -/

/-- A register has its value, and no instruction that is left names it. -/
def Progress.Carries (r : Register) (v : Word) : Progress → Prop
  | .running code s _ => s.reg r = v ∧ ∀ i ∈ code, destination? i ≠ some r
  | .returned s _ => s.reg r = v
  | .trapped _ _ | .stuck => True

section

variable {M : Setting} {p : Progress} (explicit : isImplicit r = false)
  (blocks : ∀ b code, M.blocks b = some code → ∀ i ∈ code, destination? i ≠ some r)
  (callee : ∀ n s, (M.callee n s).reg r = s.reg r)

include explicit blocks callee

lemma Progress.Carries.advance (h : p.Carries r v) : (M.advance p).Carries r v := by
  cases p with
  | running code s calls =>
    cases code with
    | nil => trivial
    | cons i rest =>
      obtain ⟨value, unnamed⟩ := h
      rw [forall_mem_cons] at unnamed
      show (M.after rest s calls (s.perform M.strings i)).Carries r v
      cases effect : s.perform M.strings i with
      | next s' => exact ⟨(reg_of_perform effect (.inl explicit) unnamed.1).trans value, unnamed.2⟩
      | call symbol => exact ⟨(callee ..).trans value, unnamed.2⟩
      | jump b =>
        simp only [Setting.after]
        split
        · next code here => exact ⟨value, blocks b code here⟩
        · trivial
      | ret => exact value
      | trap | stuck => trivial
  | returned _ _ | trapped _ _ | stuck => exact h

end

/-- A run comes to one end only. -/
lemma Leads.eq_of_fixed {α : Type} {advance : α → α} {a b c : α} (h : Leads advance a b)
    (h' : Leads advance a c) (fixed : advance b = b) (fixed' : advance c = c) : b = c := by
  obtain ⟨n, rfl⟩ := h
  obtain ⟨m, rfl⟩ := h'
  obtain ⟨k, rfl⟩ | ⟨k, rfl⟩ := (le_total n m).imp Nat.exists_eq_add_of_le' Nat.exists_eq_add_of_le'
  · rw [Function.iterate_add_apply, Function.iterate_fixed fixed]
  · rw [Function.iterate_add_apply, Function.iterate_fixed fixed']

/-- Whatever a function is entered with, there are words that are its arguments. -/
lemma exists_passed (n : Nat) (distance : Int) (s : Cpu) :
    ∃ arguments, arguments.length = n ∧ Passed arguments distance s := by
  let argument (k : Nat) : Word := argumentRegisters[k]?.elim
    (s.memory.load (s.reg rsp + BitVec.ofInt 64 (distance + 8 * (k - argumentRegisters.length : Nat)))) s.reg
  have value {k : Nat} {w} (h : ((range n).map argument)[k]? = some w) : argument k = w := by
    obtain ⟨j, here, rfl⟩ := map_eq_some_iff.1 (getElem?_map .. ▸ h)
    obtain ⟨_, rfl⟩ := List.getElem?_eq_some_iff.1 here
    rw [getElem_range]
  refine ⟨(range n).map argument, by simp, fun k r w here h => ?_, fun k w high h => ?_⟩
  · rw [← value h]
    simp only [argument, here, elim_some]
  · rw [← value h]
    simp only [argument, getElem?_eq_none high, elim_none]

/-! ### Functions -/

/-- How a function keeps the registers that it has to give back: `saved` are those that it stores
before its body and loads before its `ret`, each in a word of its own. A register that the body
names as a destination is one of them, wide numbers apart. -/
structure Guarded (code : List (List Instr)) (report : FunctionReport)
    (start body finish : List Instr) (saved : List (Register × Int)) : Prop where
  code_eq : code = [start ++ body, finish ++ [.nullary .ret]]
  once : ∀ i ∈ start ++ body ++ finish, i.opcode ≠ .ret
  listed : saved.map Prod.fst = report.calleeSaved
  own : (saved.map Prod.snd).Nodup
  inside : ∀ p ∈ saved, 8 ∣ p.2 ∧ -report.frameSize ≤ p.2 ∧ p.2 < 0
  stored : ∀ p ∈ saved, Instr.binary .mov (frameWord p.2) (.reg p.1) ∈ start
  untouched : ∀ i ∈ start, ∀ r, destination? i = some r → isCalleeSaved r = false
  loaded : ∀ p ∈ saved, Instr.binary .mov (.reg p.1) (frameWord p.2) ∈ finish
  alone : ∀ i ∈ finish, ∀ r, destination? i = some r → isCalleeSaved r = true → r ∈ report.calleeSaved
  noted : ∀ i ∈ body, ∀ r, destination? i = some r → isCalleeSaved r = true → r ∈ report.calleeSaved ∨ IsWide i

namespace Lowering

variable {f : Lir.Function} {exit : BlockId} {valued : Bool} {is : List Instr}
  {code : List (List Instr)} {report : FunctionReport}

lemma Assembly.guarded (a : Assembly f exit valued is code report) :
    Guarded code report (enterCode report.frameSize report.adjustsStack ++
      (a.final.saved ++ a.parameters).map storeInstr) a.ended.output.toList
    (a.final.saved.reverse.map loadInstr ++ leaveCode report.adjustsStack) a.final.saved := by
  have listed := a.calleeSaved_eq
  have positive : 0 ≤ a.final.allocation.frame.size := a.final_valid.whole.2
  have framing : ∀ {r}, r = rbp ∨ r = rsp → isCalleeSaved r = false := by
    rintro r (rfl | rfl) <;> rfl
  refine ⟨a.code_eq, ?_, listed.symm, a.nodup_saved, fun p hp => ?_, fun p hp => ?_, ?_, fun p hp => ?_, ?_, ?_⟩
  · refine forall_mem_append.2 ⟨forall_mem_append.2 ⟨opcode_ne_ret_of_start,
      opcode_ne_ret_of_leaves a.entered_output a.leaves⟩, ?_⟩
    refine forall_mem_append.2 ⟨forall_mem_map.2 (by rintro _ _ ⟨⟩), ?_⟩
    cases report.adjustsStack <;> simp [leaveCode, Instr.opcode]
  · have inside := a.saved_inside hp
    omega
  · exact mem_append_right _ (mem_map_of_mem (mem_append_left _ hp))
  · refine forall_mem_append.2 ⟨?_, forall_mem_map.2 (by rintro _ _ _ ⟨⟩)⟩
    cases report.adjustsStack <;> simp [enterCode, destination?, framing]
  · exact mem_append_left _ (mem_map_of_mem (mem_reverse.2 hp))
  · refine forall_mem_append.2 ⟨forall_mem_map.2 fun p hp r h _ => ?_, ?_⟩
    · cases h
      exact listed ▸ mem_map_of_mem (mem_reverse.1 hp)
    · intro i hi r named saved
      have frame : r = rbp ∨ r = rsp := by
        revert hi named
        cases report.adjustsStack <;> simp [leaveCode, destination?] <;> grind
      cases (framing frame).symm.trans saved
  · obtain ⟨front, σ1, -, ⟨-, -, body, added, coded, -⟩, -, grows, jump⟩ := a.leaves
    rw [jump, added, a.entered_output]
    refine forall_mem_append.2 ⟨fun i hi r named saved => ?_, by simp [destination?]⟩
    obtain proper | ⟨⟨divisor, rfl, -⟩, -⟩ := coded.lawful i (by simpa using hi)
    · refine (proper.noted r named saved).imp_left fun used => ?_
      rw [listed, a.saved_fst]
      exact a.grows.used (grows.used used)
    · cases divisor <;> cases named

end Lowering

open Lowering

/-- The code of a function stores every register that it lists and loads it again, and it lists
every register that it has to give back and names as a destination, unless a wide number is put
there. At its `ret` the frame pointer and the stack pointer are as they were, with the same return
address, and so is every register that has to be given back, if it is listed or not named by the
body. -/
theorem functionCode_guarded {text : List Char} {p : Program}
    {lir : Lir} (accepted : Program.compile text = .ok p) (built : p.build.lir = .ok lir) {g : Nat}
    {f : Lir.Function} (found : lir.functions[g]? = some f) : ∃ code report start body finish saved,
    functionCode lir g = .ok (f.blocks, code, report) ∧ Guarded code report start body finish saved ∧
    (report.Fits f.parameterCount → ∀ strings callee s, let M := Setting.of strings f.blocks code callee
      M.Honours (s.reg rsp - 8) (-report.frameSize) (stackArgumentOffset f.parameterCount) → ∀ s'
      calls, Leads M.advance (.running (start ++ body) s []) (.returned s' calls) → s'.reg rbp = s.reg rbp ∧
      s'.reg rsp = s.reg rsp ∧ s'.memory.load (s'.reg rsp) = s.memory.load (s.reg rsp) ∧ ∀ r, isCalleeSaved
      r = true → (r ∈ report.calleeSaved ∨ ∀ i ∈ body, destination? i ≠ some r) → s'.reg r = s.reg r) := by
  obtain ⟨entry, exit, is, code, report, blocks, other, atEntry, atExit, lowered, ⟨a⟩⟩ :=
    functionCode_of_built (Program.checked_of_compile accepted) built found
  obtain ⟨start, body, finish, saved, guarded⟩ : ∃ start body finish saved,
    Guarded code report start body finish saved := ⟨_, _, _, _, a.guarded⟩
  refine ⟨code, report, start, body, finish, saved, lowered, guarded, fun fits strings callee s => ?_⟩
  intro M honours s' calls run
  have blocks_eq b : M.blocks b = if b = entry then some (start ++ body) else if b =
      exit then some (finish ++ [.nullary .ret]) else none := by
    simp only [M, blocks, guarded.code_eq, Setting.blocks_of]
  have next : M.blocks exit = some (finish ++ [.nullary .ret]) := by
    rw [blocks_eq, if_neg other.symm, if_pos rfl]
  obtain ⟨arguments, count, passed⟩ := exists_passed f.parameterCount 8 s
  obtain ⟨machine, -, -, -, restored⟩ | ⟨machine, -, -, -, -⟩ :=
    a.alike fits count passed honours guarded.code_eq next atExit
  · obtain ⟨rfl, rfl⟩ := Progress.returned.inj (machine.eq_of_fixed run rfl rfl)
    refine ⟨restored.base, restored.stack, restored.back, fun r keeping kept => ?_⟩
    obtain listed | unnamed := kept
    · exact restored.registers r listed
    · by_cases listed : r ∈ report.calleeSaved
      · exact restored.registers r listed
      have explicit : isImplicit r = false := by
        revert keeping
        cases r <;> decide
      -- No instruction of either block names the register.
      have first : ∀ i ∈ start ++ body, destination? i ≠ some r := forall_mem_append.2
        ⟨fun i hi named => (nomatch (guarded.untouched i hi r named).symm.trans keeping), unnamed⟩
      have last : ∀ i ∈ finish ++ [.nullary .ret], destination? i ≠ some r := forall_mem_append.2
        ⟨fun i hi named => listed (guarded.alone i hi r named keeping), by simp [destination?]⟩
      have carries : (Progress.running (start ++ body) s []).Carries r (s.reg r) := ⟨rfl, first⟩
      refine run.invariant (P := Progress.Carries r (s.reg r)) carries fun _ h =>
        h.advance explicit (fun b code' here => ?_) fun n s => honours.saved n s r (.inl keeping)
      rw [blocks_eq] at here
      split_ifs at here
      · exact some.inj here ▸ first
      · exact some.inj here ▸ last
  · cases machine.eq_of_fixed run rfl rfl

theorem functionCode_guarded_sevenArguments : ∃ p lir f code report start body finish saved,
    Program.compile sevenArguments = .ok p ∧ p.build.lir = .ok lir ∧ lir.functions[1]? = some f ∧
    functionCode lir 1 = .ok (f.blocks, code, report) ∧ report.calleeSaved = [rbx, r12, r13, r14] ∧
    Guarded code report start body finish saved ∧ ∀ s' calls, Leads (Setting.of
      (fun _ => 0) f.blocks code clobber).advance (.running (start ++ body) sevenEntered [])
    (.returned s' calls) → s'.reg rsp = 4096 ∧ ∀ r ∈ [rbx, r12, r13, r14], s'.reg r = 0 := by
  obtain ⟨p, lir, f, blocks, code, report, accepted, built, found, coded, ⟨count, frame, bytes⟩,
    listed, -⟩ := exists_sevenArguments
  obtain ⟨code', report', start, body, finish, saved, coded', guarded, restores⟩ :=
    functionCode_guarded accepted built found
  obtain ⟨rfl, rfl, rfl⟩ : f.blocks = blocks ∧ code' = code ∧ report' = report := by
    simpa using coded'.symm.trans coded
  refine ⟨p, lir, f, code', report', start, body, finish, saved, accepted, built, found, coded',
    listed, guarded, fun s' calls run => ?_⟩
  have restored := restores ⟨frame, by rw [count]; decide, bytes⟩ _ _ sevenEntered
    (honours_clobber ..) s' calls run
  refine ⟨restored.2.1, fun r hr => ?_⟩
  rw [restored.2.2.2 r (by revert hr; cases r <;> decide) (.inl (listed ▸ hr))]
  revert hr
  cases r <;> decide

/-- A sum that needs one register more than those that need not be given back, for a wide number. -/
def wideSum : List Char :=
  "fx f(a: int) -> int { return a + (a + (a + (a + (a + (a + (a + (a + 9999999999))))))); } print(f(1));".toList

/-- The register of a wide number is not listed. -/
theorem wideSum_unlisted : ∃ p lir f blocks code report, Program.compile wideSum = .ok p ∧
    p.build.lir = .ok lir ∧ lir.functions[1]? = some f ∧ functionCode lir 1 = .ok (blocks, code,
      report) ∧ (∃ i ∈ code.flatten, destination? i = some rbx) ∧ rbx ∉ report.calleeSaved := by
  rw [show wideSum = _ from String.toList_ofList]
  apply exists_of_lowersTo
  decide +kernel

end EmLang.Native
