import EmLang.Proofs.Matching

/-!
Code that never asks for anything which is not there. It goes from its first instruction to a jump
to the last block of its function, every slot has a value before it is read, temporaries are handed
out in order, only temporaries are worked on, and the value of a call is taken over at once. The
code that functions are built to is like this.
-/

namespace EmLang.Lir

open List Option

variable {isExternal valued : Bool} {symbol : String} {returnType : Ty} {D : Slot → Prop}
  {exit : BlockId} {f : Function} {g : FunId} {operand : Operand} {site : Site}

/-- The operand has a value where the slots `D` have one. -/
def Operand.Readable (D : Slot → Prop) : Operand → Prop
  | .slot s => D s
  | .imm _ | .str _ => True
  | _ => False

/-- The operand has a value of its own: that of a slot in `known`, a number, or one of so many
strings. -/
def Operand.Sound (strings : Nat) (known : Slot → Prop) : Operand → Prop
  | .slot s => known s
  | .imm _ => True
  | .str index => index < strings
  | _ => False

namespace Operand.Sound

variable {strings : Nat} {known known' : Slot → Prop}

variable (h : operand.Sound strings known)

include h

lemma readable : operand.Readable known := by
  cases operand with
  | imm _ | str _ => trivial
  | _ => exact h

lemma mono (more : ∀ s, known s → known' s) : operand.Sound strings known' := by
  cases operand with
  | slot s => exact more s h
  | _ => exact h

lemma keeps {t : Slot} (other : operand ≠ .slot t) : operand.Sound strings fun s => s ≠ t ∧ known s := by
  cases operand with
  | slot s => exact ⟨fun same => other (same ▸ rfl), h⟩
  | _ => exact h

end Operand.Sound

/-- A function has the name, as many parameters and the return type. -/
def Site.Names (site : Site) (symbol : String) (count : Nat) (returnType : Ty) : Prop :=
  ∃ f function, site.scope.function? f = some function ∧ function.name = symbol ∧
    function.parameters.length = count ∧ function.returnType = returnType

/-- What is called is a function that is there and takes so many arguments, or a routine, which
takes one at most. -/
def Site.Takes (site : Site) (symbol : String) (count : Nat) (returnType : Ty) (isExternal : Bool) : Prop :=
  (isExternal = false → site.Names symbol count returnType) ∧ (isExternal = true → count ≤ 1)

/-- The next slot to be declared is the temporary `lo`, behind which the next free one is `mid`, or
it is that of a variable. -/
inductive Opens (declared lo : Slot) : Slot → Slot → Prop where
  | temporary : Opens declared lo lo (lo + 1)
  | declared {s : Slot} (own : s < declared) : Opens declared lo s lo

/-- Code of a function that leaves through the block `exit`, from where the slots `D` have values.
It declares the temporaries from `lo` up to `hi` in their order. It is said whether it has to give a
value. -/
inductive Straight (site : Site) (f : Function) (exit : BlockId) (valued : Bool) :
    (Slot → Prop) → Slot → List Instr → Slot → Prop where
  | bind {D : Slot → Prop} {lo mid hi s : Slot} {source : Operand} {rest : List Instr}
      (opens : Opens f.declaredCount lo s mid) (sound : source.Sound site.strings.size fun x =>
      x ≠ s ∧ D x) (next : Straight site f exit valued (fun x => x = s ∨ x ≠ s ∧ D x) mid rest hi) :
      Straight site f exit valued D lo (copyTo s source ++ rest) hi
  | assign {D : Slot → Prop} {lo hi s : Slot} {source : Operand} {rest : List Instr} (has : D s)
      (sound : source.Sound site.strings.size D)
      (next : Straight site f exit valued (fun x => x = s ∨ D x) lo rest hi) :
      Straight site f exit valued D lo (.binary .mov (.slot s) source :: rest) hi
  | operate {D : Slot → Prop} {lo hi t : Slot} {op : Opcode}
      {operation : Int64 → Int64 → Option Int64} {source : Operand} {rest : List Instr}
      (known : op.operation? = some operation) (temporary : f.isTemporary t = true) (has : D t)
      (sound : source.Sound site.strings.size D) (number : ∀ index, source ≠ .str index)
      (next : Straight site f exit valued D lo rest hi) :
      Straight site f exit valued D lo (.binary op (.slot t) source :: rest) hi
  | negate {D : Slot → Prop} {lo hi t : Slot} {rest : List Instr} (temporary : f.isTemporary t =
        true) (has : D t) (next : Straight site f exit valued D lo rest hi) :
      Straight site f exit valued D lo (.unary .neg (.slot t) :: rest) hi
  | answered {D : Slot → Prop} {lo hi : Slot} {symbol : String} {arguments : List Operand}
      {returnType : Ty} {isExternal : Bool} {rest : List Instr} (calling : f.isLeaf = false)
      (takes : site.Takes symbol arguments.length returnType isExternal)
      (value : returnType.hasValue = true) (temporary : f.isTemporary lo = true)
      (sound : ∀ a ∈ arguments, a.Sound site.strings.size D) (next : Straight site f exit valued
      (fun x => x = lo ∨ D x) (lo + 1) rest hi) : Straight site f exit valued D lo (.unary .call
      (.callee symbol arguments returnType isExternal) :: (copyTo lo .returnSlot ++ rest)) hi
  | called {D : Slot → Prop} {lo hi : Slot} {symbol : String} {arguments : List Operand}
      {returnType : Ty} {isExternal : Bool} {rest : List Instr} (calling : f.isLeaf = false)
      (takes : site.Takes symbol arguments.length returnType isExternal)
      (novalue : returnType.hasValue = false) (sound : ∀ a ∈ arguments, a.Sound site.strings.size D)
      (next : Straight site f exit valued D lo rest hi) : Straight site f exit valued D lo
      (.unary .call (.callee symbol arguments returnType isExternal) :: rest) hi
  | ret {D : Slot → Prop} {lo : Slot} {source : Operand} (sound : source.Sound site.strings.size D) :
      Straight site f exit valued D lo [.binary .mov .returnSlot source, .unary .jmp (.block exit)] lo
  | leave {D : Slot → Prop} {lo : Slot} (novalue : valued = false) :
      Straight site f exit valued D lo [.unary .jmp (.block exit)] lo

/-- Control leaves only with the last instruction. -/
lemma Straight.leaves_last {code : List Instr} {hi lo : Slot} (h : Straight site f exit valued D lo code hi) :
    ∃ front, code = front ++ [.unary .jmp (.block exit)] ∧ ∀ i ∈ front, i.opcode.isTerminator = false := by
  have cons : ∀ {code : List Instr} (is : List Instr), (∀ i ∈ is, i.opcode.isTerminator = false) →
      (∃ front, code = front ++ [.unary .jmp (.block exit)] ∧ ∀ i ∈ front,
      i.opcode.isTerminator = false) → ∃ front, is ++ code = front ++ [.unary .jmp (.block exit)] ∧
      ∀ i ∈ front, i.opcode.isTerminator = false := by
    rintro _ is quiet ⟨front, rfl, rest⟩
    exact ⟨is ++ front, (append_assoc ..).symm, forall_mem_append.2 ⟨quiet, rest⟩⟩
  induction h with
  | bind _ _ _ ih => exact cons (copyTo _ _) (by simp [copyTo, Instr.opcode, Opcode.isTerminator]) ih
  | assign _ _ _ ih | negate _ _ _ ih | called _ _ _ _ _ ih =>
      exact cons [_] (by simp [Instr.opcode, Opcode.isTerminator]) ih
  | @operate _ _ _ _ op _ _ _ known _ _ _ _ _ ih =>
    refine cons [_] (forall_mem_singleton.2 ?_) ih
    cases op <;> first | rfl | cases known
  | answered _ _ _ _ _ _ ih =>
      exact cons (_ :: copyTo _ _) (by simp [copyTo, Instr.opcode, Opcode.isTerminator]) ih
  | ret _ => exact ⟨[_], rfl, by simp [Instr.opcode, Opcode.isTerminator]⟩
  | leave _ => exact ⟨[], rfl, by simp⟩

namespace Site

variable {vars vars' : List VarId} {lo mid hi last t s : Slot}
  {code rest copy code' answer : List Instr} {D' : Slot → Prop} {ended : Bool} {h index : Nat}
  {kept : Operand} {operands : List Operand} {ty : Ty}

/-- The variables that can be seen have values, and no temporary from `lo` on has one. -/
structure Sees (site : Site) (vars : List VarId) (lo : Slot) (D : Slot → Prop) : Prop where
  seen : ∀ v ∈ vars, ∀ x, site.scope.var? v = some x → D x.slot
  below : ∀ s, D s → s < lo

/-- Where the slots `D` had values, those of `D'` have them up to the temporary `hi`, and so do the
operands. -/
structure More (site : Site) (D : Slot → Prop) (hi : Slot) (operands : List Operand)
    (D' : Slot → Prop) : Prop where
  more : ∀ s, D s → D' s
  below : ∀ s, D' s → s < hi
  sound : ∀ o ∈ operands, o.Sound site.strings.size D'

lemma Sees.more (h : site.Sees vars lo D) (more : site.More D hi operands D') : site.Sees vars hi D' :=
  ⟨fun v hv x hx => more.more _ (h.seen v hv x hx), more.below⟩

/-- Code that adds values, those of the operands among them. Other code can stand behind it that
needs no more than these. -/
def Adds (site : Site) (f : Function) (exit : BlockId) (valued : Bool) (D : Slot → Prop) (lo : Slot)
    (code : List Instr) (operands : List Operand) (hi : Slot) : Prop :=
  ∀ rest last, (∀ D', site.More D hi operands D' → Straight site f exit valued D' hi rest last) →
  Straight site f exit valued D lo (code ++ rest) last

lemma Adds.refl (below : ∀ s, D s → s < lo) (sound : ∀ o ∈ operands, o.Sound site.strings.size D) :
    site.Adds f exit valued D lo [] operands lo := fun _ _ next => next D ⟨fun _ => id, below, sound⟩

lemma Adds.append {operands' : List Operand} (first : site.Adds f exit valued D lo code operands mid)
    (second : ∀ D', site.More D mid operands D' → site.Adds f exit valued D' mid code' operands' hi) :
    site.Adds f exit valued D lo (code ++ code') operands' hi := by
  intro rest last next
  rw [append_assoc]
  exact first _ _ fun D' more => second D' more _ _ fun D'' more' =>
    next D'' ⟨fun s hs => more'.more s (more.more s hs), more'.below, more'.sound⟩

lemma copyTo_adds (sound : operand.Sound site.strings.size D) (below : ∀ s, D s → s < t) :
    site.Adds f exit valued D t (copyTo t operand) [.slot t] (t + 1) := by
  have other s (hs : D s) : s ≠ t := (below s hs).ne
  intro rest last next
  refine .bind .temporary (sound.mono fun s hs => ⟨other s hs, hs⟩)
    (next _ ⟨fun s hs => .inr ⟨other s hs, hs⟩, ?_, ?_⟩)
  · rintro s (rfl | ⟨-, hs⟩)
    · exact Nat.lt_succ_self s
    · exact (below s hs).trans (Nat.lt_succ_self t)
  · simp [Operand.Sound]

lemma Held.adds (h : site.Held mid operand copy t hi) (more : site.More D mid [operand] D') :
    site.Adds f exit valued D' mid copy [.slot t] hi := by
  cases h with
  | kept _ => exact .refl more.below more.sound
  | copied _ => exact copyTo_adds (more.sound _ (by simp)) more.below

lemma Kept.adds {later : List ExprId} (h : site.Kept later mid operand copy kept hi)
    (more : site.More D mid [operand] D') : site.Adds f exit valued D' mid copy [kept] hi := by
  cases h with
  | safe _ => exact .refl more.below more.sound
  | copied _ => exact copyTo_adds (more.sound _ (by simp)) more.below

/-- Only a string has an operand that stands for one. -/
lemma ExprCode.operand_ne_str {e : ExprId} {operand : Option Operand}
    (built : site.ExprCode h lo e code operand hi) (typed : HasType site.ast site.scope vars e ty)
    (other : ty ≠ .string) (index : Nat) : operand ≠ some (.str index) := by
  induction h generalizing e code operand hi lo with
  | zero => cases built
  | succ h ih =>
    cases built with
    | string here _ => exact absurd (typed.parts here).2 other
    | paren here below => exact ih below (typed.parts here).2
    | call here _ _ answered => cases answered <;> simp
    | number _ | bool _ | var _ _ | assign _ _ _ | binary _ _ _ _ _ _ _ | negate _ _ _ => simp

lemma operation?_opcodeOf (op : BinaryOp) : ∃ operation, (Build.opcodeOf op).operation? = some operation := by
  cases op <;> exact ⟨_, rfl⟩

lemma moveTo_adds (sound : operand.Sound site.strings.size D) (has : D s) (below : ∀ s, D s → s < lo) :
    site.Adds f exit valued D lo (moveTo (.slot s) operand) [.slot s] lo := by
  intro rest last next
  have next := next D ⟨fun _ => id, below, by simpa [Operand.Sound] using has⟩
  unfold moveTo
  split
  · exact next
  · have same : (fun x => x = s ∨ D x) = D := funext fun x => propext ⟨fun h => h.elim (· ▸ has) id, .inr⟩
    exact .assign has sound (by rwa [same])

lemma Answer.adds {operand : Option Operand} (h : Answer returnType mid answer operand hi)
    (calling : f.isLeaf = false) (takes : site.Takes symbol operands.length returnType isExternal)
    (low : f.declaredCount ≤ mid) (more : site.More D mid operands D') :
    site.Adds f exit valued D' mid
    (.unary .call (.callee symbol operands returnType isExternal) :: answer) operand.toList hi := by
  intro rest last next
  cases h with
  | value value =>
    refine .answered calling takes value (decide_eq_true low) more.sound (next _ ⟨fun _ => .inr, ?_, ?_⟩)
    · rintro s (rfl | hs)
      · exact Nat.lt_succ_self s
      · exact (more.below s hs).trans (Nat.lt_succ_self mid)
    · simp [Operand.Sound]
  | void novalue => exact .called calling takes novalue more.sound (next D' ⟨fun _ => id, more.below, by simp⟩)

lemma string_lt_of_placed {text : String} (placed : site.strings[index]? = some text) :
    index < site.strings.size :=
  (Array.getElem?_eq_some_iff.1 placed).1

lemma ArgsCode.length_eq {es : List ExprId} (built : site.ArgsCode h lo es code operands hi) :
    operands.length = es.length := by
  induction es generalizing lo code operands with
  | nil =>
    obtain ⟨⟩ := built
    rfl
  | cons e es ih =>
    obtain _ | ⟨-, -, tail⟩ := built
    exact congrArg Nat.succ (ih tail)

/-- What is called takes as many arguments as it is given. -/
lemma Callee.takes {arguments : List ExprId} {callee leftParen rightParen : Text.Span}
    {target : CallTarget} (h : site.Callee arguments target symbol returnType isExternal) (typed :
      (ExprKind.call callee leftParen arguments rightParen target).Typed site.ast site.scope vars ty) :
    site.Takes symbol arguments.length returnType isExternal := by
  cases h with
  | function found =>
    obtain ⟨function, xs, found', parameters, typed, -⟩ := typed
    obtain rfl := mem_unique found found'
    have count := congrArg List.length parameters
    simp only [length_map] at count
    exact ⟨fun _ => ⟨_, _, found, rfl, by rw [count, typed.length_eq, length_map], rfl⟩, by rintro ⟨⟩⟩
  | builtin b =>
    obtain ⟨types, typed, takes, -⟩ := typed
    refine ⟨by rintro ⟨⟩, fun _ => ?_⟩
    rw [typed.length_eq]
    cases takes <;> simp

mutual

/-- The code of an expression asks only for values that are there. -/
lemma ExprCode.adds {ty : Ty} {h : Nat} {lo hi : Slot} {e : ExprId} {code : List Instr}
    {operand : Option Operand} {D : Slot → Prop} (typed : HasType site.ast site.scope vars e ty)
    (count : site.declared = f.declaredCount) (low : f.declaredCount ≤ lo)
    (sees : site.Sees vars lo D) (calling : ∀ i ∈ code, i.opcode = .call → f.isLeaf = false) :
    site.ExprCode h lo e code operand hi → site.Adds f exit valued D lo code operand.toList hi
  | .number _ | .bool _ => .refl sees.below (by simp [Operand.Sound])
  | .string _ placed => .refl sees.below (by simpa [Operand.Sound] using string_lt_of_placed placed)
  | .var here declared => by
    obtain ⟨-, v, x, hv, seen, -, -⟩ := typed.parts here
    cases hv
    exact .refl sees.below (by simpa [Operand.Sound] using sees.seen _ seen _ declared)
  | .assign here declared below => by
    obtain ⟨-, typed', v, x, hv, seen, -, -⟩ := typed.parts here
    cases hv
    refine (below.adds typed' count low sees (forall_mem_append.1 calling).1).append fun D' more => ?_
    exact moveTo_adds (more.sound _ (by simp)) (more.more _ (sees.seen _ seen _ declared)) more.below
  | .binary (t := t) here arithmetic leftHere words first held second => by
    obtain ⟨-, a, b, leftTyped, rightTyped, yields⟩ := typed.parts here
    obtain ⟨rfl, -⟩ := leftTyped.parts leftHere
    obtain ⟨-, rfl⟩ := yields_words yields arithmetic words
    obtain ⟨operation, known⟩ := operation?_opcodeOf _
    have left := first.own leftTyped
    simp only [append_assoc, forall_mem_append] at calling ⊢
    refine (first.adds leftTyped count low sees calling.1).append fun D1 more1 =>
      (held.adds more1).append fun D2 more2 => ?_
    refine (second.adds rightTyped count (low.trans (held.own left).le)
      ((sees.more more1).more more2) calling.2.2.1).append fun D3 more3 rest last next => ?_
    have has : D3 t := more3.more t (more2.sound (.slot t) (by simp))
    refine .operate known (decide_eq_true (count ▸ held.high (count ▸ low.trans left.le))) has
      (more3.sound _ (by simp)) (fun index same => ?_) (next D3 ⟨fun _ => id, more3.below,
      by simpa [Operand.Sound] using has⟩)
    exact second.operand_ne_str rightTyped (by simp) index (congrArg some same)
  | .negate (t := t) here below held => by
    obtain ⟨-, typed', -⟩ := typed.parts here
    simp only [append_assoc, forall_mem_append] at calling ⊢
    refine (below.adds typed' count low sees calling.1).append fun D1 more1 =>
      (held.adds more1).append fun D2 more2 rest last next => ?_
    refine .negate (decide_eq_true (count ▸ held.high (count ▸ low.trans (below.own typed').le)))
      (more2.sound (.slot t) (by simp)) ?_
    exact next D2 ⟨fun _ => id, more2.below, more2.sound⟩
  | .paren here below => below.adds (typed.parts here).2 count low sees calling
  | .call here below callee answered => by
    have parts := (typed.parts here).2
    obtain ⟨types, typed'⟩ := parts.arguments
    obtain ⟨before, here⟩ := forall_mem_append.1 calling
    refine (below.adds typed' count low sees before).append fun D' more => ?_
    exact answered.adds (here _ mem_cons_self rfl) (below.length_eq ▸ callee.takes parts)
      (low.trans (below.own typed').le) more

lemma ArgsCode.adds
    {es : List ExprId} {tys : List Ty} {h : Nat} {operands : List Operand} {lo hi : Slot}
    {code : List Instr} {D : Slot → Prop} (typed : HasTypes site.ast site.scope vars es tys)
    (count : site.declared = f.declaredCount) (low : f.declaredCount ≤ lo)
    (sees : site.Sees vars lo D) (calling : ∀ i ∈ code, i.opcode = .call → f.isLeaf = false) :
    site.ArgsCode h lo es code operands hi → site.Adds f exit valued D lo code operands hi
  | .nil => .refl sees.below (by simp)
  | .cons head keeps tail => by
    obtain _ | ⟨headTyped, tailTyped⟩ := typed
    have low2 := low.trans (keeps.own (head.own headTyped)).le
    simp only [append_assoc, forall_mem_append] at calling ⊢
    refine (head.adds headTyped count low sees calling.1).append fun D1 more1 =>
      (keeps.adds more1).append fun D2 more2 rest last next => ?_
    refine tail.adds tailTyped count low2 ((sees.more more1).more more2) calling.2.2 rest last
      fun D3 more3 => next D3 ⟨more3.more, more3.below, ?_⟩
    exact forall_mem_cons.2 ⟨(more2.sound _ (by simp)).mono more3.more, more3.sound⟩

end

lemma return_straight (sound : operand.Sound site.strings.size D) :
    Straight site f exit valued D lo (moveTo .returnSlot operand ++ [.unary .jmp (.block exit)]) lo := by
  unfold moveTo
  rw [if_neg]
  · exact .ret sound
  · rintro rfl
    exact sound

lemma Default.sound (h : site.Default ty operand) : operand.Sound site.strings.size D := by
  cases h with
  | string placed => exact string_lt_of_placed placed
  | word _ => trivial

lemma EndCode.straight {function : EmLang.Function} (h : site.EndCode function exit false code) :
    Straight site f exit function.returnType.hasValue D lo code lo := by
  cases h with
  | main _ => exact .ret trivial
  | default _ _ default => exact .ret default.sound
  | void _ novalue => exact .leave novalue

/-- The code of a body asks only for values that are there. -/
lemma BodyCode.straight {ids : List StmtId} {function : EmLang.Function}
    (slotted : site.scope.Slotted) (found : site.scope.function? g = some function)
    (owned : Owned site.scope g vars) (typed : StmtsTyped site.ast site.scope g vars ids vars')
    (count : site.declared = f.declaredCount) (locals : function.locals.length = f.declaredCount)
    (built : site.BodyCode exit lo ids code hi ended)
    (ending : site.EndCode function exit ended rest) (low : f.declaredCount ≤ lo)
    (sees : site.Sees vars lo D) (calling : ∀ i ∈ code, i.opcode = .call → f.isLeaf = false) :
    Straight site f exit function.returnType.hasValue D lo (code ++ rest) hi := by
  induction built generalizing vars vars' D with
  | nil => exact ending.straight
  | expr here head tail ih =>
    obtain _ | ⟨stmt, typed⟩ := typed
    obtain ⟨rfl, ty, typed'⟩ := stmt.parts here
    have own := head.own typed'
    obtain ⟨here, later⟩ := forall_mem_append.1 calling
    rw [append_assoc]
    refine head.adds typed' count low sees here _ _ fun D' more => ?_
    exact ih owned typed ending (low.trans own.le) (sees.more more) later
  | @letVar _ _ _ _ _ _ _ _ _ _ x _ _ operand _ here declared head tail ih =>
    obtain _ | ⟨stmt, typed⟩ := typed
    obtain ⟨v, x', hv, rfl, typed', fresh, declared', owner, -⟩ := stmt.parts here
    cases hv
    obtain rfl := mem_unique declared declared'
    have own := head.own typed'
    have slot : x.slot < f.declaredCount := locals ▸ slot_lt slotted found declared owner
    have other := operand_other slotted found owned declared owner fresh (locals ▸ low) own
    simp only [append_assoc, forall_mem_append] at calling ⊢
    refine head.adds typed' count low sees calling.1 _ _ fun D' more => ?_
    rw [moveTo, if_neg (Ne.symm other)]
    refine .bind (.declared slot) ((more.sound operand (by simp)).keeps other) ?_
    refine ih (forall_mem_cons.2 ⟨⟨x, declared, owner⟩, owned⟩) typed ending (low.trans own.le) ⟨?_,
      ?_⟩ calling.2.2
    · rintro w hw y hy
      by_cases same : y.slot = x.slot
      · exact .inl same
      · obtain rfl | hw := mem_cons.1 hw
        · exact absurd (congrArg Variable.slot (mem_unique hy declared)) same
        · exact .inr ⟨same, more.more _ (sees.seen w hw y hy)⟩
    · rintro s (rfl | ⟨-, hs⟩)
      · exact slot.trans_le (low.trans own.le)
      · exact more.below s hs
  | ret here head =>
    obtain _ | ⟨stmt, -⟩ := typed
    obtain ⟨-, _, -, typed'⟩ := stmt.parts here
    obtain ⟨⟩ := ending
    simp only [append_assoc, forall_mem_append, append_nil] at calling ⊢
    exact head.adds typed' count low sees calling.1 _ _ fun D' more => return_straight (more.sound _ (by simp))
  | retVoid here =>
    obtain _ | ⟨stmt, -⟩ := typed
    obtain ⟨-, function', found', void⟩ := stmt.parts here
    obtain ⟨⟩ := ending
    obtain rfl := mem_unique found found'
    exact .leave (by rw [void]; rfl)
  | function here tail ih =>
    obtain _ | ⟨stmt, typed⟩ := typed
    obtain rfl := stmt.parts here
    exact ih owned typed ending low sees calling

end Site

/-- The function that is built. -/
def Builds.function {ast : Ast} {scope : Scope} {lir : Lir} {g : FunId} {function : EmLang.Function}
    (b : Builds ast scope lir g function) : Function where
  name := function.name
  returnType := function.returnType
  blocks := [b.entry, b.exit]
  parameterCount := function.parameters.length
  declaredCount := function.locals.length
  slotCount := b.slotCount
  isLeaf := !decide (Calling b.body)

/-- The code of a function asks only for values that are there, when the parameters have values at
first. -/
lemma Builds.straight {p : Program} {lir : Lir} {function : EmLang.Function} (checked : p.Checked)
    (found : p.scope.function? g = some function) (b : Builds p.ast p.scope lir g function) :
    Straight ⟨p.ast, p.scope, lir.strings, function.locals.length⟩ b.function b.exit
    function.returnType.hasValue (· < function.parameters.length) function.locals.length
    (b.body ++ b.ending) b.slotCount := by
  have slotted := checked.slotted
  obtain ⟨vars, typed⟩ := checked.bodies g function found
  refine b.bodyBuilt.straight slotted found (fun v hv => ?_) typed rfl rfl b.endBuilt le_rfl
    ⟨fun v hv x hx => ?_, fun s hs => ?_⟩ fun i hi call => by simp [Builds.function,
    show Calling b.body from ⟨i, hi, call⟩]
  · obtain ⟨x, hx, owner, -⟩ := slotted.parameter_slot found (mem_reverse.1 hv)
    exact ⟨x, hx, owner⟩
  · obtain ⟨y, hy, -, lt⟩ := slotted.parameter_slot found (mem_reverse.1 hv)
    exact mem_unique hx hy ▸ lt
  · exact hs.trans_le (slotted.parameters g function found).length_le

end EmLang.Lir
