import EmLang.Lir.Build
import EmLang.Proofs.Typing

/-!
The code that a function is built to, said on its own: which instructions stand for an expression,
which operand holds its value afterwards, and which temporaries are used. Temporaries are handed out
in order, so those of an expression are the ones from one number up to another.
-/

namespace EmLang.Lir

open List

variable {s destination : Slot}

/-- What the code of a function refers to. -/
structure Site where
  ast : Ast
  scope : Scope
  strings : Array String
  /-- How many slots belong to variables. -/
  declared : Nat

/-- A move, unless the operand is in its place already. -/
def moveTo (destination source : Operand) : List Instr :=
  if destination = source then [] else [.binary .mov destination source]

/-- A fresh temporary with the value of an operand. -/
def copyTo (t : Slot) (source : Operand) : List Instr :=
  [.unary .declare (.slot t), .binary .mov (.slot t) source]

namespace Site

variable (site : Site)

/-- The routine that stands for a built-in operation on these arguments. -/
def routine (arguments : List ExprId) : Builtin → Routine
  | .print => .printing (arguments.head?.bind fun e => (site.ast.node? e).map Prod.snd)
  | .tick => .tick
  | .toText => .intToString

/-- What a call with these arguments refers to: a symbol, its return type, and whether it is
external. -/
inductive Callee (arguments : List ExprId) : CallTarget → String → Ty → Bool → Prop where
  | function {f : FunId} {function : EmLang.Function} (found : site.scope.function? f = some function) :
      Callee arguments (.function f) function.name function.returnType false
  | builtin (b : Builtin) :
      Callee arguments (.builtin b) (site.routine arguments b).symbol (site.routine arguments b).returnType true

/-- Building an expression adds no instructions and writes no variable. -/
def Plain (e : ExprId) : Prop := ∃ kind ty, site.ast.node? e = some (kind, ty) ∧ Build.isPlainRead kind = true

/-- The operand becomes the temporary `t`, where `lo` is the first free temporary before and `hi`
after it. -/
inductive Held : Slot → Operand → List Instr → Slot → Slot → Prop where
  | kept {lo s : Slot} (temporary : site.declared ≤ s) : Held lo (.slot s) [] s lo
  | copied {lo : Slot} {operand : Operand} (other : ∀ s, operand = .slot s → s < site.declared) :
      Held lo operand (copyTo lo operand) lo (lo + 1)

/-- The operand is kept for a call as another one, whatever the later arguments do. -/
inductive Kept (later : List ExprId) : Slot → Operand → List Instr → Operand → Slot → Prop where
  | safe {lo : Slot} {operand : Operand} (safe : ∀ s, operand = .slot s → site.declared ≤ s ∨
        ∀ e ∈ later, site.Plain e) : Kept later lo operand [] operand lo
  | copied {lo s : Slot} (own : s < site.declared) :
      Kept later lo (.slot s) (copyTo lo (.slot s)) (.slot lo) (lo + 1)

/-- The instructions behind the call of a symbol, and the operand that holds its value. -/
inductive Answer : Ty → Slot → List Instr → Option Operand → Slot → Prop where
  | value {ty : Ty} {lo : Slot} (value : ty.hasValue = true) :
      Answer ty lo (copyTo lo .returnSlot) (some (.slot lo)) (lo + 1)
  | void {ty : Ty} {lo : Slot} (novalue : ty.hasValue = false) : Answer ty lo [] none lo

mutual

/-- The expression, at most `h` nodes deep, is built to the code, with the operand for its value. -/
inductive ExprCode : Nat → Slot → ExprId → List Instr → Option Operand → Slot → Prop where
  | number {h : Nat} {lo : Slot} {e : ExprId} {ty : Ty} {literal : Text.Span}
      {value : Int64} (here : site.ast.node? e = some (.number literal value, ty)) :
      ExprCode (h + 1) lo e [] (some (.imm value)) lo
  | string {h : Nat} {lo : Slot} {e : ExprId} {ty : Ty} {literal : Text.Span}
      {value : String} {index : Nat} (here : site.ast.node? e = some (.string literal value, ty))
      (placed : site.strings[index]? = some value) : ExprCode (h + 1) lo e [] (some (.str index)) lo
  | bool {h : Nat} {lo : Slot} {e : ExprId} {ty : Ty} {literal : Text.Span} {value : Bool}
      (here : site.ast.node? e = some (.bool literal value, ty)) :
      ExprCode (h + 1) lo e [] (some (.imm (if value then 1 else 0))) lo
  | var {h : Nat} {lo : Slot} {e : ExprId} {ty : Ty} {name : Text.Span} {v : VarId} {x : Variable}
      (here : site.ast.node? e = some (.var name (some v), ty)) (declared : site.scope.var? v = some x) :
      ExprCode (h + 1) lo e [] (some (.slot x.slot)) lo
  | assign {h : Nat} {lo hi : Slot} {e : ExprId} {ty : Ty}
      {name equals : Text.Span} {inner : ExprId} {v : VarId} {x : Variable} {code : List Instr}
      {operand : Operand} (here : site.ast.node? e = some (.assign name equals inner (some v), ty))
      (declared : site.scope.var? v = some x) (below : ExprCode h lo inner code (some operand) hi) :
      ExprCode (h + 1) lo e (code ++ moveTo (.slot x.slot) operand) (some (.slot x.slot)) hi
  | binary
      {h : Nat} {lo mid mid' hi : Slot} {e : ExprId} {ty : Ty} {op : BinaryOp} {sign : Text.Span}
      {left right : ExprId} {kind : ExprKind} {a : Ty} {code copy code' : List Instr}
      {l r : Operand} {t : Slot} (here : site.ast.node? e = some (.binary op sign left right, ty))
      (arithmetic : op.isComparison = false) (leftHere : site.ast.node? left = some (kind, a))
      (words : a ≠ .string) (first : ExprCode h lo left code (some l) mid)
      (held : site.Held mid l copy t mid') (second : ExprCode h mid' right code' (some r) hi) :
      ExprCode (h + 1) lo e
      (code ++ copy ++ code' ++ [.binary (Build.opcodeOf op) (.slot t) r]) (some (.slot t)) hi
  | negate {h : Nat} {lo mid hi : Slot} {e : ExprId} {ty : Ty} {sign : Text.Span} {inner : ExprId}
      {code copy : List Instr} {operand : Operand} {t : Slot} (here : site.ast.node? e =
        some (.negate sign inner, ty)) (below : ExprCode h lo inner code (some operand) mid)
      (held : site.Held mid operand copy t hi) :
      ExprCode (h + 1) lo e (code ++ copy ++ [.unary .neg (.slot t)]) (some (.slot t)) hi
  | paren {h : Nat} {lo hi : Slot} {e : ExprId} {ty : Ty} {leftParen rightParen : Text.Span} {inner : ExprId}
      {code : List Instr} {operand : Option Operand}
      (here : site.ast.node? e = some (.paren leftParen inner rightParen, ty))
      (below : ExprCode h lo inner code operand hi) : ExprCode (h + 1) lo e code operand hi
  | call {h : Nat} {lo mid hi : Slot} {e : ExprId} {ty : Ty}
      {name leftParen rightParen : Text.Span} {arguments : List ExprId}
      {target : CallTarget} {code answer : List Instr} {operands : List Operand} {symbol : String}
      {returnType : Ty} {isExternal : Bool} {operand : Option Operand}
      (here : site.ast.node? e = some (.call name leftParen arguments rightParen target, ty))
      (below : ArgsCode h lo arguments code operands mid)
      (callee : site.Callee arguments target symbol returnType isExternal)
      (answered : Answer returnType mid answer operand hi) : ExprCode (h + 1) lo e
      (code ++ .unary .call (.callee symbol operands returnType isExternal) :: answer) operand hi

/-- The arguments of a call are built to the code, with an operand for each. -/
inductive ArgsCode : Nat → Slot → List ExprId → List Instr → List Operand → Slot → Prop where
  | nil {h : Nat} {lo : Slot} : ArgsCode h lo [] [] [] lo
  | cons {h : Nat} {lo mid mid' hi : Slot} {e : ExprId} {later : List ExprId} {code copy code' : List Instr}
      {operand kept : Operand} {operands : List Operand} (head : ExprCode h lo e code (some operand) mid)
      (keeps : site.Kept later mid operand copy kept mid') (tail : ArgsCode h mid' later code' operands hi) :
      ArgsCode h lo (e :: later) (code ++ copy ++ code') (kept :: operands) hi

end

/-- The statements of a function that leaves through the block `exit` are built to the code. At the
end it is said whether a `return` ended it. -/
inductive BodyCode (exit : BlockId) : Slot → List StmtId → List Instr → Slot → Bool → Prop where
  | nil {lo : Slot} : BodyCode exit lo [] [] lo false
  | expr {lo mid hi : Slot} {id : StmtId} {ids : List StmtId} {e : ExprId} {code rest : List Instr}
      {operand : Option Operand} {ended : Bool} (here : site.ast.stmtKind? id = some (.expr e))
      (head : site.ExprCode site.ast.depth lo e code operand mid) (tail : BodyCode exit mid ids rest hi ended) :
      BodyCode exit lo (id :: ids) (code ++ rest) hi ended
  | letVar {lo mid hi : Slot} {id : StmtId} {ids : List StmtId} {keyword name : Text.Span}
      {ascription : Option Ascription} {init : ExprId} {v : VarId} {x : Variable}
      {code rest : List Instr} {operand : Operand} {ended : Bool} (here : site.ast.stmtKind? id =
        some (.letVar keyword name ascription init (some v))) (declared : site.scope.var? v =
        some x) (head : site.ExprCode site.ast.depth lo init code (some operand) mid)
      (tail : BodyCode exit mid ids rest hi ended) : BodyCode exit lo (id :: ids)
      (code ++ .unary .declare (.slot x.slot) :: moveTo (.slot x.slot) operand ++ rest) hi ended
  | ret {lo hi : Slot} {id : StmtId} {ids : List StmtId} {keyword : Text.Span} {e : ExprId} {code : List Instr}
      {operand : Operand} (here : site.ast.stmtKind? id = some (.ret keyword (some e)))
      (head : site.ExprCode site.ast.depth lo e code (some operand) hi) :
      BodyCode exit lo (id :: ids) (code ++ moveTo .returnSlot operand ++ [.unary .jmp (.block exit)]) hi true
  | retVoid {lo : Slot} {id : StmtId} {ids : List StmtId} {keyword : Text.Span}
      (here : site.ast.stmtKind? id = some (.ret keyword none)) :
      BodyCode exit lo (id :: ids) [.unary .jmp (.block exit)] lo true
  | function {lo hi : Slot} {id : StmtId} {ids : List StmtId} {keyword name : Text.Span}
      {parameters : List Parameter} {returnType : Option ReturnType} {body : Body}
      {bound : Option FunId} {rest : List Instr} {ended : Bool} (here : site.ast.stmtKind? id =
        some (.function keyword name parameters returnType body bound))
      (tail : BodyCode exit lo ids rest hi ended) : BodyCode exit lo (id :: ids) rest hi ended

/-- An operand for the default value of a type. -/
inductive Default : Ty → Operand → Prop where
  | string {index : Nat} (placed : site.strings[index]? = some "") : Default .string (.str index)
  | word {ty : Ty} (word : ty ≠ .string) : Default ty (.imm 0)

/-- The instructions behind the statements of a function. -/
inductive EndCode (function : EmLang.Function) (exit : BlockId) : Bool → List Instr → Prop where
  | ended : EndCode function exit true []
  | main (name : function.name = "main") :
      EndCode function exit false [.binary .mov .returnSlot (.imm 0), .unary .jmp (.block exit)]
  | default {operand : Operand} (name : function.name ≠ "main") (value : function.returnType.hasValue = true)
      (default : site.Default function.returnType operand) :
      EndCode function exit false [.binary .mov .returnSlot operand, .unary .jmp (.block exit)]
  | void (name : function.name ≠ "main") (novalue : function.returnType.hasValue = false) :
      EndCode function exit false [.unary .jmp (.block exit)]

end Site

/-! ### Slots that code writes -/

/-- The slot that an instruction writes. -/
def Instr.target? : Instr → Option Slot
  | .unary .declare (.slot s) | .unary .neg (.slot s) | .binary _ (.slot s) _ => some s
  | _ => none

def writes (code : List Instr) : List Slot := code.filterMap Instr.target?

@[simp] lemma writes_nil : writes [] = [] := rfl

@[simp] lemma writes_append (code code' : List Instr) : writes (code ++ code') = writes code ++ writes code' :=
  filterMap_append

@[simp] lemma writes_copyTo (t : Slot) (source : Operand) : writes (copyTo t source) = [t, t] := rfl

lemma mem_writes_moveTo {source : Operand} (h : s ∈ writes (moveTo (.slot destination) source)) :
    s = destination := by
  unfold moveTo at h
  split_ifs at h
  · cases h
  · exact mem_singleton.1 h

namespace Site

variable (site : Site) {vars : List VarId} {lo mid hi t hi' lo' : Slot} {code : List Instr}
  {h : Nat} {operand : Operand} {operands : List Operand}

/-- The slot belongs to a variable that can be seen, or to a temporary from `lo` up to `hi`. -/
def Own (vars : List VarId) (lo hi s : Slot) : Prop :=
  (∃ v ∈ vars, ∃ x, site.scope.var? v = some x ∧ x.slot = s) ∨ (lo ≤ s ∧ s < hi)

variable {site}

lemma Own.widen (h : site.Own vars lo hi s) (low : lo' ≤ lo) (high : hi ≤ hi') : site.Own vars lo' hi' s :=
  h.imp_right fun ⟨ge, lt⟩ => ⟨low.trans ge, lt.trans_le high⟩

/-- Code for an expression uses its own slots. -/
structure OwnSlots (site : Site) (vars : List VarId) (lo hi : Slot) (code : List Instr)
    (operands : List Operand) : Prop where
  le : lo ≤ hi
  writes : ∀ s ∈ writes code, site.Own vars lo hi s
  operands : ∀ s, .slot s ∈ operands → site.Own vars lo hi s

namespace OwnSlots

variable {code' : List Instr} {operands' : List Operand}

/-- Code that writes only slots of operands can stand behind. -/
lemma also (h : site.OwnSlots vars lo hi code operands) (target : ∀ s ∈ Lir.writes code', .slot s ∈ operands) :
    site.OwnSlots vars lo hi (code ++ code') operands := by
  refine ⟨h.le, fun s hs => ?_, h.operands⟩
  obtain hs | hs := mem_append.1 (writes_append _ _ ▸ hs)
  · exact h.writes s hs
  · exact h.operands s (target s hs)

lemma append (first : site.OwnSlots vars lo mid code operands)
    (second : site.OwnSlots vars mid hi code' operands') :
    site.OwnSlots vars lo hi (code ++ code') (operands ++ operands') := by
  refine ⟨first.le.trans second.le, fun s hs => ?_, fun s hs => ?_⟩
  · obtain hs | hs := mem_append.1 (writes_append _ _ ▸ hs)
    · exact (first.writes s hs).widen le_rfl second.le
    · exact (second.writes s hs).widen first.le le_rfl
  · obtain hs | hs := mem_append.1 hs
    · exact (first.operands s hs).widen le_rfl second.le
    · exact (second.operands s hs).widen first.le le_rfl

lemma fewer (h : site.OwnSlots vars lo hi code operands) (less : ∀ s, .slot s ∈ operands' →
      .slot s ∈ operands) : site.OwnSlots vars lo hi code operands' :=
  ⟨h.le, h.writes, fun s hs => h.operands s (less s hs)⟩

end OwnSlots

lemma copyTo_own (site : Site) (vars : List VarId) (t : Slot) (source : Operand) :
    site.OwnSlots vars t (t + 1) (copyTo t source) [.slot t] := by
  have here : site.Own vars t (t + 1) t := .inr ⟨le_rfl, Nat.lt_succ_self t⟩
  exact ⟨Nat.le_succ t, by simp [here], by simp [here]⟩

lemma Held.own {copy : List Instr} (h : site.Held mid operand copy t hi)
    (own : site.OwnSlots vars lo mid code [operand]) :
    site.OwnSlots vars lo hi (code ++ copy) [.slot t] := by
  cases h with
  | kept _ => exact own.also (by simp)
  | copied _ => exact (own.append (copyTo_own ..)).fewer (by simp)

lemma Kept.own {later : List ExprId}
    {kept : Operand} {copy : List Instr} (h : site.Kept later mid operand copy kept hi)
    (own : site.OwnSlots vars lo mid code [operand]) :
    site.OwnSlots vars lo hi (code ++ copy) [kept] := by
  cases h with
  | safe _ => exact own.also (by simp)
  | copied _ => exact (own.append (copyTo_own ..)).fewer (by simp)

lemma Answer.own {ty : Ty} {answer : List Instr} {operand : Option Operand}
    (site : Site) (vars : List VarId) (h : Answer ty lo answer operand hi) :
    site.OwnSlots vars lo hi answer operand.toList := by
  cases h with
  | value _ => exact copyTo_own ..
  | void _ => exact ⟨le_rfl, by simp, by simp⟩

mutual

lemma ExprCode.own {e : ExprId} {ty : Ty} {h : Nat} {code : List Instr} {operand : Option Operand}
    {lo hi : Slot} (typed : HasType site.ast site.scope vars e ty) :
    site.ExprCode h lo e code operand hi → site.OwnSlots vars lo hi code operand.toList
  | .number _ | .string _ _ | .bool _ => ⟨le_rfl, by simp, by simp⟩
  | .var here declared => by
    obtain ⟨-, v, x, hv, seen, -, -⟩ := typed.parts here
    cases hv
    refine ⟨le_rfl, by simp, fun s hs => .inl ⟨_, seen, _, declared, ?_⟩⟩
    simpa [eq_comm] using hs
  | .assign here declared below => by
    obtain ⟨-, typed', v, x, hv, seen, -, -⟩ := typed.parts here
    cases hv
    refine ((below.own typed').append ⟨le_rfl, fun s hs => ?_, fun s hs => ?_⟩).fewer fun s =>
      mem_append_right _
    · exact .inl ⟨_, seen, _, declared, (mem_writes_moveTo hs).symm⟩
    · exact .inl ⟨_, seen, _, declared, by simpa [eq_comm] using hs⟩
  | .binary here _ _ _ first held second => by
    obtain ⟨-, a, b, leftTyped, rightTyped, -⟩ := typed.parts here
    have sides := (held.own (first.own leftTyped)).append (second.own rightTyped)
    exact (sides.also (by simp [Lir.writes, Instr.target?])).fewer fun s => mem_append_left _
  | .negate here below held => by
    obtain ⟨-, typed', -⟩ := typed.parts here
    exact (held.own (below.own typed')).also (by simp [Lir.writes, Instr.target?])
  | .paren here below => below.own (typed.parts here).2
  | .call here below _ answered => by
    obtain ⟨types, typed'⟩ := (typed.parts here).2.arguments
    obtain ⟨le, writes, result⟩ := answered.own site vars
    exact .fewer (.append (below.own typed') ⟨le, writes, result⟩) fun s => mem_append_right _

lemma ArgsCode.own {es : List ExprId} {tys : List Ty} {h : Nat} {code : List Instr}
    {operands : List Operand} {lo hi : Slot} (typed : HasTypes site.ast site.scope vars es tys) :
    site.ArgsCode h lo es code operands hi → site.OwnSlots vars lo hi code operands
  | .nil => ⟨le_rfl, by simp, by simp⟩
  | .cons head keeps tail => by
    obtain _ | ⟨headTyped, tailTyped⟩ := typed
    exact (keeps.own (head.own headTyped)).append (tail.own tailTyped)

end

lemma ExprCode.plain {e : ExprId} {operand : Option Operand}
    (built : site.ExprCode h lo e code operand hi) (plain : site.Plain e) :
    code = [] ∧ hi = lo := by
  obtain ⟨kind, ty, here, read⟩ := plain
  have kind' {k : ExprKind} {a : Ty} (here' : site.ast.node? e = some (k, a)) : kind = k := by
    rw [here] at here'
    exact congrArg Prod.fst (Option.some.inj here')
  cases built with
  | number _ | string _ _ | bool _ | var _ _ => exact ⟨rfl, rfl⟩
  | assign here' | binary here' | negate here' | paren here' | call here' =>
    rw [kind' here'] at read
    cases read

lemma ArgsCode.plain {es : List ExprId} (built : site.ArgsCode h lo es code operands hi)
    (plain : ∀ e ∈ es, site.Plain e) : ∀ s ∈ Lir.writes code, lo ≤ s := by
  induction es generalizing lo code operands with
  | nil =>
    obtain ⟨⟩ := built
    simp
  | cons e later ih =>
    obtain _ | ⟨head, keeps, tail⟩ := built
    obtain ⟨rfl, rfl⟩ := head.plain (plain e (by simp))
    intro s hs
    simp only [nil_append, writes_append, mem_append] at hs
    have behind := ih tail fun e he => plain e (by simp [he])
    cases keeps with
    | safe _ => exact behind s (by simpa using hs)
    | copied _ =>
      obtain hs | hs := hs
      · simp only [writes_copyTo, mem_cons, not_mem_nil, or_false, or_self] at hs
        exact hs.ge
      · exact (Nat.le_succ _).trans (behind s hs)

end Site

/-! ### Functions -/

def Calling (code : List Instr) : Prop := ∃ i ∈ code, i.opcode = .call

instance (code : List Instr) : Decidable (Calling code) := inferInstanceAs (Decidable (∃ i ∈ code, _))

/-- The function with the number `f` is built to two blocks of the program: one with its code, and
one that only returns. -/
structure Builds (ast : Ast) (scope : Scope) (lir : Lir) (f : FunId) (function : EmLang.Function) where
  entry : BlockId
  exit : BlockId
  /-- The code of the statements, and what stands behind it. -/
  body : List Instr
  ending : List Instr
  slotCount : Nat
  ended : Bool
  found : lir.functions[f]? = some
    { name := function.name
      returnType := function.returnType
      blocks := [entry, exit]
      parameterCount := function.parameters.length
      declaredCount := function.locals.length
      slotCount
      isLeaf := !decide (Calling body) }
  entryCode : (lir.blocks[entry]?).map Block.instructions = some (body ++ ending)
  exitCode : (lir.blocks[exit]?).map Block.instructions = some [.nullary .ret]
  bodyBuilt : Site.BodyCode ⟨ast, scope, lir.strings,
    function.locals.length⟩ exit function.locals.length function.body body slotCount ended
  endBuilt : Site.EndCode ⟨ast, scope, lir.strings, function.locals.length⟩ function exit ended ending
  entryOwned : (lir.blocks[entry]?).map Block.function = some f
  exitOwned : (lir.blocks[exit]?).map Block.function = some f

end EmLang.Lir
