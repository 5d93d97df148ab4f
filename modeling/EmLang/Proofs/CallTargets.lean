import EmLang.Proofs.ListingLines
import EmLang.Proofs.Resolved

/-!
What the calls of a listing reach. Each call is written with the name of the function that it
resolved to, or with the symbol of the routine for its built-in, and each function defines its name
as a label once. But the names of functions are taken from the text as they are: a register may have
the same, or a routine. Of the names of registers only the sixteen of `Register` are looked at. So
calls reach what they should just if no such name is chosen.
-/

namespace EmLang

open ExprKind Lir List Native Native.Lowering Option

variable {ast : Ast} {exit : BlockId} {ended : Bool} {copy : List Instr} {ids : List StmtId}
  {id : StmtId} {kind : StmtKind} {ty : Ty} {e : ExprId}

/-! ### The calls of a program -/

def ExprKind.isCall : ExprKind → Bool
  | .call .. => true
  | _ => false

/-- The calls in an expression that is at most `h` nodes deep, each behind those in its arguments:
the order in which they are made. -/
def Ast.callsIn (ast : Ast) : Nat → ExprId → List ExprId
  | 0, _ => []
  | h + 1, e =>
    match ast.node? e with
    | none => []
    | some (kind, _) => kind.children.flatMap (ast.callsIn h) ++ if kind.isCall then [e] else []

/-- The calls in a statement, apart from those in its bodies. -/
def Ast.stmtCalls (ast : Ast) (id : StmtId) : List ExprId :=
  (((ast.stmtKind? id).map StmtKind.expressions).getD []).flatMap (ast.callsIn ast.depth)

namespace Program

variable (p : Program)

/-- The calls that are built for a function. -/
def callsOf (function : Function) : List ExprId := (p.ast.generated function.body).flatMap p.ast.stmtCalls

/-- The calls that are built for a program, function by function. -/
def calls : List ExprId := p.scope.functions.toList.flatMap p.callsOf

/-- The symbol that a call refers to: the name of a function, or the symbol of the routine for a
built-in. The second part tells whether it is looked up outside the program. -/
def callee? (e : ExprId) : Option (String × Bool) :=
  match p.ast.node? e with
  | some (.call _ _ _ _ (.function g), _) => (p.scope.function? g).map fun function => (function.name, false)
  | some (.call _ _ arguments _ (.builtin b), _) =>
      some ((Lir.Site.routine ⟨p.ast, p.scope, #[], 0⟩ arguments b).symbol, true)
  | _ => none

/-- No function that is called has the name of one of the sixteen registers of `Register`, in lower
case and as 64 bits, and no function has the name of a routine that is called. Other names that an
assembler may know, such as `eax`, `xmm0` or `RAX`, are not meant. -/
structure Apart : Prop where
  registers : ∀ e ∈ p.calls, ∀ r : Register, p.callee? e ≠ some (r.name, false)
  routines : ∀ e ∈ p.calls, ∀ g function, p.scope.function? g = some function →
    p.callee? e ≠ some (function.name, true)

end Program

/-- Each call of a listing is taken for a call of what is meant: no operand is the name of one of
the sixteen registers of `Register`, and no symbol that is looked up outside is defined as a
label. -/
structure Native.Listing.Linked (listing : String) : Prop where
  registers : ∀ operand ∈ calls listing, ∀ r : Register, operand ≠ r.name.toList
  routines : ∀ symbol, symbol ++ "@PLT".toList ∈ calls listing → symbol ∉ labels listing

/-! ### The calls of code -/

namespace Lir.Site

variable {site : Site}

/-- The call of code is one of the expression. -/
def Called (site : Site) (e : ExprId) (callee : String × Bool) : Prop :=
  ∃ name leftParen arguments rightParen target ty returnType,
    site.ast.node? e = some (.call name leftParen arguments rightParen target, ty) ∧
    site.Callee arguments target callee.1 returnType callee.2

lemma callees_call (symbol : String)
    (arguments : List Operand) (returnType : Ty) (isExternal : Bool) (is : List Instr) :
    callees (.unary .call (.callee symbol arguments returnType isExternal) :: is) =
    (symbol, isExternal) :: callees is := rfl

lemma callees_moveTo (destination source : Operand) : callees (moveTo destination source) = [] := by
  unfold moveTo
  split_ifs <;> rfl

lemma Held.callees {lo t hi : Slot} {operand : Operand} (h : site.Held lo operand copy t hi) :
    callees copy = [] := by
  cases h <;> rfl

lemma Kept.callees {later : List ExprId} {lo hi : Slot} {operand kept : Operand}
    (h : site.Kept later lo operand copy kept hi) : callees copy = [] := by
  cases h <;> rfl

lemma Answer.callees {lo hi : Slot} {answer : List Instr} {operand : Option Operand}
    (h : Answer ty lo answer operand hi) : callees answer = [] := by
  cases h <;> rfl

lemma callsIn_of_node {h : Nat} {kind : ExprKind} (here : ast.node? e = some (kind, ty)) :
    ast.callsIn (h + 1) e = kind.children.flatMap (ast.callsIn h) ++ if kind.isCall then [e] else [] := by
  rw [Ast.callsIn, here]

mutual

lemma ExprCode.called {h : Nat} {lo hi : Slot} {code : List Instr} {operand : Option Operand} {e : ExprId} :
    site.ExprCode h lo e code operand hi → Forall₂ site.Called (site.ast.callsIn h e) (callees code)
  | .number here | .string here _ | .bool here | .var here _ => by
    rw [callsIn_of_node here]
    exact .nil
  | .assign here _ below => by
    rw [callsIn_of_node here, callees_append, callees_moveTo]
    simpa [children, isCall] using below.called
  | .binary here _ _ _ first held second => by
    have operates : ∀ op t r, callees [.binary op t r] = [] := fun _ _ _ => rfl
    rw [callsIn_of_node here, callees_append, callees_append, callees_append, held.callees, operates]
    simpa [children, isCall] using rel_append first.called second.called
  | .negate here below held => by
    have negates : ∀ t, callees [.unary .neg t] = [] := fun _ => rfl
    rw [callsIn_of_node here, callees_append, callees_append, held.callees, negates]
    simpa [children, isCall] using below.called
  | .paren here below => by
    rw [callsIn_of_node here]
    simpa [children, isCall] using below.called
  | .call here below callee answered => by
    rw [callsIn_of_node here, callees_append, callees_call, answered.callees]
    exact rel_append below.called (.cons ⟨_, _, _, _, _, _, _, here, callee⟩ .nil)

lemma ArgsCode.called {h : Nat} {lo hi : Slot} {es : List ExprId} {code : List Instr}
    {operands : List Operand} : site.ArgsCode h lo es code operands hi →
    Forall₂ site.Called (es.flatMap (site.ast.callsIn h)) (callees code)
  | .nil => .nil
  | .cons head keeps tail => by
    rw [flatMap_cons, callees_append, callees_append, keeps.callees, append_nil]
    exact rel_append head.called tail.called

end

lemma stmtCalls_of_kind (here : ast.stmtKind? id = some kind) :
    ast.stmtCalls id = kind.expressions.flatMap (ast.callsIn ast.depth) := by
  rw [Ast.stmtCalls, here]
  rfl

lemma generated_of_kind (here : ast.stmtKind? id = some kind) :
    ast.generated (id :: ids) = id :: if kind.isReturn then [] else ast.generated ids := by
  rw [Ast.generated, Ast.returns, here]
  rfl

lemma BodyCode.called {lo hi : Slot} {code : List Instr} (h : site.BodyCode exit lo ids code hi ended) :
    Forall₂ site.Called ((site.ast.generated ids).flatMap site.ast.stmtCalls) (callees code) := by
  induction h with
  | nil => exact .nil
  | expr here head _ ih =>
    rw [generated_of_kind here, callees_append, flatMap_cons, stmtCalls_of_kind here]
    refine rel_append ?_ ih
    simpa [StmtKind.expressions] using head.called
  | @letVar _ _ _ _ _ _ _ _ _ _ x _ _ operand _ here _ head _ ih =>
    have sets : callees (.unary .declare (.slot x.slot) :: moveTo (.slot x.slot) operand) = [] :=
      callees_moveTo _ _
    rw [generated_of_kind here, callees_append, callees_append, sets, append_nil, flatMap_cons,
      stmtCalls_of_kind here]
    refine rel_append ?_ ih
    simpa [StmtKind.expressions] using head.called
  | ret here head =>
    have jumps : callees [.unary .jmp (.block exit)] = [] := rfl
    rw [generated_of_kind here, callees_append, callees_append, callees_moveTo, jumps, flatMap_cons,
      stmtCalls_of_kind here]
    simpa [StmtKind.expressions, StmtKind.isReturn] using head.called
  | retVoid here =>
    rw [generated_of_kind here, flatMap_cons, stmtCalls_of_kind here]
    exact .nil
  | function here _ ih =>
    rw [generated_of_kind here, flatMap_cons, stmtCalls_of_kind here]
    exact ih

lemma EndCode.callees {function : EmLang.Function} {code : List Instr}
    (h : site.EndCode function exit ended code) : callees code = [] := by
  cases h <;> rfl

end Lir.Site

/-! ### From programs to listings -/

section

variable {p : Program} {lir : Lir} {listing symbol : String}

variable {g : FunId} {function : Function}

lemma Program.Checked.isName (checked : p.Checked) (whole : p.ast.Whole)
    (found : p.scope.function? g = some function) : Token.IsName function.name := by
  obtain rfl | other := eq_or_ne g Scope.main
  · obtain ⟨main, here, name, -⟩ := checked.main
    obtain rfl := mem_unique here found
    rw [name]
    exact ⟨by decide, all_eq_true.1 (by decide)⟩
  · obtain ⟨id, -, keyword, name, parameters, returnType, body, here, same, -⟩ :=
      checked.declared g function found other
    rw [same]
    exact whole.named id _ (Ast.stmtShape?_of_stmtKind here)

lemma names_of_build (checked : p.Checked) (built : p.build.lir = .ok lir) :
    lir.functions.toList.map (·.name.toList) = p.scope.functions.toList.map (·.name.toList) := by
  obtain ⟨count, -, builds⟩ := checked.builds_of_build built
  refine ext_getElem? fun g => ?_
  rw [getElem?_map, getElem?_map, Array.getElem?_toList, Array.getElem?_toList]
  cases found : p.scope.functions[g]? with
  | none =>
    rw [Array.getElem?_eq_none_iff, ← count, ← Array.getElem?_eq_none_iff] at found
    rw [found]
    rfl
  | some function =>
    obtain ⟨b⟩ := builds g function found
    rw [b.found]
    rfl

/-- A call of code names what the call of the program refers to. -/
lemma Lir.Site.Called.callee? {callee : String × Bool} {strings : Array String} {declared : Nat}
    (called : Site.Called ⟨p.ast, p.scope, strings, declared⟩ e callee) : p.callee? e = some callee := by
  obtain ⟨symbol, isExternal⟩ := callee
  obtain ⟨name, leftParen, arguments, rightParen, target, ty, returnType, here, callee⟩ := called
  rw [Program.callee?, show p.ast.node? e = _ from here]
  cases callee with
  | function found => exact congrArg (Option.map _) found
  | builtin b => cases b <;> rfl

section

variable (checked : p.Checked) (built : p.build.lir = .ok lir)

include checked built

lemma callsOf_of_build (found : p.scope.function? g = some function) :
    Forall₂ (fun e callee => p.callee? e = some callee) (p.callsOf function) (callsOf lir g) := by
  obtain ⟨-, -, builds⟩ := checked.builds_of_build built
  obtain ⟨b⟩ := builds g function found
  have code : callsOf lir g = callees b.body := by
    have returns : callees [.nullary .ret] = [] := rfl
    rw [callsOf, Native.Layout.blocksOf, b.found, map_some, getD_some, flatMap_cons,
      flatMap_singleton, Native.Layout.code, Native.Layout.code, b.entryCode, b.exitCode, getD_some,
      getD_some, returns, append_nil, callees_append, b.endBuilt.callees, append_nil]
  rw [code]
  exact b.bodyBuilt.called.imp fun _ _ => Site.Called.callee?

lemma calls_of_build :
    p.calls.map p.callee? = ((range lir.functions.size).flatMap (callsOf lir)).map some := by
  obtain ⟨count, -, -⟩ := checked.builds_of_build built
  have numbered : Forall₂ (fun function g => p.scope.function? g = some function) p.scope.functions.toList
      (range lir.functions.size) := by
    refine forall₂_iff_get.2 ⟨by simp [count], fun g _ _ => ?_⟩
    simp [Scope.function?]
  rw [← forall₂_eq_eq_eq, forall₂_map_left_iff, forall₂_map_right_iff]
  exact rel_flatMap numbered fun _ _ found => callsOf_of_build checked built found

/-- A program that is built is lowered, and its functions make the same calls as before. -/
lemma lower_of_build : ∃ lir' reports, lower lir = ⟨lir', reports, none⟩ ∧ lir'.functions =
    lir.functions ∧ (∀ g, Native.Settled lir' g) ∧ (range lir.functions.size).flatMap
    (callsOf lir') = (range lir.functions.size).flatMap (callsOf lir) := by
  obtain ⟨lir', reports, lowered, functions, settled, -, same, -⟩ :=
    lowerEach_of_waits nodup_range (waits_of_built checked built)
  refine ⟨lir', reports, lowered, functions, fun g f found => ?_, flatMap_congr same⟩
  have lt : g < lir'.functions.size := (Array.getElem?_eq_some_iff.1 found).1
  exact settled g (mem_range.2 (functions ▸ lt)) f found

lemma exists_listing : ∃ listing, compile lir = .ok listing := by
  obtain ⟨lir', reports, lowered, -, settled, -⟩ := lower_of_build checked built
  obtain ⟨listing, written⟩ := Native.Listing.of_settled settled
  exact ⟨listing, by rw [compile, lowered]; exact written⟩

end

/-- What a call refers to is a function of the program or a routine outside it. -/
lemma Program.callee?_cases {isExternal : Bool} (h : p.callee? e = some (symbol, isExternal)) :
    (isExternal = false ∧ ∃ g function, p.scope.function? g = some function ∧ function.name = symbol) ∨
      (isExternal = true ∧ ∃ routine : Routine, routine.symbol = symbol) := by
  unfold Program.callee? at h
  split at h
  · obtain ⟨function, found, same⟩ := map_eq_some_iff.1 h
    cases same
    exact .inl ⟨rfl, _, function, found, rfl⟩
  · obtain ⟨rfl, rfl⟩ := Prod.mk.inj (some.inj h)
    exact .inr ⟨rfl, _, rfl⟩
  · cases h

open Native.Listing

/-- **A listing defines the names of the functions and makes the calls of the program.** -/
lemma listing_of_build (checked : p.Checked) (whole : p.ast.Whole)
    (built : p.build.lir = .ok lir) (written : compile lir = .ok listing) : (∃ own, labels listing =
      p.scope.functions.toList.map (·.name.toList) ++ own ∧ ∀ label ∈ own, label.head? = some '.') ∧
    (calls listing).map some = p.calls.map fun e => (p.callee? e).map calleeText := by
  obtain ⟨lir', reports, lowered, functions, settled, same⟩ := lower_of_build checked built
  have calls_eq := calls_of_build checked built
  rw [compile, lowered] at written
  have names (g : Nat) f (found : lir'.functions[g]? = some f) : Token.IsName f.name := by
    obtain ⟨function, here, b, rfl⟩ := exists_builds checked built (functions ▸ found)
    exact checked.isName whole here
  have plain : ∀ g, ∀ callee ∈ callsOf lir' g, OneLine callee.1 := by
    rintro g ⟨symbol, isExternal⟩ mem
    have present : g < lir.functions.size := by
      by_contra absent
      rw [callsOf, Native.Layout.blocksOf, Array.getElem?_eq_none (functions ▸ Nat.le_of_not_lt absent)] at mem
      cases mem
    have made : (symbol, isExternal) ∈ (range lir.functions.size).flatMap (callsOf lir) :=
      same ▸ mem_flatMap.2 ⟨g, mem_range.2 present, mem⟩
    obtain ⟨e, -, here⟩ := mem_map.1 (calls_eq ▸ mem_map_of_mem made)
    obtain ⟨-, _, function, found, rfl⟩ | ⟨-, routine, rfl⟩ := Program.callee?_cases here
    · exact (checked.isName whole found).not_mem (by decide)
    · show OneLine routine.symbol
      cases routine <;> decide
  obtain ⟨⟨own, labels_eq, dotted⟩, shown⟩ := of_shows settled names plain written
  rw [functions] at labels_eq shown
  refine ⟨⟨own, labels_eq.trans (congrArg (· ++ own) (names_of_build checked built)), dotted⟩, ?_⟩
  rw [shown, same]
  calc
    _ = (((range lir.functions.size).flatMap (callsOf lir)).map some).map (Option.map calleeText) := by
      rw [List.map_map, List.map_map]
      rfl
    _ = (p.calls.map p.callee?).map (Option.map calleeText) := by rw [calls_eq]
    _ = _ := map_map

variable {own : List (List Char)}

lemma mem_calls_iff {operand : List Char} (shown : (calls listing).map some = p.calls.map fun e =>
      (p.callee? e).map calleeText) : operand ∈ calls listing ↔
    ∃ e ∈ p.calls, ∃ callee, p.callee? e = some callee ∧ calleeText callee = operand := by
  have some_mem : operand ∈ calls listing ↔ some operand ∈ (calls listing).map some := by simp
  rw [some_mem, shown, List.mem_map]
  simp only [map_eq_some_iff]

lemma isName_symbol (routine : Routine) : Token.IsName routine.symbol := by
  cases routine <;> exact ⟨by decide, all_eq_true.1 (by decide)⟩

/-- The labels of strings are no names. -/
lemma name_not_mem (dotted : ∀ label ∈ own, label.head? = some '.') (name : Token.IsName symbol) :
    symbol.toList ∉ own := by
  intro mem
  exact name.not_mem (by decide) (mem_of_head? (dotted _ mem))

lemma mem_labels_iff (shown : labels listing = p.scope.functions.toList.map (·.name.toList) ++ own)
    (dotted : ∀ label ∈ own, label.head? = some '.') (name : Token.IsName symbol) :
    symbol.toList ∈ labels listing ↔ ∃ g function, p.scope.function? g = some function ∧
    function.name = symbol := by
  rw [shown, mem_append, or_iff_left (name_not_mem dotted name), List.mem_map]
  constructor
  · rintro ⟨function, mem, same⟩
    obtain ⟨g, found⟩ := mem_iff_getElem?.1 mem
    exact ⟨g, function, Array.getElem?_toList.symm.trans found, String.toList_inj.1 same⟩
  · rintro ⟨g, function, found, rfl⟩
    exact ⟨function, mem_iff_getElem?.2 ⟨g, Array.getElem?_toList.trans found⟩, rfl⟩

/-- Each function has a name of its own, so its label is defined once. -/
lemma count_labels (checked : p.Checked) (whole : p.ast.Whole)
    (shown : labels listing = p.scope.functions.toList.map (·.name.toList) ++ own)
    (dotted : ∀ label ∈ own, label.head? = some '.') (found : p.scope.function? g = some function) :
    (labels listing).count function.name.toList = 1 := by
  have distinct : (p.scope.functions.toList.map (·.name.toList)).Nodup := by
    refine nodup_iff_getElem?_ne_getElem?.2 fun i j lt bound same => lt.ne ?_
    rw [length_map] at bound
    rw [getElem?_map, getElem?_map, getElem?_eq_getElem (lt.trans bound), getElem?_eq_getElem bound] at same
    refine checked.names i j _ _ ?_ ?_ (String.toList_inj.1 (some.inj same))
    · exact Array.getElem?_toList.symm.trans (getElem?_eq_getElem (lt.trans bound))
    · exact Array.getElem?_toList.symm.trans (getElem?_eq_getElem bound)
  have mem : function.name.toList ∈ p.scope.functions.toList.map (·.name.toList) :=
    mem_map_of_mem (mem_iff_getElem?.2 ⟨g, Array.getElem?_toList.trans found⟩)
  rw [shown, count_append, count_eq_one_of_mem distinct mem,
    count_eq_zero_of_not_mem (name_not_mem dotted (checked.isName whole found))]

/-- The calls of a listing reach what is meant just if the names of functions are apart from
others. -/
lemma linked_iff_apart (checked : p.Checked) (whole : p.ast.Whole)
    (labels_eq : labels listing = p.scope.functions.toList.map (·.name.toList) ++ own)
    (dotted : ∀ label ∈ own, label.head? = some '.') (calls_eq : (calls listing).map some =
      p.calls.map fun e => (p.callee? e).map calleeText) : Linked listing ↔ p.Apart := by
  constructor
  · rintro ⟨registers, routines⟩
    refine ⟨fun e he r here => ?_, fun e he g function found here => ?_⟩
    · refine registers _ ((mem_calls_iff calls_eq).2 ⟨e, he, _, here, rfl⟩) r ?_
      simp [calleeText]
    · refine routines function.name.toList ((mem_calls_iff calls_eq).2 ⟨e, he, _, here, rfl⟩) ?_
      exact (mem_labels_iff labels_eq dotted (checked.isName whole found)).2 ⟨g, function, found, rfl⟩
  · rintro ⟨registers, routines⟩
    refine ⟨fun operand mem r same => ?_, fun symbol mem label => ?_⟩
    · obtain ⟨e, he, ⟨symbol, isExternal⟩, here, rfl⟩ := (mem_calls_iff calls_eq).1 mem
      cases isExternal with
      | false =>
        obtain rfl : symbol = r.name := String.toList_inj.1 (by simpa [calleeText] using same)
        exact registers e he r here
      | true =>
        have sign : '@' ∈ r.name.toList := same ▸ mem_append_right _ (show '@' ∈ "@PLT".toList by decide)
        revert sign
        cases r <;> decide
    · obtain ⟨e, he, ⟨symbol', isExternal⟩, here, text⟩ := (mem_calls_iff calls_eq).1 mem
      obtain ⟨rfl, _, function, found, rfl⟩ | ⟨rfl, routine, rfl⟩ := Program.callee?_cases here
      · have sign : '@' ∈ function.name.toList := by
          rw [calleeText, if_neg (by simp), append_nil] at text
          exact text ▸ mem_append_right _ (by decide)
        exact (checked.isName whole found).not_mem (by decide) sign
      · obtain rfl : routine.symbol.toList = symbol := append_cancel_right text
        obtain ⟨g, function, found, same⟩ := (mem_labels_iff labels_eq dotted (isName_symbol routine)).1 label
        exact routines e he g function found (same ▸ here)

/-- **The calls of a listing are the calls of the program.** Each function defines its name as a
label once, and each call is written with the name of the function or the symbol of the routine that
it refers to. They reach what is meant just if no function that is called is named like one of the
sixteen 64-bit registers, and no function like a routine that is called: only these sixteen
lower-case names count as registers here. -/
theorem Native.Listing.calls_reach {text : List Char} (accepted : Program.compile text = .ok p)
    (built : p.build.lir = .ok lir) (written : compile lir = .ok listing) : (∀ g function,
      p.scope.function? g = some function → (labels listing).count function.name.toList = 1) ∧
    (calls listing).map some = p.calls.map (fun e => (p.callee? e).map calleeText) ∧
    (Linked listing ↔ p.Apart) := by
  obtain ⟨⟨ast, read, alike⟩, checked⟩ := Program.read_of_compile accepted
  have whole := read.alike alike
  obtain ⟨⟨own, labels_eq, dotted⟩, calls_eq⟩ := listing_of_build checked whole built written
  exact ⟨fun _ _ => count_labels checked whole labels_eq dotted, calls_eq,
    linked_iff_apart checked whole labels_eq dotted calls_eq⟩

/-- Whether a program is built and its calls refer to these symbols. -/
def builtWith (callees : List (String × Bool)) (p : Program) : Bool :=
  p.build.lir.toBool && decide (p.calls.map p.callee? = callees.map some)

lemma exists_of_builtWith {text : List Char} {callees : List (String × Bool)} {check : Program → Bool}
    (h : ((Program.compile text).map fun p => builtWith callees p && check p).toOption = some true) :
    ∃ p lir listing, Program.compile text = .ok p ∧ p.build.lir = .ok lir ∧ compile lir = .ok listing ∧
      p.calls.map p.callee? = callees.map some ∧ check p = true := by
  obtain ⟨p, accepted, checks⟩ := Program.exists_of_check h
  simp only [builtWith, Bool.and_eq_true, decide_eq_true_eq] at checks
  obtain ⟨⟨built, refers⟩, check⟩ := checks
  obtain ⟨lir, built⟩ := exists_of_toBool built
  obtain ⟨listing, written⟩ := exists_listing (Program.checked_of_compile accepted) built
  exact ⟨p, lir, listing, accepted, built, written, refers, check⟩

/-- Calls of functions and of routines, one in an argument of another. -/
def nestedCalls : List Char :=
  ("fx twice(n: int) -> int \x7b return n + n; \x7d " ++
    "fx show(n: int) \x7b print(twice(n)); print(\"done\"); \x7d show(tick());").toList

/-- Whether the names of functions are apart from those of registers and routines. -/
def isApart (p : Program) : Bool :=
  p.calls.all fun e => Register.all.all
    (fun r => p.callee? e ≠ some (r.name, false)) && p.scope.functions.toList.all fun function =>
    p.callee? e ≠ some (function.name, true)

lemma apart_of_isApart (h : isApart p = true) : p.Apart := by
  simp only [isApart, List.all_eq_true, Bool.and_eq_true, decide_eq_true_eq] at h
  refine ⟨fun e he r => (h e he).1 r (by cases r <;> decide), fun e he g function found =>
    (h e he).2 function ?_⟩
  exact mem_iff_getElem?.2 ⟨g, Array.getElem?_toList.trans found⟩

theorem Native.Listing.calls_reach_nestedCalls : ∃ p lir listing, Program.compile nestedCalls =
    .ok p ∧ p.build.lir = .ok lir ∧ compile lir = .ok listing ∧ (∀ g function, p.scope.function? g =
      some function → (labels listing).count function.name.toList = 1) ∧ (calls listing).map some =
    [("ember_tick", true), ("show", false), ("twice", false), ("ember_print_int", true),
      ("ember_print_str", true)].map (fun callee => some (calleeText callee)) ∧ Linked listing := by
  obtain ⟨p, lir, listing, accepted, built, written, refers, apart⟩ :=
    exists_of_builtWith (show ((Program.compile nestedCalls).map fun p =>
    builtWith [("ember_tick", true), ("show", false), ("twice", false),
    ("ember_print_int", true), ("ember_print_str", true)] p && isApart p).toOption =
    some true by rw [show nestedCalls = _ from Token.toList_ofList_append ..]; decide +kernel)
  obtain ⟨once, shown, linked⟩ := calls_reach accepted built written
  refine ⟨p, lir, listing, accepted, built, written, once, shown.trans ?_, linked.2 (apart_of_isApart apart)⟩
  have texts := congrArg (map (Option.map calleeText)) refers
  rwa [List.map_map, List.map_map] at texts

/-- A function with the name of a register, and one with the name of a routine. -/
def takenNames : List Char := "fx rax() \x7b \x7d fx ember_tick() \x7b rax(); tick(); \x7d".toList

/-- **A name may be taken**: then a call of a function is read as a call through a register, and a
call of a routine reaches a function of the program. -/
theorem Native.Listing.takenNames_unlinked : ∃ p lir listing, Program.compile takenNames = .ok p ∧
    p.build.lir = .ok lir ∧ compile lir = .ok listing ∧ Register.rax.name.toList ∈ calls listing ∧
    Routine.tick.symbol.toList ++ "@PLT".toList ∈ calls listing ∧
    Routine.tick.symbol.toList ∈ labels listing := by
  obtain ⟨p, lir, listing, accepted, built, written, refers, named⟩ :=
    exists_of_builtWith (show ((Program.compile takenNames).map fun p => builtWith [("rax", false),
    ("ember_tick", true)] p &&
      decide ((p.scope.function? 2).map Function.name = some "ember_tick")).toOption = some true by
        rw [show takenNames = _ from String.toList_ofList]; decide +kernel)
  obtain ⟨⟨ast, read, alike⟩, checked⟩ := Program.read_of_compile accepted
  obtain ⟨⟨own, labels_eq, dotted⟩, calls_eq⟩ := listing_of_build checked (read.alike alike) built written
  have made callee (mem : callee ∈ [("rax", false), ("ember_tick", true)]) : calleeText callee ∈
      calls listing := by
    obtain ⟨e, he, here⟩ := mem_map.1 (refers ▸ mem_map_of_mem mem)
    exact (mem_calls_iff calls_eq).2 ⟨e, he, callee, here, rfl⟩
  obtain ⟨function, found, name⟩ := map_eq_some_iff.1 (of_decide_eq_true named)
  refine ⟨p, lir, listing, accepted, built, written, made ("rax", false) (by simp),
    made ("ember_tick", true) (by simp), ?_⟩
  exact (mem_labels_iff labels_eq dotted (isName_symbol .tick)).2 ⟨2, function, found, name⟩

end

end EmLang
