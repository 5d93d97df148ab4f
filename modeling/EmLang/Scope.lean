import EmLang.Ast

/-!
The functions and variables of a program. The first function is the one that the statements outside
all bodies make up. A variable belongs to one function and has a slot there: parameters come first,
then the variables declared in the body, in their order.
-/

namespace EmLang

structure Function where
  name : String
  parameters : List VarId
  /-- The parameters and then the variables declared in the body. -/
  locals : List VarId
  body : List StmtId
  returnType : Ty
  declaration : Option StmtId
deriving DecidableEq, Inhabited

structure Variable where
  name : String
  ty : Ty
  function : FunId
  /-- The position among the variables of the function. -/
  slot : Nat
deriving DecidableEq, Inhabited

structure Scope where
  vars : Array Variable
  functions : Array Function
deriving DecidableEq, Inhabited

namespace Scope

/-- The function that the statements outside all bodies make up. -/
def main : FunId := 0

/-- The scope of a program without declarations. -/
def initial : Scope := ⟨#[], #[⟨"main", [], [], [], .int, none⟩]⟩

def function? (scope : Scope) (f : FunId) : Option Function := scope.functions[f]?

def var? (scope : Scope) (v : VarId) : Option Variable := scope.vars[v]?

def lookup? (scope : Scope) (name : String) : Option FunId :=
  scope.functions.findIdx? (·.name = name)

/-- Adds a function without parameters, or gives the one that has the name already. -/
def createFunction (scope : Scope) (name : String) (declaration : StmtId) :
    Except FunId (Scope × FunId) :=
  match scope.lookup? name with
  | some f => .error f
  | none =>
    let function : Function := ⟨name, [], [], [], .void, some declaration⟩
    .ok ({ scope with functions := scope.functions.push function }, scope.functions.size)

def modifyFunction (scope : Scope) (f : FunId) (g : Function → Function) : Scope :=
  { scope with functions := scope.functions.modify f g }

/-- The number of variables a function has so far. -/
def declaredCount (scope : Scope) (f : FunId) : Nat :=
  ((scope.function? f).map (·.locals.length)).getD 0

/-- Adds a variable in the next slot of its function. -/
def declareVariable (scope : Scope) (name : String) (ty : Ty) (f : FunId) (isParameter : Bool) :
    Scope × VarId :=
  let v := scope.vars.size
  let extended := { scope with vars := scope.vars.push ⟨name, ty, f, scope.declaredCount f⟩ }
  (extended.modifyFunction f fun function =>
    { function with
      locals := function.locals ++ [v]
      parameters := if isParameter then function.parameters ++ [v] else function.parameters }, v)

def typeOf (scope : Scope) (v : VarId) : Ty := ((scope.var? v).map (·.ty)).getD .unresolved

end Scope

end EmLang
