/-!
Messages on states that no program read and resolved by this library gets into. Trees put together
by hand can reach them.
-/

namespace EmLang

/-- The message when running or building a program meets something that resolving it rules out. -/
def defect (detail : String) : String := "There seems to be a bug with the compiler.\n " ++ detail

/-- The message when a node is asked for a part that its kind does not have. -/
def misuse (detail : String) : String := "internal error: entered unreachable code: " ++ detail

end EmLang
