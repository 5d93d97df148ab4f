import EmLang.Text.Bytes

/-!
Source texts by lines. A line feed ends a line, so the text after the last one is a line as well.
-/

namespace EmLang.Text

/-- A text that offsets point into. -/
structure Source where
  chars : List Char

namespace Source

def ofString (s : String) : Source := ⟨s.toList⟩

def size (src : Source) : Nat := byteLength src.chars

/-- The lines, without the line feeds between them. -/
def lines (src : Source) : List (List Char) := src.chars.splitOn '\n'

/-- The line that holds the byte at `pos`, counted from 0, the last line for offsets past the end.
There is none when `pos` falls inside a character. -/
def lineIndex? (src : Source) (pos : Nat) : Option Nat :=
  (cut? (min pos src.size) src.chars).map fun (before, _) => before.count '\n'

/-- The line with index `i`, empty past the last. -/
def line (src : Source) (i : Nat) : List Char := src.lines.getD i []

/-- The offset of the first byte of the line with index `i`. -/
def lineStart (src : Source) (i : Nat) : Nat :=
  (src.lines.take i).foldr (fun line later => byteLength line + 1 + later) 0

end Source

end EmLang.Text
