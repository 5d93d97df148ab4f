/-!
Tables of code points. A property of characters is a list of closed ranges in ascending order, and a
character has the property when one of the ranges holds its code point. Long tables are written down
by the lengths of the ranges and of the gaps before them.
-/

namespace EmLang.Text

/-- Whether a range of the ascending table `ranges` holds `n`. -/
def inRanges (n : Nat) : List (Nat × Nat) → Bool
  | [] => false
  | (low, high) :: rest => low ≤ n && (n ≤ high || inRanges n rest)

/-- The ranges from `start` on, of which each is given by the gap before it and its length. -/
def ranges (start : Nat) : List Nat → List (Nat × Nat)
  | gap :: length :: rest => (start + gap, start + gap + length - 1) :: ranges (start + gap + length) rest
  | _ => []

end EmLang.Text
