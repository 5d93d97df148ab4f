/-!
Byte measures of text. Offsets count the bytes of the UTF-8 form, while a text is a list of
characters: it can be cut only where a character begins or ends.
-/

namespace EmLang.Text

/-- The number of bytes of a text. -/
def byteLength : List Char → Nat
  | [] => 0
  | c :: cs => c.utf8Size + byteLength cs

/-- Cuts a text after `n` bytes. There is no such cut inside a character or past the end. -/
def cut? : Nat → List Char → Option (List Char × List Char)
  | 0, cs => some ([], cs)
  | _ + 1, [] => none
  | n + 1, c :: cs =>
    if c.utf8Size ≤ n + 1 then (cut? (n + 1 - c.utf8Size) cs).map fun (l, r) => (c :: l, r) else none

/-- The bytes from `low` up to `high`, if both are cuts of the text in this order. -/
def slice? (low high : Nat) (cs : List Char) : Option (List Char) :=
  if low ≤ high then do
    let (_, rest) ← cut? low cs
    let (part, _) ← cut? (high - low) rest
    return part
  else none

@[simp] theorem byteLength_nil : byteLength [] = 0 := rfl

@[simp] theorem byteLength_cons (c : Char) (cs : List Char) :
    byteLength (c :: cs) = c.utf8Size + byteLength cs := rfl

@[simp] theorem byteLength_append (l r : List Char) :
    byteLength (l ++ r) = byteLength l + byteLength r := by
  induction l with
  | nil => simp
  | cons c l ih => simp only [List.cons_append, byteLength_cons, ih, Nat.add_assoc]

end EmLang.Text
