/-!
Spans: a range of byte offsets into a text together with the characters it shows. Spans that lie
apart are joined with spaces between them, so that a joined span shows something for every byte.
-/

namespace EmLang.Text

/-- The bytes from `start` up to `stop`, shown as `literal`. -/
structure Span where
  start : Nat
  stop : Nat
  literal : String
deriving DecidableEq, Inhabited

namespace Span

/-- The number of bytes covered; none when the span ends before it starts. -/
def length? (s : Span) : Option Nat := if s.start ≤ s.stop then some (s.stop - s.start) else none

/-- What a list of spans shows from offset `cursor` on: a space for every byte before the next span,
and of a span that begins before `cursor` what is left after as many characters as it reaches
back. -/
def sweep (cursor : Nat) : List Span → List Char
  | [] => []
  | s :: rest =>
    List.replicate (s.start - cursor) ' ' ++
      if cursor < s.stop then s.literal.toList.drop (cursor - s.start) ++ sweep s.stop rest
      else sweep cursor rest

/-- The smallest span that covers all of `spans`, with spaces in the gaps. -/
def merge (spans : List Span) : Span :=
  match spans.mergeSort fun a b => a.start ≤ b.start with
  | [] => ⟨0, 0, ""⟩
  | first :: rest =>
    { start := first.start
      stop := rest.foldl (fun stop s => max stop s.stop) first.stop
      literal := String.ofList (sweep first.start (first :: rest)) }

def upTo (a b : Span) : Span := merge [a, b]

end Span

end EmLang.Text
