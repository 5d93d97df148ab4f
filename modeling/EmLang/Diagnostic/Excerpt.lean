import EmLang.Diagnostic
import EmLang.Text.Source
import EmLang.Text.Terminal

/-!
Diagnostics shown against the source: the line, the place on it and a few bytes around it, with
marks below.
-/

namespace EmLang.Diagnostic

open Text Terminal

/-- Why a span cannot be shown. -/
inductive Misplaced where
  /-- It starts inside a character. -/
  | insideCharacter
  /-- It ends before it starts. -/
  | reversed
deriving DecidableEq

/-- The part of a line that is shown around a span. -/
structure Excerpt where
  lineNumber : Nat
  column : Nat
  before : List Char
  marked : List Char
  after : List Char

/-- How many bytes are shown on each side of the marked text. -/
def contextBytes : Nat := 8

/-- The excerpt for a span. A part whose edge falls inside a character is left out. -/
def excerpt (src : Source) (span : Span) : Except Misplaced Excerpt :=
  match src.lineIndex? span.start, span.length? with
  | none, _ => .error .insideCharacter
  | _, none => .error .reversed
  | some index, some length =>
    let line := src.line index
    let size := byteLength line
    let column := min (span.start - src.lineStart index) size
    let markedStop := min (column + length) size
    let part (low high : Nat) := (slice? low high line).getD []
    .ok {
      lineNumber := index + 1
      column
      before := part (column - contextBytes) column
      marked := part column markedStop
      after := part markedStop (min (markedStop + contextBytes) size) }

/-- The left margin of the lines around the excerpt. -/
def gutter (lineNumber : Nat) : String :=
  let padding := String.ofList (List.replicate ((toString lineNumber).length + 1) ' ')
  s!"{padding}{blue}{bold}|{plain}{usualColour} "

/-- The left margin of the excerpt. -/
def lineLabel (lineNumber : Nat) : String :=
  s!"{blue}{bold}{lineNumber} |{plain}{usualColour} "

/-- As many spaces as there are bytes before the marked text. -/
def Excerpt.indent (e : Excerpt) : String :=
  String.ofList (List.replicate (byteLength e.before) ' ')

/-- One mark for every marked character, and one if there is none. -/
def Excerpt.marks (e : Excerpt) (mark : Char) : String :=
  String.ofList (List.replicate (max 1 e.marked.length) mark)

/-- An error with its headline, the excerpt, and the message below the marks. -/
def showError (src : Source) (d : Diagnostic) : Except Misplaced String := do
  let e ← excerpt src d.span
  let margin := gutter e.lineNumber
  let before := String.ofList e.before
  let marked := String.ofList e.marked
  let after := String.ofList e.after
  let position := s!"{e.lineNumber}:{e.column + 1}"
  return s!"{bold}{red}error{usualColour}: {d.brief}{plain}\n"
    ++ s!"{margin}\n"
    ++ s!"{lineLabel e.lineNumber}{before}{red}{marked}{usualColour}{after}\n"
    ++ margin ++ e.indent ++ e.marks '^' ++ "\n"
    ++ s!"{margin}{e.indent}+-- {d.full} ({position})\n"

def showWarning (src : Source) (d : Diagnostic) : Except Misplaced String := do
  let e ← excerpt src d.span
  let margin := gutter e.lineNumber
  let before := String.ofList e.before
  let marked := String.ofList e.marked
  let after := String.ofList e.after
  return s!"{bold}{yellow}warning{usualColour}: {d.full}{plain}\n"
    ++ s!"{margin}\n"
    ++ s!"{lineLabel e.lineNumber}{before}{marked}{after}\n"
    ++ margin ++ e.indent ++ yellow ++ e.marks '~' ++ s!"{usualColour}\n"

def render (src : Source) (d : Diagnostic) : Except Misplaced String :=
  match d.severity with
  | .error => d.showError src
  | .warning => d.showWarning src

end EmLang.Diagnostic

namespace EmLang.Report

open Text

/-- All errors as they are shown, each with a blank line after it. -/
def showErrors (src : Source) (r : Report) : Except Diagnostic.Misplaced String := do
  let texts ← r.errors.mapM (·.showError src)
  return String.join (texts.map (· ++ "\n"))

/-- All warnings as they are shown, each with a blank line after it. -/
def showWarnings (src : Source) (r : Report) : Except Diagnostic.Misplaced String := do
  let texts ← r.warnings.mapM (·.showWarning src)
  return String.join (texts.map (· ++ "\n"))

end EmLang.Report
