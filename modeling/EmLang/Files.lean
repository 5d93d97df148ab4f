import EmLang.Text.Bytes

/-!
Files under paths. A tree holds texts under lists of names. A path is followed name by name, and the
first obstacle on the way is the reason why it leads nowhere.
-/

namespace EmLang

open Text

/-- Why a file cannot be read or written. -/
inductive Refusal where
  | missing
  | forbidden
  | notDirectory
  | directory
  | nameTooLong
deriving DecidableEq

namespace Refusal

/-- The number of a reason. -/
def code : Refusal → Nat
  | missing => 2
  | forbidden => 13
  | notDirectory => 20
  | directory => 21
  | nameTooLong => 36

def ofCode? : Nat → Option Refusal
  | 2 => some missing
  | 13 => some forbidden
  | 20 => some notDirectory
  | 21 => some directory
  | 36 => some nameTooLong
  | _ => none

@[simp] theorem ofCode?_code (r : Refusal) : ofCode? r.code = some r := by cases r <;> rfl

def wording : Refusal → String
  | missing => "No such file or directory"
  | forbidden => "Permission denied"
  | notDirectory => "Not a directory"
  | directory => "Is a directory"
  | nameTooLong => "File name too long"

def message (r : Refusal) : String := s!"{r.wording} (os error {r.code})"

end Refusal

/-- The names that lead to a file or directory from the top of the tree, the last name first. -/
abbrev Place := List (List Char)

/-- A tree of texts. It has the directories that its texts and the working directory need. -/
structure Files where
  texts : List (Place × String)
  /-- The working directory, where relative paths start. -/
  here : Place

namespace Files

def text? (files : Files) (place : Place) : Option String :=
  (files.texts.find? (·.1 = place)).map (·.2)

def isDirectory (files : Files) (place : Place) : Bool :=
  place.isSuffixOf files.here || files.texts.any fun (p, _) => p != place && place.isSuffixOf p

def maxName : Nat := 255

/-- The longest path, in bytes. -/
def maxPath : Nat := 4095

/-- Goes on from a place by one name. The new place need not hold anything yet. -/
def step (files : Files) (place : Place) (name : List Char) : Except Refusal Place :=
  if files.isDirectory place then
    if name = [] ∨ name = ['.'] then .ok place
    else if name = ['.', '.'] then .ok place.tail
    else if maxName < byteLength name then .error .nameTooLong
    else .ok (name :: place)
  else if (files.text? place).isSome then .error .notDirectory
  else .error .missing

/-- The place that a path leads to. A leading slash starts at the top. -/
def follow (files : Files) (path : List Char) : Except Refusal Place :=
  if path = [] then .error .missing
  else if maxPath < byteLength path then .error .nameTooLong
  else (path.splitOn '/').foldlM files.step (if path.head? = some '/' then [] else files.here)

def read (files : Files) (path : String) : Except Refusal String := do
  let place ← files.follow path.toList
  if files.isDirectory place then throw .directory
  else match files.text? place with
    | some text => return text
    | none => throw .missing

/-- A path without the slashes at its end; the top of the tree keeps one. -/
def unslashed (path : List Char) : List Char :=
  match (path.reverse.dropWhile (· = '/')).reverse with
  | [] => path.take 1
  | rest => rest

/-- Stores a text under a path, in place of the one that was there. A path that ends in a slash can
only name a directory. -/
def write (files : Files) (path : String) (text : String) : Except Refusal Files := do
  let place ← files.follow (unslashed path.toList)
  if path.toList.getLast? = some '/' ∨ files.isDirectory place then throw .directory
  else return { files with texts := files.texts.filter (·.1 ≠ place) ++ [(place, text)] }

end Files

end EmLang
