import HybridPlan.Text.Lines

set_option autoImplicit false

/-! # Paths of files

A path is a text of names with slashes between them. It leads from a place in the tree of files to
another one, name by name: a dot stays, two dots go up, and any other name goes down. The way has to
go through directories, and the system limits the length of names and paths. -/

namespace HybridPlan

/-- Why a path leads nowhere. -/
inductive PathFault where
  /-- A directory on the way is missing. -/
  | missing
  /-- The path or one of its names is too long. -/
  | tooLong
  /-- A name holds the character that ends a text in the system. -/
  | nul
  deriving DecidableEq, Repr

def PathFault.text : PathFault → String
  | missing => "No such file or directory (os error 2)"
  | tooLong => "File name too long (os error 36)"
  | nul => "file name contained an unexpected NUL byte"

namespace Path

/-! ## Texts -/

/-- The path of a file that is named relative to a directory. A name that begins with a slash is
not relative and stays as it is; an empty directory adds nothing. -/
def join (dir name : String) : String :=
  if name.startsWith "/" || dir.isEmpty then name
  else if dir.endsWith "/" then dir ++ name
  else dir ++ "/" ++ name

/-- The parts of a path between its slashes. -/
def parts (path : String) : List String := (Text.splitOn '/' path.toList).map String.ofList

/-- The path without its last part, which names the directory of a file. -/
def directory (path : String) : String := String.intercalate "/" (parts path).dropLast

/-! ## Places -/

/-- A place in the tree of files, given by the names that lead down to it from the root. -/
abbrev Place := List String

/-- The parts of a path that go somewhere. -/
def steps (path : String) : List String := (parts path).filter fun s => s ≠ "" && s ≠ "."

/-- The largest number of bytes in a name. -/
def maxNameSize : Nat := 255

/-- The largest number of bytes in a path. -/
def maxSize : Nat := 4095

/-- Where steps lead from a place. The root is its own directory, and the last step may lead to
something that is no directory or does not exist yet. -/
def follow (isDirectory : Place → Bool) (origin : Place) : List String → Except PathFault Place
  | [] => .ok origin
  | s :: steps =>
    if s = ".." then follow isDirectory origin.dropLast steps
    else if s.utf8ByteSize > maxNameSize then .error .tooLong
    else if steps.isEmpty || isDirectory (origin ++ [s]) then
      follow isDirectory (origin ++ [s]) steps
    else .error .missing

/-- Where a path leads from a directory, or from the root if it begins with a slash. -/
def locate (isDirectory : Place → Bool) (origin : Place) (path : String) : Except PathFault Place :=
  if path.toList.contains '\x00' then .error .nul
  else if path.utf8ByteSize > maxSize then .error .tooLong
  else follow isDirectory (if path.startsWith "/" then [] else origin) (steps path)

/-- Where a path leads when all directories on its way are there. -/
def place (path : String) : Except PathFault Place := locate (fun _ => true) [] path

/-! ## Laws of places -/

/-- Names that go down through directories lead to the place below the origin that they name. -/
theorem follow_eq_append {isDirectory : Place → Bool} {origin : Place} {steps : List String}
    (hnames : ∀ s ∈ steps, s ≠ ".." ∧ s.utf8ByteSize ≤ maxNameSize)
    (hdirs : ∀ p, isDirectory p = true) :
    follow isDirectory origin steps = .ok (origin ++ steps) := by
  induction steps generalizing origin with
  | nil => simp [follow]
  | cons s steps ih =>
    obtain ⟨hs, hsize⟩ := hnames s (by simp)
    have hrest := @ih (origin ++ [s]) fun t ht => hnames t (List.mem_cons_of_mem s ht)
    simp [follow, hs, Nat.not_lt.2 hsize, hdirs, hrest]

/-- A name that is too long ends the way, whatever follows. -/
theorem follow_tooLong {isDirectory : Place → Bool} {origin : Place} {s : String}
    {steps : List String} (h : maxNameSize < s.utf8ByteSize) :
    follow isDirectory origin (s :: steps) = .error .tooLong := by
  have hs : s ≠ ".." := by
    rintro rfl
    exact absurd h (by decide)
  simp [follow, hs, h]

end Path

end HybridPlan
