import HybridPlan.Domain.Basic
import HybridPlan.Expr.Token

set_option autoImplicit false

/-! # The sections of a domain file

A file is a sequence of sections with lines `---` between them. A section starts with a header
such as `goals:` and has one entry per line. Blank lines and lines that start with `#` mean
nothing. -/

namespace HybridPlan

inductive SectionKind where
  | constants
  | declarations
  | odes
  | transitions
  | initials
  | instantaneous
  | temporal
  | goals
  | reward
  deriving DecidableEq, Repr

namespace SectionKind

def all : List SectionKind :=
  [constants, declarations, odes, transitions, initials, instantaneous, temporal, goals, reward]

/-- The name in the header. -/
def name : SectionKind → String
  | constants => "constants"
  | declarations => "pvariables"
  | odes => "odes"
  | transitions => "transitions"
  | initials => "initials"
  | instantaneous => "instantaneous_constraints"
  | temporal => "temporal_constraints"
  | goals => "goals"
  | reward => "reward"

def ofName? (s : String) : Option SectionKind := all.find? (·.name = s)

theorem ofName?_name (k : SectionKind) : ofName? k.name = some k := by cases k <;> rfl

end SectionKind

/-- The section with the equations of a mode. -/
def TransitionMode.equations : TransitionMode → SectionKind
  | odes => .odes
  | solutions => .transitions

/-- The section with the equations of the other mode. -/
def TransitionMode.otherEquations : TransitionMode → SectionKind
  | odes => .transitions
  | solutions => .odes

/-- A section; the spans cover the header and the entries without the white space around them. -/
structure FileSection where
  kind : SectionKind
  header : Span
  entries : List Span

/-- Why a text falls into no sections. -/
inductive SectionError where
  | expectedHeader (line : Span)
  | unknown (header : Span)
  | duplicate (kind : SectionKind) (header first : Span)

def SectionError.message : SectionError → Message
  | expectedHeader line => .about line "expected a section header such as `goals:`"
  | unknown header =>
    let known := String.intercalate ", " (SectionKind.all.map (·.name))
    (Message.about header "unknown section").note s!"known sections: {known}"
  | duplicate kind header first =>
    (({ title := s!"section `{kind.name}` is defined twice" } : Message).mark header
      "redefined here").context first "first defined here"

/-- The text that separates sections. -/
def sectionSeparator : List Char := ['-', '-', '-']

namespace FileSection

/-- The sections read so far, the last one first, and the section being read. -/
structure Progress where
  closed : List FileSection := []
  current : Option FileSection := none

/-- All sections, with the one being read. -/
def Progress.finish (p : Progress) : List FileSection := (p.current.toList ++ p.closed).reverse

/-- Opens the section of a header. -/
def opened (closed : List FileSection) (line : Span) (text : List Char) :
    Except SectionError FileSection :=
  match Text.beforeEnd? [':'] text with
  | none => .error (.expectedHeader line)
  | some name =>
    match SectionKind.ofName? (String.ofList (Text.trim name)) with
    | none => .error (.unknown line)
    | some kind =>
      match closed.reverse.find? (·.kind = kind) with
      | some first => .error (.duplicate kind line first.header)
      | none => .ok ⟨kind, line, []⟩

/-- Reads one more line, which starts at the given byte. -/
def Progress.step (source : Source) (p : Progress) : Nat × List Char → Except SectionError Progress
  | (start, line) => do
    let text := Text.trim line
    if text.isEmpty || text.head? = some '#' then return p
    else if text = sectionSeparator then
      return ⟨p.current.toList ++ p.closed, none⟩
    else
      let first := start + (Text.byteSize line - Text.byteSize (Text.trimLeft line))
      let span : Span := ⟨source, first, first + Text.byteSize text⟩
      match p.current with
      | some s => return { p with current := some { s with entries := s.entries ++ [span] } }
      | none => return { p with current := some (← opened p.closed span text) }

/-- The sections of a text, in the order of the text. -/
def split (source : Source) : Except SectionError (List FileSection) := do
  let p ← (Text.placedLines source.text.toList).foldlM (Progress.step source) {}
  return p.finish

end FileSection

end HybridPlan
