import HybridPlan.Domain.Validity
import HybridPlan.Expr.Parser

set_option autoImplicit false

/-! # Reading a domain

A text is split into sections, the sections are read in a fixed order, and the domain that results
is checked. The first fault in this order is reported. -/

namespace HybridPlan.Domain

variable {α : Type} [Scalar α]

/-- A step of the reading, which fills the arena of the domain. -/
abbrev Reading (α : Type) [Scalar α] := Build.Attempt α DomainError

/-- The section of a kind, if the text has one. -/
def section? (sections : List FileSection) (kind : SectionKind) : Option FileSection :=
  sections.find? (·.kind = kind)

/-- The entries of a section; none if the section is missing. -/
def entries (sections : List FileSection) (kind : SectionKind) : List Span :=
  ((section? sections kind).map (·.entries)).getD []

/-- Parses an entry. -/
def readEntry (entry : Span) : Reading α Constraint := do
  let e ← (Build.parseRange entry.source entry.start entry.stop).adapt (.parse entry.source)
  return ⟨e, entry⟩

def readEntries (sections : List FileSection) (kind : SectionKind) : Reading α (List Constraint) :=
  (entries sections kind).mapM readEntry

/-- The constants of the text, and after them those of the run that the text does not define. -/
def withDefaults (settings : ReadSettings α) (constants : List (Constant α)) : List (Constant α) :=
  let defaults : List (Constant α) :=
    [⟨⟨bigMName, none⟩, settings.bigM⟩, ⟨⟨epsilonName, none⟩, settings.epsilon⟩]
  constants ++ defaults.filter fun c => !constants.any (·.name.text = c.name.text)

/-- The one reward. -/
def onlyReward : List Constraint → Except DomainError Constraint
  | [] => .error .missingReward
  | [reward] => .ok reward
  | _ :: second :: _ => .error (.severalRewards second.span)

/-- The domain that sections describe, before its parts are checked against each other, and the
entries that have to be its equations. -/
def readParts (settings : ReadSettings α) (sections : List FileSection) :
    Reading α (Domain α × List Constraint) := do
  let constants ← (entries sections .constants).mapM fun line =>
    ((Declaration.readConstant settings line).mapError .declaration : Except DomainError _)
  let some declared := section? sections .declarations | throw .missingVariables
  let vars ← declared.entries.mapM fun line =>
    ((Declaration.readVariable line).mapError .declaration : Except DomainError _)
  if let some other := section? sections settings.mode.otherEquations then
    throw (.otherMode other.header settings.mode)
  let equations ← readEntries sections settings.mode.equations
  let initials ← readEntries sections .initials
  let instantaneous ← readEntries sections .instantaneous
  let temporal ← readEntries sections .temporal
  let goals ← readEntries sections .goals
  let rewards ← readEntries sections .reward
  let reward ← (onlyReward rewards : Except DomainError _)
  let d : Domain α :=
    { arena := ← get, constants := withDefaults settings constants, vars,
      dt := settings.dt, mode := settings.mode, equations := [],
      initials, instantaneous, temporal, goals, reward }
  return (d, equations)

/-- The domain with its equations, if it is well-formed. -/
def validate (d : Domain α) (entries : List Constraint) : Except DomainError (Domain α) := do
  d.checkDeclarations
  let equations ← entries.mapM d.equation
  let d := { d with equations }
  d.checkEquations
  d.checkExpressions
  return d

/-- The domain that a text describes. -/
def read (source : Source) (settings : ReadSettings α) : Except DomainError (Domain α) := do
  let sections ← (FileSection.split source).mapError .sections
  let (d, equations) ← ((readParts settings sections).run.run {}).1
  d.validate equations

end HybridPlan.Domain
