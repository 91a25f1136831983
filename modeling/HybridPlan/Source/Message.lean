import HybridPlan.Source.Span

set_option autoImplicit false

/-! # Located error messages

A message has a title, annotated places of source texts, and notes. -/

namespace HybridPlan

/-- Whether an annotation points at the fault itself or at something that helps to understand it. -/
inductive Emphasis where
  | primary
  | context
  deriving DecidableEq, Repr

structure Annotation where
  emphasis : Emphasis
  span : Span
  label : String

structure Message where
  title : String
  annotations : List Annotation := []
  notes : List String := []

namespace Message

/-- The message with one more annotation, at the fault. -/
def mark (m : Message) (span : Span) (label : String) : Message :=
  { m with annotations := m.annotations ++ [⟨.primary, span, label⟩] }

/-- The message with one more annotation, at something related. -/
def context (m : Message) (span : Span) (label : String) : Message :=
  { m with annotations := m.annotations ++ [⟨.context, span, label⟩] }

/-- The message with one more note. -/
def note (m : Message) (text : String) : Message := { m with notes := m.notes ++ [text] }

/-- Ranges of this many bytes or more are not repeated in the title of a message. -/
def quoteLimit : Nat := 40

/-- A message about one place; its title quotes the place if that is short. -/
def about (span : Span) (fault : String) : Message :=
  let title := if span.size < quoteLimit then fault ++ ": " ++ span.text else fault
  ({ title } : Message).mark span fault

/-- The message about one place, if it can be made: to quote a short place, it has to be a range of
its source. -/
def about? (span : Span) (fault : String) : Option Message :=
  if span.size < quoteLimit then
    span.text?.map fun text => ({ title := fault ++ ": " ++ text } : Message).mark span fault
  else some (({ title := fault } : Message).mark span fault)

/-- Where the fault is, as `file:line:column` with the column counted from 1 in characters, if the
first annotated source is a file. -/
def location? (m : Message) : Option String := do
  let a ← m.annotations.head?
  let file ← a.span.source.file
  let (before, _) := Place.lineAround a.span.source.text.toList a.span.start
  return s!"{file}:{a.span.line}:{before.length + 1}"

end Message

end HybridPlan
