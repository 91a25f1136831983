import HybridPlan.Domain.Sections

set_option autoImplicit false

/-! # The text of a domain

A domain is written as a file that reads back as the same domain: declarations in normal form,
equations and constraints as they were written. -/

namespace HybridPlan.Domain

variable {α : Type} [Scalar α]

/-- A section with its header and its entries, one on each line. -/
def sectionText (kind : SectionKind) (entries : List String) : String :=
  String.join ((kind.name ++ ":") :: entries |>.map (· ++ "\n"))

/-- The file of a domain, which ends with the reward. -/
def text (d : Domain α) : String :=
  let constraints (cs : List Constraint) := cs.map (·.span.text)
  let separator := "---\n"
  String.intercalate separator
    [ sectionText .constants
        (d.constants.map fun c => s!"{c.name.text} = {Scalar.text c.value}"),
      sectionText .declarations [String.intercalate "\n" (d.vars.map (·.text))],
      sectionText d.mode.equations (d.equations.map (·.span.text)),
      sectionText .initials (constraints d.initials),
      sectionText .instantaneous (constraints d.instantaneous),
      sectionText .temporal (constraints d.temporal),
      sectionText .goals (constraints d.goals),
      s!"{SectionKind.reward.name}:\n{d.reward.span.text}" ]

end HybridPlan.Domain
