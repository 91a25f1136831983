import HybridPlan.Config
import HybridPlan.Domain.Validity
import HybridPlan.Dynamics.Transitions

set_option autoImplicit false

/-! # Planning problems

A domain together with what is derived from it once for a run: the closed forms of its states, and
its temporal constraints in which next values are replaced by closed forms, so that they speak about
the start of a stage, its decisions and its duration only. -/

namespace HybridPlan

structure Problem (α : Type) [Scalar α] where
  domain : Domain α
  transitions : Transitions
  /-- The temporal constraints without next values. -/
  temporal : List ExprId
  feastol : α
  bigM : α
  epsilon : α

namespace Problem

variable {α : Type} [Scalar α]

/-- The arena of all expressions of the problem. -/
def arena (p : Problem α) : Arena α := p.domain.arena

/-- The problem with another arena, which extends its own. -/
def withArena (p : Problem α) (a : Arena α) : Problem α :=
  { p with domain := { p.domain with arena := a } }

/-- The closed forms as replacements of next values. -/
def nextValues (ts : Transitions) : Substitution :=
  .ofList (ts.map fun (s, e) => (nextName s, e))

/-- The closed forms and the resolved temporal constraints of a domain. -/
def derive (d : Domain α) : Build.Attempt α TransitionError (Transitions × List ExprId) := do
  let transitions ← Transitions.resolve d
  let temporal ← d.temporal.mapM fun c =>
    (Build.substitute (nextValues transitions) c.expr : Build α ExprId)
  return (transitions, temporal)

/-- The problem of a domain. Constants of the domain take precedence over the configuration. If the
dynamics cannot be solved, the error comes with the arena that it speaks about. -/
def ofDomain (d : Domain α) (config : Config α) :
    Except (Arena α × TransitionError) (Problem α) :=
  match (derive d).run.run d.arena with
  | (.error e, arena) => .error (arena, e)
  | (.ok (transitions, temporal), arena) =>
    .ok { domain := { d with arena }, transitions, temporal,
          feastol := config.feastol,
          bigM := (d.constant? bigMName).getD config.bigM,
          epsilon := (d.constant? epsilonName).getD config.epsilon }

end Problem

end HybridPlan
