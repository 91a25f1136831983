import HybridPlan.Scalar

set_option autoImplicit false

/-! # Plans

A plan is a sequence of stages. Each stage has a duration, the values decided in it, and the states
at its start and at its end. -/

namespace HybridPlan

/-- Values by name, in a fixed order. -/
abbrev Values (α : Type) := List (String × α)

/-- The value of the first entry of a name. -/
def Values.get? {α : Type} (vs : Values α) (name : String) : Option α :=
  (vs.find? (·.1 = name)).map (·.2)

structure Stage (α : Type) where
  index : Nat
  /-- The actions other than the duration, global ones included. -/
  actions : Values α
  auxiliaries : Values α
  /-- The duration. -/
  dt : α
  /-- The states at the start. -/
  start : Values α
  /-- The states at the end. -/
  finish : Values α

/-- The values at the start of a stage: states, actions and auxiliary variables. -/
def Stage.values {α : Type} (s : Stage α) : Values α := s.start ++ s.actions ++ s.auxiliaries

/-- The value of a name at the start of a stage. -/
def Stage.value? {α : Type} (s : Stage α) (name : String) : Option α := s.values.get? name

structure Plan (α : Type) where
  horizon : Nat
  stages : List (Stage α)
  /-- What the solver reports as earned. -/
  reward : α
  /-- The name of the duration. -/
  dt : String

def Plan.totalTime {α : Type} [Scalar α] (p : Plan α) : α := Scalar.sum (p.stages.map (·.dt))

end HybridPlan
