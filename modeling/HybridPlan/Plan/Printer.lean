import HybridPlan.Plan.Basic
import HybridPlan.Scalar.Binary64

set_option autoImplicit false

/-! # The text of a plan

The actions of each stage in the order of their names, then its duration, and at the end what the
plan earns and how long it takes. Numbers have three places. -/

namespace HybridPlan

/-- A number in a plan. -/
def Plan.number (x : Binary64) : String := x.fixedText 3

/-- The line of one action. -/
def Stage.actionLine (s : Stage Binary64) (name : String) (value : Binary64) : String :=
  s!"{name} at step {s.index} by value {Plan.number value}.\n"

/-- The lines of a stage, with an empty line behind them. -/
def Stage.text (s : Stage Binary64) (dt : String) : String :=
  let actions := s.actions.mergeSort fun a b => decide (a.1 ≤ b.1)
  String.join (actions.map fun (name, value) => s.actionLine name value) ++
    s.actionLine dt s.dt ++ "\n"

def Plan.text (p : Plan Binary64) : String :=
  String.join (p.stages.map (Stage.text · p.dt)) ++
    s!"Total reward: {Plan.number p.reward}\nTotal time: {Plan.number p.totalTime}"

end HybridPlan
