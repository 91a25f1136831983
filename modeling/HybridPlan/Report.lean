import HybridPlan.Cut
import HybridPlan.Plan.Basic
import HybridPlan.Text.Csv

set_option autoImplicit false

/-! # Reports of a run

Two tables: the values of all variables in every plan that a solver proposed, and the cuts that were
generated. A global variable has one row in a plan, a state one for each boundary of a stage, and
any other variable one for each stage. -/

namespace HybridPlan

variable {α : Type} [Scalar α]

/-! ## Values -/

/-- The value of a variable in a proposed plan. -/
structure ResultRow (α : Type) where
  name : String
  kind : VarKind
  role : Role
  /-- The stage or boundary; none for a global variable. -/
  stage : Option Nat
  value : α
  iteration : Nat
  horizon : Nat

namespace ResultRow

/-- The row of a value at a stage or boundary, if the name is declared. -/
def of? (d : Domain α) (iteration horizon : Nat) (name : String) (stage : Nat) (value : α) :
    Option (ResultRow α) :=
  (d.declared? name).map fun v =>
    { name, kind := v.kind, role := v.role, stage := if v.isGlobal then none else some stage,
      value, iteration, horizon }

/-- Leaves out the rows of global variables after the first row of each. `seen` holds the names of
the global variables that have a row. -/
def withoutRepeats (seen : List String) : List (ResultRow α) → List (ResultRow α)
  | [] => []
  | r :: rs =>
    if r.stage.isSome then r :: withoutRepeats seen rs
    else if r.name ∈ seen then withoutRepeats seen rs
    else r :: withoutRepeats (r.name :: seen) rs

end ResultRow

/-- The values of a stage with its number, those of the duration last. -/
def Stage.entries (s : Stage α) (dt : String) : List (String × Nat × α) :=
  s.values.map (fun (name, x) => (name, s.index, x)) ++ [(dt, s.index, s.dt)]

/-- The states at the end of a stage, with the number of the boundary. -/
def Stage.finalEntries (s : Stage α) : List (String × Nat × α) :=
  s.finish.map fun (name, x) => (name, s.index + 1, x)

/-- The values of a plan, stage by stage, and the states at its end. -/
def Plan.entries (p : Plan α) : List (String × Nat × α) :=
  p.stages.flatMap (·.entries p.dt) ++ ((p.stages.getLast?).map (·.finalEntries)).getD []

/-- The rows of a plan. -/
def Plan.rows (d : Domain α) (p : Plan α) (iteration : Nat) : List (ResultRow α) :=
  ResultRow.withoutRepeats [] <| p.entries.filterMap fun (name, stage, x) =>
    ResultRow.of? d iteration p.horizon name stage x

/-! ## Cuts -/

/-- A generated cut with the violation that led to it. -/
structure CutRow (α : Type) where
  /-- The last sample before the violation. -/
  intervalStart : α
  intervalEnd : α
  duration : α
  /-- The anchor as a fraction of the duration. -/
  fraction : α
  /-- The anchor. -/
  offset : α
  stage : Nat
  iteration : Nat
  horizon : Nat

def CutRow.of (c : Cut α) (intervalStart intervalEnd : α) (horizon : Nat) : CutRow α where
  intervalStart := intervalStart
  intervalEnd := intervalEnd
  duration := c.duration
  fraction := c.fraction
  offset := c.offset
  stage := c.stage
  iteration := c.iteration
  horizon := horizon

/-! ## Tables -/

def ResultRow.fields (r : ResultRow α) : List String :=
  [r.name, r.kind.name, r.role.name, (r.stage.map toString).getD "", Scalar.text r.value,
    toString r.iteration, toString r.horizon]

/-- The table of values. -/
def resultsTable (rows : List (ResultRow α)) : String :=
  Csv.table ["name", "kind", "role", "stage", "value", "iteration", "horizon"]
    (rows.map (·.fields))

def CutRow.fields (r : CutRow α) : List String :=
  [r.intervalStart, r.intervalEnd, r.duration, r.fraction, r.offset].map Scalar.text ++
    [r.stage, r.iteration, r.horizon].map toString

/-- The table of cuts. -/
def cutsTable (rows : List (CutRow α)) : String :=
  Csv.table ["interval_start", "interval_end", "duration", "coefficient", "new_dt", "stage",
    "iteration", "horizon"] (rows.map (·.fields))

end HybridPlan
