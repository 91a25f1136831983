import HybridPlan.Cut
import HybridPlan.Expr.Eval
import HybridPlan.Plan.Basic

set_option autoImplicit false

/-! # Simulation of plans

A solver sees a temporal constraint at the end of each stage only. The closed forms give the states
at every time of a stage, so the constraints of a given plan can be checked on a grid of times. A
constraint that cannot be evaluated somewhere on a stage counts as satisfied there, and is reported
as ambiguous. -/

namespace HybridPlan

variable {α : Type} [Scalar α]

structure SimulationParams (α : Type) where
  /-- The step of the grid. -/
  epsilon : α
  /-- The residual above which a constraint is violated. -/
  tolerance : α
  /-- How often the interval that holds the first crossing is halved. -/
  bisectionSteps : Nat

/-! ## The grid -/

/-- A sample closer to the end of a stage than this is left to the end itself. -/
def sampleSlack : α := Scalar.ofDecimal 1 (-12)

/-- The time of a sample. -/
def sampleTime (epsilon : α) (k : Nat) : α := Scalar.nat k * epsilon

/-- Whether a sample comes too late to be one before the end of a stage. -/
def isPast (epsilon duration : α) (k : Nat) : Bool :=
  Scalar.le (duration - sampleSlack) (sampleTime epsilon k)

/-- The number of the first sample that comes too late, among `n` samples from number `k` on. -/
def firstPast? (epsilon duration : α) : Nat → Nat → Option Nat
  | 0, _ => none
  | n + 1, k => if isPast epsilon duration k then some k else firstPast? epsilon duration n (k + 1)

/-- The largest number of a sample, `2 ^ 31 - 1`. -/
def maxSample : Nat := 2147483647

/-- How many samples come before the end of a stage, if they can be numbered. -/
def sampleCount? (epsilon duration : α) : Option Nat :=
  (firstPast? epsilon duration maxSample 1).map (· - 1)

/-- The times at which a stage is checked: the multiples of the step before its end, and its end.
There are no multiples of a step that is not positive, and a grid too fine to be numbered consists
of the end alone. -/
def sampleOffsets (epsilon duration : α) : List α :=
  let count := if Scalar.lt Scalar.zero epsilon then (sampleCount? epsilon duration).getD 0 else 0
  (List.range' 1 count).map (sampleTime epsilon) ++ [duration]

/-! ## Residuals -/

/-- By how much a comparison fails, relative to the compared numbers; negative or zero if it
holds. -/
def Comparison.residual (op : Comparison) (x y : α) : α :=
  let gap := match op with
    | .lt | .le => x - y
    | .gt | .ge => y - x
    | .eq => Scalar.abs (x - y)
  gap / Scalar.max (Scalar.max Scalar.one (Scalar.abs x)) (Scalar.abs y)

/-- Where the choice between residuals starts: a conjunction is as bad as its worst part, a
disjunction as good as its best. -/
def Connective.unit : Connective → α
  | .and => -Scalar.infinity
  | .or => Scalar.infinity

def Connective.choose : Connective → α → α → α
  | .and => Scalar.max
  | .or => Scalar.min

namespace Arena

variable (a : Arena α) (v : Valuation α)

/-- The choice between the residuals of parts; the first undefined one decides. -/
def joinResiduals (c : Connective) (residual : ExprId → Evaluation α α) (r : α) :
    List ExprId → Evaluation α α
  | [] => pure r
  | e :: es => do
    let s ← residual e
    if Scalar.isUndefined s then return s
    joinResiduals c residual (c.choose r s) es

/-- The residual of a constraint at most the given number of levels deep. -/
def residualBelow : Nat → ExprId → Evaluation α α
  | 0, _ => pure Scalar.zero
  | n + 1, e =>
    match a.node e with
    | .compare op x y => do
      let x ← a.evalWith v x
      let y ← a.evalWith v y
      return op.residual x y
    | .join c items => joinResiduals c (residualBelow n) c.unit items
    | _ => throw (.notNumeric e)

/-- By how much a constraint fails; negative or zero if it holds, strict comparisons being read as
weak ones. -/
def residual (e : ExprId) : Except EvalError α := ((a.residualBelow v (e + 1) e).run.run {}).1

end Arena

/-! ## Stages -/

/-- Why a constraint cannot be checked. -/
inductive Undecided (α : Type) where
  | notFinite (residual : α)
  | evaluation (e : EvalError)

def Undecided.text (a : Arena α) : Undecided α → String
  | notFinite residual => s!"residual is {Scalar.text residual}"
  | evaluation e => e.message a

/-- A temporal constraint that cannot be checked at some time of a stage. -/
structure Ambiguity (α : Type) where
  stage : Nat
  /-- The position of the constraint among the temporal constraints. -/
  constraint : Nat
  offset : α
  reason : Undecided α

def Ambiguity.warning (p : Problem α) (a : Ambiguity α) : String :=
  let source := (p.domain.temporal[a.constraint]?.map (·.span.text)).getD ""
  s!"stage {a.stage}: `{source}` treated as satisfied, ambiguous residual at offset " ++
    s!"{Scalar.text a.offset}: {a.reason.text p.arena}"

namespace Stage

variable (p : Problem α) (s : Stage α)

/-- The values of names if the stage has lasted for the given time: the values at its start, the
constants, and the tolerance. -/
def valuation (offset : α) : Valuation α := fun name =>
  if name = p.domain.dt then some offset
  else match s.value? name with
    | some x => some x
    | none => match p.domain.resolve? name with
      | some (.constant x) => some x
      | some .tolerance => some p.feastol
      | _ => none

/-- The residual of a resolved constraint at a time, if it is a finite number. -/
def residualAt (e : ExprId) (offset : α) : Except (Undecided α) α :=
  match p.arena.residual (s.valuation p offset) e with
  | .ok r => if Scalar.isFinite r then .ok r else .error (.notFinite r)
  | .error e => .error (.evaluation e)

/-- The states at a time, as far as their closed forms have values. -/
def stateAt (offset : α) : Values α :=
  p.transitions.filterMap fun (state, closed) =>
    match p.arena.eval (s.valuation p offset) closed with
    | .ok x => some (state, x)
    | .error _ => none

end Stage

/-- Halves an interval at whose end a constraint is violated, keeping its end violated, until the
constraint cannot be decided in the middle. -/
def bisect (residual : α → Except (Undecided α) α) (violated : α → Bool) :
    Nat → α → α → α × α
  | 0, lo, hi => (lo, hi)
  | n + 1, lo, hi =>
    let mid := (lo + hi) / Scalar.nat 2
    match residual mid with
    | .ok r => if violated r then bisect residual violated n lo mid
      else bisect residual violated n mid hi
    | .error _ => (lo, hi)

/-! ## Checks -/

/-- What a check of a constraint on a stage finds. -/
inductive Finding (α : Type) where
  | satisfied
  | violated (v : Violation α)
  | ambiguous (a : Ambiguity α)

def Finding.violation? : Finding α → Option (Violation α)
  | violated v => some v
  | _ => none

def Finding.ambiguity? : Finding α → Option (Ambiguity α)
  | ambiguous a => some a
  | _ => none

namespace Stage

variable (p : Problem α) (params : SimulationParams α) (s : Stage α)

/-- Whether a residual is too large. -/
def exceeds (r : α) : Bool := Scalar.lt params.tolerance r

/-- The residuals of a constraint at samples, or the first sample without one. -/
def residualsAt (e : ExprId) : List α → Except (α × Undecided α) (List (α × α)) :=
  List.mapM fun offset =>
    match s.residualAt p e offset with
    | .ok r => .ok (offset, r)
    | .error reason => .error (offset, reason)

/-- The violation that samples with their residuals show. -/
def violationOf? (constraint : Nat) (e : ExprId) (residuals : List (α × α)) :
    Option (Violation α) :=
  let holds (x : α × α) := !exceeds params x.2
  match residuals.dropWhile holds with
  | [] => none
  | (offset, residual) :: later =>
    let before := residuals.takeWhile holds
    let during := later.takeWhile fun x => exceeds params x.2
    let intervalStart := (before.getLast?.map (·.1)).getD Scalar.zero
    let (_, crossing) := bisect (s.residualAt p e) (exceeds params) params.bisectionSteps
      intervalStart offset
    some
      { stage := s.index, constraint, offset, intervalStart, crossing,
        intervalEnd := (during.getLast?.map (·.1)).getD offset,
        duration := s.dt, residual, state := s.stateAt p offset }

/-- Checks a constraint at samples of the stage. -/
def check (samples : List α) (constraint : Nat) (e : ExprId) : Finding α :=
  match s.residualsAt p e samples with
  | .error (offset, reason) => .ambiguous { stage := s.index, constraint, offset, reason }
  | .ok residuals =>
    match s.violationOf? p params constraint e residuals with
    | some v => .violated v
    | none => .satisfied

/-- Checks all temporal constraints on the stage. A stage that takes no time is not checked. -/
def findings : List (Finding α) :=
  if Scalar.lt Scalar.zero s.dt then
    let samples := sampleOffsets params.epsilon s.dt
    p.temporal.mapIdx (s.check p params samples)
  else []

end Stage

namespace Plan

variable (p : Problem α) (params : SimulationParams α) (plan : Plan α)

/-- Checks all temporal constraints on all stages. -/
def findings : List (Finding α) := plan.stages.flatMap (·.findings p params)

def violations : List (Violation α) := (plan.findings p params).filterMap Finding.violation?

def ambiguities : List (Ambiguity α) := (plan.findings p params).filterMap Finding.ambiguity?

end Plan

end HybridPlan
