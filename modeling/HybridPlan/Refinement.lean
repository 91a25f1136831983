import HybridPlan.Encoding
import HybridPlan.Log
import HybridPlan.Report
import HybridPlan.Simulation

set_option autoImplicit false

/-! # Planning by refinement

The search for a plan goes in turns. Each turn encodes the problem for the current number of stages
with all cuts generated so far, lets a solver propose a plan, and simulates it. A plan without
violations is the result. Otherwise the violations become cuts, and the next iteration begins. If
there is no proposal, the next attempt has one stage more and starts without cuts, since those
speak about the stages of the attempt before.

A search does not call the solver itself: it stops where it needs an answer, and goes on when the
answer is given. `Search.request` is the part of a turn before the call, `Search.absorb` the part
behind it. -/

namespace HybridPlan

variable {α : Type} [Scalar α]

/-! ## The record of a search -/

/-- The parts of a turn. -/
inductive Phase where
  | encoding
  | solving
  | simulating
  | generating
  deriving DecidableEq, Repr

namespace Phase

def all : List Phase := [encoding, solving, simulating, generating]

def name : Phase → String
  | encoding => "encoding"
  | solving => "solving"
  | simulating => "simulating"
  | generating => "generating"

end Phase

/-- An iteration in which a plan was proposed. -/
structure IterationRecord (α : Type) where
  horizon : Nat
  iteration : Nat
  /-- The number of cuts in the program that was solved. -/
  accumulated : Nat
  /-- The number of violations of the plan. -/
  violations : Nat
  objective : α

/-- What a search asks of the solver. -/
structure Request (α : Type) [Scalar α] where
  encoded : EncodedProgram α
  params : SolveParams α

/-- A call of the solver. -/
structure CallRecord (α : Type) [Scalar α] where
  horizon : Nat
  iteration : Nat
  /-- The cuts in the program. -/
  cuts : List (Cut α)
  request : Request α
  answer : Except SolverError (SolveResult α)

/-- A planner for a problem, with all that its searches have gathered. -/
structure Planner (α : Type) [Scalar α] where
  problem : Problem α
  config : Config α
  bisectionSteps : Nat
  store : CutStore α := {}
  history : List (IterationRecord α) := []
  newCuts : List (CutRow α) := []
  /-- The values of the proposed plans; kept only if the reports are written. -/
  results : List (ResultRow α) := []
  calls : List (CallRecord α) := []
  log : List LogLine := []

inductive SearchError (α : Type) [Scalar α] where
  | encoding (a : Arena α) (e : EncodingError α)
  | solver (e : SolverError)
  /-- The largest horizon is exceeded, or the time is up. -/
  | noPlanFound (horizon : Nat) (elapsed : Nanoseconds)
  /-- All violations of a plan are excluded by cuts that the plan was to respect. -/
  | stalled (horizon iteration : Nat)

def SearchError.message : SearchError α → String
  | encoding a e => e.message a
  | solver e => e.message
  | noPlanFound horizon elapsed =>
    s!"no plan found (last horizon: {horizon}, elapsed: {Nanoseconds.secondsText elapsed}s)"
  | stalled horizon iteration =>
    s!"no progress at horizon {horizon}, iteration {iteration}: " ++
      "all violations are already constrained"

/-- How a search ended, and the planner after it. -/
structure Outcome (α : Type) [Scalar α] where
  planner : Planner α
  result : Except (SearchError α) (Plan α)

/-- A search in progress. -/
structure Search (α : Type) [Scalar α] where
  planner : Planner α
  horizon : Nat
  iteration : Nat

/-- The search that a planner begins with. The cuts that are stored stay. -/
def Planner.begin (p : Planner α) : Search α where
  planner := p
  horizon := max p.config.horizon 1
  iteration := 0

namespace Planner

variable (p : Planner α)

def simulationParams : SimulationParams α where
  epsilon := p.problem.epsilon
  tolerance := p.config.tolerance
  bisectionSteps := p.bisectionSteps

def note (level : LogLevel) (text : String) : Planner α :=
  { p with log := p.log ++ [⟨level, text⟩] }

def info (text : String) : Planner α := p.note .info text

def warn (text : String) : Planner α := p.note .warn text

end Planner

namespace Search

variable (s : Search α)

/-- The search with another planner. -/
def update (f : Planner α → Planner α) : Search α := { s with planner := f s.planner }

/-- The end of the search. -/
def stop {ι : Type} (result : Except (SearchError α) (Plan α)) : Except (Outcome α) ι :=
  .error ⟨s.planner, result⟩

/-- Notes that a part of a turn begins. -/
def enter (phase : Phase) : Search α :=
  s.update (·.note .debug s!"{phase.name} at horizon {s.horizon}, iteration {s.iteration}")

/-! ## Before a call of the solver -/

/-- A deadline so many seconds after the start, `2 ^ 63`, lies beyond all clocks. -/
def endOfTime : Nat := 9223372036854775808

/-- The time that a search may take; none if it ends beyond all clocks. -/
def deadline? (limit : Option Nanoseconds) : Option Nanoseconds :=
  limit.filter fun limit => limit / Nanoseconds.perSecond < endOfTime

/-- The time that is left, or nothing if the time is up. No limit leaves no limit. -/
def remaining? (limit : Option Nanoseconds) (elapsed : Nanoseconds) :
    Option (Option Nanoseconds) :=
  match deadline? limit with
  | none => some none
  | some deadline => if deadline ≤ elapsed then none else some (some (deadline - elapsed))

/-- Whether the search has come to more stages than it may try. -/
def isTooLong : Bool :=
  match s.planner.config.maxHorizon with
  | some limit => limit < s.horizon
  | none => false

/-- Encodes the problem at the current horizon with the stored cuts. `elapsed` is the time since the
start of the search. -/
def request (elapsed : Nanoseconds) : Except (Outcome α) (Search α × Request α) :=
  if s.isTooLong then s.stop (.error (.noPlanFound (s.horizon - 1) elapsed))
  else match remaining? s.planner.config.timeLimit elapsed with
    | none => s.stop (.error (.noPlanFound s.horizon elapsed))
    | some remaining =>
      let p := s.planner
      let s := s.update (·.info (s!"Horizon {s.horizon}, iteration {s.iteration}: " ++
        s!"{p.store.size} generated constraints"))
      let s := s.enter .encoding
      match encode p.problem s.horizon p.store with
      | .error e => s.stop (.error (.encoding p.problem.arena e))
      | .ok encoded =>
        .ok (s.enter .solving, ⟨encoded, p.config.solveParams remaining⟩)

/-! ## Behind a call of the solver -/

/-- Keeps a call. -/
def keepCall (request : Request α) (answer : Except SolverError (SolveResult α)) : Search α :=
  s.update fun p => { p with
    calls := p.calls ++ [⟨s.horizon, s.iteration, p.store.items.toList, request, answer⟩] }

/-- Goes on to one more stage, without cuts. -/
def lengthen : Search α where
  planner := { s.planner.info s!"No solution at horizon {s.horizon}" with store := {} }
  horizon := s.horizon + 1
  iteration := 0

/-- Keeps the values of a proposed plan if they are wanted. -/
def keepResults (plan : Plan α) : Search α :=
  s.update fun p =>
    if p.config.saveReports then
      { p with results := p.results ++ plan.rows p.problem.domain s.iteration }
    else p

/-- Simulates a proposed plan, and keeps a record of the iteration. -/
def simulate (solution : Solution α) (plan : Plan α) : List (Violation α) × Search α :=
  let s := s.enter .simulating
  let p := s.planner
  let violations := plan.violations p.problem p.simulationParams
  let warnings := (plan.ambiguities p.problem p.simulationParams).map fun a =>
    LogLine.mk .warn (a.warning p.problem)
  let record : IterationRecord α :=
    { horizon := s.horizon, iteration := s.iteration, accumulated := p.store.size,
      violations := violations.length, objective := solution.objective }
  (violations, s.update fun p =>
    { p with log := p.log ++ warnings, history := p.history ++ [record] })

/-- Generates the cut of a violation, unless it is stored. -/
def exclude (p : Planner α) (horizon iteration : Nat) (v : Violation α) : Planner α :=
  let (isNew, store, problem) := p.store.add p.problem v p.config.offsetMode iteration
  let rows := if isNew then
      store.items.back?.toList.map fun c => CutRow.of c v.intervalStart v.intervalEnd horizon
    else []
  { p with store, problem, newCuts := p.newCuts ++ rows }

/-- Generates the cuts of violations, and goes on to the next iteration if there is a new one. -/
def refine (violations : List (Violation α)) : Except (Outcome α) (Search α) :=
  let s := s.enter .generating
  let before := s.planner.store.size
  let s := s.update fun p => violations.foldl (exclude · s.horizon s.iteration ·) p
  let added := s.planner.store.size - before
  let s := s.update (·.info s!"{violations.length} violation(s), {added} new constraint(s)")
  if added = 0 then s.stop (.error (.stalled s.horizon s.iteration))
  else .ok { s with iteration := s.iteration + 1 }

/-- Takes a proposal of the solver: the result if it has no violations, a refinement otherwise. -/
def consider (request : Request α) (solution : Solution α) : Except (Outcome α) (Search α) :=
  let plan := request.encoded.extract s.planner.problem solution
  let (violations, s) := (s.keepResults plan).simulate solution plan
  if violations.isEmpty then
    let s := s.update (·.info
      s!"Plan of horizon {s.horizon} verified after {s.iteration} iteration(s)")
    s.stop (.ok plan)
  else s.refine violations

/-- Takes the answer of the solver to a request. -/
def absorb (request : Request α) (answer : Except SolverError (SolveResult α)) :
    Except (Outcome α) (Search α) :=
  let s := s.keepCall request answer
  match answer with
  | .error e => s.stop (.error (.solver e))
  | .ok (.optimal solution) => s.consider request solution
  | .ok (.timeout (some solution)) =>
    (s.update (·.warn "Time limit reached, checking the best solution found")).consider
      request solution
  | .ok (.timeout none) | .ok .infeasible => .ok s.lengthen

/-! ## Runs -/

/-- What a search gets from outside in a turn. -/
structure Turn (α : Type) [Scalar α] where
  /-- The time since the start of the search, when the turn begins. -/
  elapsed : Nanoseconds
  /-- The solver. -/
  solve : SolverCall α

/-- One turn of the search. -/
def turn (t : Turn α) : Except (Outcome α) (Search α) := do
  let (s, request) ← s.request t.elapsed
  s.absorb request (t.solve request.encoded.program request.params)

/-- Runs the search for the given turns, or until it ends. -/
def run (turns : List (Turn α)) : Except (Outcome α) (Search α) := turns.foldlM turn s

/-- A search that goes on goes on from where it stopped. -/
theorem run_append (ts us : List (Turn α)) : s.run (ts ++ us) = s.run ts >>= (·.run us) := by
  simp [run, List.foldlM_append]

end Search

end HybridPlan
