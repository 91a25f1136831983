import HybridPlan.CommandLine
import HybridPlan.Loading
import HybridPlan.Plan.Printer
import HybridPlan.Refinement
import HybridPlan.Solver.Exchange

set_option autoImplicit false

/-! # A whole run

A run takes its parameters from the command line, loads its problem, searches for a plan, writes the
reports if they are wanted, and prints the plan. A run that finds no plan in time, or within the
largest horizon, says so and is no failure. -/

namespace HybridPlan

inductive RunError where
  | config (e : ConfigError)
  | load (e : LoadError Binary64)
  | solver (e : SolverError)
  | search (e : SearchError Binary64)
  /-- A report cannot be written. -/
  | report (reason : String)

def RunError.message : RunError → String
  | config e => e.message
  | load e => e.message.title
  | solver e => e.message
  | search e => e.message
  | report reason => reason

namespace Session

/-! ## Start and end of a run -/

/-- The planner of a run. -/
def planner (config : Config Binary64) (files : Files) (bisectionSteps : Nat) :
    Except RunError (Planner Binary64) := do
  let problem ← (Problem.load config files.withBundled).mapError .load
  return { problem, config, bisectionSteps }

/-- The reports of a run with their paths, if they are wanted. -/
def reports (p : Planner Binary64) : List (String × String) :=
  if p.config.saveReports then
    [(p.config.resultsFile, resultsTable p.results), (p.config.newCutsFile, cutsTable p.newCuts)]
  else []

/-- What a run prints at its end. -/
def conclusion (result : Except (SearchError Binary64) (Plan Binary64)) : Except RunError String :=
  match result with
  | .ok plan => .ok (plan.text ++ "\n")
  | .error (.noPlanFound _ _) => .ok "No plan found\n"
  | .error e => .error (.search e)

/-! ## A run with known surroundings -/

/-- What a run finds in its surroundings. -/
structure Surroundings where
  files : Files
  /-- The solver's program that the system finds. -/
  solver : Option String
  /-- Whether a program can be started. -/
  canStart : String → Bool
  /-- What the runs of the solver's program show, in order. -/
  runs : List SolverRun
  /-- The directory for the files of the calls, unless they are kept. -/
  temporaryDir : String
  bisectionSteps : Nat

/-- What a run leaves behind. -/
structure Trace where
  output : String := ""
  exchanges : List (Exchange Binary64) := []
  written : List (String × String) := []
  error : Option RunError := none

/-- The solver's program of a run. -/
def solverOf (config : Config Binary64) (w : Surroundings) : Except SolverError String :=
  match config.solver.or w.solver with
  | some path => .ok path
  | none => .error (.notFound "scip: cannot find binary path")

/-- What the calls of the solver meet: its runs, and when they are over a run that shows nothing; or
the reason why it cannot be started. -/
def runsOf (solver : String) (w : Surroundings) : List (Except SolverError SolverRun) :=
  let silent : SolverRun := { output := "" }
  if w.canStart solver then (w.runs ++ [silent]).map .ok
  else [.error (.notFound s!"{solver}: {PathFault.missing.text}")]

/-- A call of the solver with the given number. -/
def exchange (config : Config Binary64) (w : Surroundings) (call : Nat)
    (run : Except SolverError SolverRun) (p : Program Binary64) (params : SolveParams Binary64) :
    Exchange Binary64 :=
  p.exchange params (config.keepFiles.getD w.temporaryDir) call run

/-- Writes reports in order into directories that are made if need be, up to the first one whose path
leads nowhere. -/
def write : List (String × String) → List (String × String) × Except PathFault Unit
  | [] => ([], .ok ())
  | (path, text) :: rest =>
    match Path.place path with
    | .error fault => ([], .error fault)
    | .ok _ =>
      let (written, result) := write rest
      ((path, text) :: written, result)

/-- What a finished search leaves behind. A report that cannot be written hides how it ended. -/
def close (config : Config Binary64) (w : Surroundings) (runs : List (Except SolverError SolverRun))
    (o : Outcome Binary64) : Trace :=
  let exchanges := (o.planner.calls.zip runs).mapIdx fun i (c, run) =>
    exchange config w (i + 1) run c.request.encoded.program c.request.params
  let shown := if config.showOutput then
      String.join ((exchanges.filter (·.script.isSome)).map (·.output ++ "\n"))
    else ""
  let (written, writing) := write (reports o.planner)
  let trace : Trace := { output := shown, exchanges, written }
  match writing.mapError (.report ·.text), conclusion o.result with
  | .error e, _ | .ok _, .error e => { trace with error := some e }
  | .ok _, .ok text => { trace with output := shown ++ text }

/-- Runs a search to its end. A solver that shows nothing ends every search, so the last run does it
at the latest. -/
def search (config : Config Binary64) (w : Surroundings) (solver : String) (p : Planner Binary64) :
    Trace :=
  let runs := runsOf solver w
  let turns : List (Search.Turn Binary64) := runs.mapIdx fun i run =>
    { elapsed := i + 1
      solve := fun p params => (exchange config w (i + 1) run p params).result }
  match p.begin.run turns with
  | .ok _ => {}
  | .error o => close config w runs o

/-- Runs the program with the given command line. -/
def run (c : CommandLine) (w : Surroundings) : Trace :=
  let start : Except RunError Trace := do
    let config ← c.toConfig.mapError .config
    let p ← planner config w.files w.bisectionSteps
    let solver ← (solverOf config w).mapError .solver
    return search config w solver p
  match start with
  | .ok trace => trace
  | .error e => { error := some e }

end Session

end HybridPlan
