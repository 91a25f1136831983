import HybridPlan.Program.Cip
import HybridPlan.Program.Solution
import HybridPlan.Text.Path

set_option autoImplicit false

/-! # Exchange with the solver's program

The solver is a program of its own. For each call it gets a file with the mathematical program and a
script of commands; it prints a status, and writes its solution to a file. Calls are numbered, so
that the files of different calls do not meet. -/

namespace HybridPlan

variable {α : Type} [Scalar α]

/-- The paths of the files of a call. -/
structure SolverFiles where
  program : String
  solution : String

/-- The files of the call with a number, in a directory. -/
def SolverFiles.of (dir name : String) (call : Nat) : SolverFiles where
  program := Path.join dir s!"{name}_{call}.cip"
  solution := Path.join dir s!"{name}_{call}.sol"

/-- Where a file named relative to a directory can be written. The directory is there, and no other
one is below it. -/
def fileIn (dir name : String) : Except PathFault Path.Place := do
  Path.locate (fun _ => false) (← Path.place dir) name

/-- What one run of the solver's program shows to the outside. -/
structure SolverRun where
  /-- What it prints. -/
  output : String
  /-- What it prints as errors. -/
  errors : String := ""
  exitCode : Nat := 0
  /-- What it writes to the solution file, if it writes one. -/
  solution : Option String := none

/-- The commands for a call. The solver gets a second at least. -/
def SolveParams.script (params : SolveParams α) (files : SolverFiles) : String :=
  let seconds (limit : Nanoseconds) : α := Scalar.max limit.toSeconds Scalar.one
  String.intercalate " " <|
    [ s!"read {files.program}",
      s!"set limits gap {Scalar.text params.gap}",
      s!"set numerics feastol {Scalar.text params.feastol}" ] ++
    (params.timeLimit.map fun l => s!"set limits time {Scalar.text (seconds l)}").toList ++
    ["optimize", s!"write solution {files.solution}", "quit"]

namespace SolverRun

variable (r : SolverRun) (p : Program α)

/-- The solution that the run writes, if it says that there is one. -/
def readSolution : Except SolverError (Option (Solution α)) :=
  match r.solution with
  | some text => Solution.read p text
  | none => .error (.files PathFault.missing.text)

/-- The result of the run: it has to end in success and to announce a status, and an optimal status
needs a solution. -/
def result : Except SolverError (SolveResult α) := do
  if r.exitCode ≠ 0 then
    let errors := String.ofList (Text.trim r.errors.toList)
    throw (.unexpectedStatus s!"scip exited with exit status: {r.exitCode}: {errors}")
  match ← SolverStatus.read r.output with
  | .infeasible => return .infeasible
  | .timeLimit => return .timeout (← r.readSolution p)
  | .optimal | .gapLimit =>
    match ← r.readSolution p with
    | some s => return .optimal s
    | none => throw (.reply .noSolution)

end SolverRun

/-- A call of the solver with all that it leaves behind. -/
structure Exchange (α : Type) where
  /-- The script, if the solver's program was started. -/
  script : Option String
  /-- The files with their contents. -/
  files : List (String × String)
  /-- What the solver's program printed. -/
  output : String
  result : Except SolverError (SolveResult α)

/-- A call of a solver whose program runs as given, or cannot be started because of an error. -/
def Program.exchange (p : Program α) (params : SolveParams α) (dir : String) (call : Nat)
    (run : Except SolverError SolverRun) : Exchange α :=
  let files := SolverFiles.of dir p.name call
  let program := (files.program, p.cip)
  match fileIn dir s!"{p.name}_{call}.cip", run with
  | .error fault, _ =>
    { script := none, files := [], output := "", result := .error (.files fault.text) }
  | .ok _, .error e => { script := none, files := [program], output := "", result := .error e }
  | .ok _, .ok r =>
    { script := some (params.script files)
      files := program :: (r.solution.map (files.solution, ·)).toList
      output := r.output
      result := r.result p }

end HybridPlan
