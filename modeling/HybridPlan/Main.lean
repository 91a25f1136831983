import HybridPlan.Knob
import HybridPlan.Session

set_option autoImplicit false

/-! # The program

The outer layer: reads and writes files, keeps the time, and shows the log on standard error. The
solver's program runs beside this one. For each call its command line is shown on standard error;
what it prints is read from standard input up to its status, and then its solution file is read. -/

namespace HybridPlan.Cli

def showLog (limit : LogLevel) (lines : List LogLine) : IO Unit := do
  let stderr ← IO.getStderr
  for l in lines do
    if limit.isShown l.level then stderr.putStrLn s!"{l.level.name} {l.text}"

/-- The value of a knob, read from its environment variable. -/
def readKnob {τ : Type} (limit : LogLevel) (k : Knob τ) : IO (Option τ) := do
  let (value, _, warnings) := k.get (← IO.getEnv k.name)
  showLog limit warnings
  return value.toOption

/-- What is at a path. -/
def readPath (path : String) : IO (Option (Except ReadFault String)) := do
  try
    let bytes ← IO.FS.readBinFile path
    match String.fromUTF8? bytes with
    | some text => return some (.ok text)
    | none => return some (.error .notUtf8)
  catch
    | .noFileOrDirectory _ _ _ => return none
    | e => return some (.error (.other (toString e)))

/-- What is at some paths. -/
def readPaths (paths : List String) : IO Files := do
  let found ← paths.mapM fun path => return (path, ← readPath path)
  return fun path => (found.find? (·.1 = path)).bind (·.2)

/-- Writes a file; a directory is made for it if need be. If that fails, the result is the reason. -/
def writeFile (dir path text : String) : IO (Except String Unit) := do
  try
    unless dir.isEmpty do IO.FS.createDirAll dir
    IO.FS.writeFile path text
    return .ok ()
  catch e => return .error (toString e)

/-- Reads the solver's output up to its status. -/
partial def readOutput (output : String) : IO String := do
  let line ← (← IO.getStdin).getLine
  let output := output ++ line
  match SolverStatus.read output with
  | .error (.reply .noStatusLine) => if line.isEmpty then return output else readOutput output
  | _ => return output

/-- Calls the solver. -/
def callSolver (config : Config Binary64) (call : Nat) (request : Request Binary64) :
    IO (Except SolverError (SolveResult Binary64)) := do
  let program := request.encoded.program
  let dir := config.keepFiles.getD config.outputDir
  let files := SolverFiles.of dir program.name call
  if let .error reason ← writeFile dir files.program program.cip then
    return .error (.files reason)
  let executable := config.solver.getD "scip"
  (← IO.getStderr).putStrLn s!"{executable} -c \"{request.params.script files}\""
  let output ← readOutput ""
  if config.showOutput then IO.println output
  let solution := (← readPath files.solution).bind (·.toOption)
  let run : SolverRun := { output, solution }
  return run.result program

/-- Runs a search to its end. -/
partial def search (level : LogLevel) (printPrograms : Bool) (start : Nat) (call : Nat)
    (s : Search Binary64) : IO (Outcome Binary64) := do
  let shown := s.planner.log.length
  let stop (o : Outcome Binary64) : IO (Outcome Binary64) := do
    showLog level (o.planner.log.drop shown)
    return o
  match s.request ((← IO.monoNanosNow) - start) with
  | .error o => stop o
  | .ok (s, request) =>
    if printPrograms then IO.println request.encoded.program.cip
    let answer ← callSolver s.planner.config call request
    match s.absorb request answer with
    | .error o => stop o
    | .ok s => do
      showLog level (s.planner.log.drop shown)
      search level printPrograms start (call + 1) s

/-- Runs the program with a command line; the result is the error that ends it, if any. -/
def run (c : CommandLine) : IO (Option RunError) := do
  let bisectionSteps := (← readKnob c.logLevel Knob.bisectionSteps).getD 0
  let printPrograms := (← readKnob c.logLevel Knob.printProgram).getD false
  match c.toConfig with
  | .error e => return some (.config e)
  | .ok config =>
    let files ← readPaths config.domainFileCandidates
    match Session.planner config files bisectionSteps with
    | .error e => return some e
    | .ok p =>
      let o ← search c.logLevel printPrograms (← IO.monoNanosNow) 1 p.begin
      for (path, text) in Session.reports o.planner do
        if let .error reason ← writeFile (Path.directory path) path text then
          return some (.report reason)
        showLog c.logLevel [⟨.info, s!"Wrote {path}"⟩]
      match Session.conclusion o.result with
      | .error e => return some e
      | .ok text => do
        IO.print text
        return none

end HybridPlan.Cli

open HybridPlan

def main (args : List String) : IO UInt32 := do
  let stderr ← IO.getStderr
  match CommandLine.read? args with
  | none => do
    stderr.putStrLn "the arguments are not a command line of this program"
    return 2
  | some c => match ← Cli.run c with
    | some e => do
      stderr.putStrLn e.message
      return 1
    | none => return 0
