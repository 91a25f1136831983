import HybridPlan.Config
import HybridPlan.Log

set_option autoImplicit false

/-! # Command line

Options are given as `--name value`, `--name=value`, `-n value`, `-n=value` or `-nvalue`, each at
most once and in any order; flags take no value. A value that stands alone begins with a dash only
if it is nothing but that dash. There are no other arguments, apart from `--` at the very end. -/

namespace HybridPlan

/-! ## Options -/

inductive CliOption where
  | domain
  | instanceName
  | horizon
  | maxHorizon
  | epsilon
  | gap
  | bigM
  | dt
  | provideSolutions
  | offsetMode
  | feastol
  | tolerance
  | timeLimit
  | saveReports
  | showOutput
  | domainDir
  | outputDir
  | solver
  | keepFiles
  | logLevel
  deriving DecidableEq, Repr

namespace CliOption

def all : List CliOption :=
  [domain, instanceName, horizon, maxHorizon, epsilon, gap, bigM, dt, provideSolutions, offsetMode,
    feastol, tolerance, timeLimit, saveReports, showOutput, domainDir, outputDir, solver,
    keepFiles, logLevel]

/-- The name behind two dashes. -/
def name : CliOption → String
  | domain => "domain"
  | instanceName => "instance"
  | horizon => "horizon"
  | maxHorizon => "max-horizon"
  | epsilon => "epsilon"
  | gap => "gap"
  | bigM => "big-m"
  | dt => "dt-var"
  | provideSolutions => "provide-sols"
  | offsetMode => "offset-mode"
  | feastol => "feastol"
  | tolerance => "tolerance"
  | timeLimit => "time-limit"
  | saveReports => "save-sols"
  | showOutput => "show-output"
  | domainDir => "translation-dir"
  | outputDir => "output-dir"
  | solver => "scip"
  | keepFiles => "keep-files"
  | logLevel => "log-level"

/-- The letter behind one dash. -/
def letter? : CliOption → Option Char
  | domain => some 'D'
  | instanceName => some 'I'
  | horizon => some 'H'
  | epsilon => some 'E'
  | gap => some 'G'
  | timeLimit => some 't'
  | logLevel => some 'l'
  | _ => none

def takesValue : CliOption → Bool
  | provideSolutions | saveReports | showOutput => false
  | _ => true

def ofName? (name : List Char) : Option CliOption := all.find? (·.name.toList = name)

theorem ofName?_name (o : CliOption) : ofName? o.name.toList = some o := by cases o <;> rfl

def ofLetter? (c : Char) : Option CliOption := all.find? (·.letter? = some c)

end CliOption

/-! ## Arguments -/

namespace CommandLine

/-- The option of an argument, and the value attached to it. -/
def readOption? : List Char → Option (CliOption × Option String)
  | '-' :: '-' :: cs =>
    match Text.splitFirst? '=' cs with
    | some (name, value) => (CliOption.ofName? name).map (·, some (String.ofList value))
    | none => (CliOption.ofName? cs).map (·, none)
  | '-' :: c :: cs =>
    let value := match cs with
      | [] => none
      | '=' :: value => some (String.ofList value)
      | value => some (String.ofList value)
    (CliOption.ofLetter? c).map (·, value)
  | _ => none

/-- Whether an argument can be the value of the option before it. -/
def isValue (arg : String) : Bool := arg = "-" || !arg.startsWith "-"

/-- The options of the arguments with their values; flags have empty ones. -/
def split? : List String → Option (List (CliOption × String))
  | [] => some []
  | arg :: args =>
    if arg = "--" then if args.isEmpty then some [] else none
    else do
      let (option, attached) ← readOption? arg.toList
      match option.takesValue, attached, args with
      | false, none, args => return (option, "") :: (← split? args)
      | false, some _, _ => none
      | true, some value, args => return (option, value) :: (← split? args)
      | true, none, [] => none
      | true, none, value :: args =>
        if isValue value then return (option, value) :: (← split? args) else none

end CommandLine

/-! ## Meaning -/

/-- What the arguments say. -/
structure CommandLine where
  /-- The parameters that need no further check. -/
  config : Config Binary64 := Config.default
  horizon : Option Nat := none
  /-- The feasibility tolerance if missing. -/
  tolerance : Option Binary64 := none
  /-- The time of the run in seconds. -/
  timeLimit : Option Binary64 := none
  logLevel : LogLevel := .info

/-- Why the parameters are refused. -/
inductive ConfigError where
  | step
  | timeLimit (seconds : Binary64) (e : DurationError)

def ConfigError.message : ConfigError → String
  | step => "the sampling step must be positive"
  | timeLimit seconds e =>
    s!"invalid time limit {Scalar.text seconds}: cannot convert float seconds to Duration: " ++ e.text

namespace CommandLine

/-- Natural numbers of the command line have 64 bits. -/
def readNat? (s : String) : Option Nat := Decimal.readNat? 18446744073709551616 s.toList

def readNumber? (s : String) : Option Binary64 := Scalar.read? s

def readPath? (s : String) : Option String := if s.isEmpty then none else some s

/-- A level by its number or, in any case, by its name. -/
def readLevel? (s : String) : Option LogLevel :=
  let named := LogLevel.all.find? fun l => l.name.toList = s.toList.map Char.toUpper
  ((readNat? s).bind fun n => LogLevel.all.find? (·.number = n)).or named

/-- The command line with the value of one more option. -/
def enter? (c : CommandLine) (option : CliOption) (value : String) : Option CommandLine :=
  let config := c.config
  let set (config : Config Binary64) : CommandLine := { c with config }
  match option with
  | .domain => some (set { config with domain := value })
  | .instanceName => some (set { config with instanceName := value })
  | .horizon => (readNat? value).bind fun n =>
    if n = 0 then none else some { c with horizon := some n }
  | .maxHorizon => (readNat? value).map fun n => set { config with maxHorizon := some n }
  | .epsilon => (readNumber? value).map fun epsilon => set { config with epsilon }
  | .gap => (readNumber? value).map fun gap => set { config with gap }
  | .bigM => (readNumber? value).map fun bigM => set { config with bigM }
  | .dt => some (set { config with dt := value })
  | .provideSolutions => some (set { config with mode := .solutions })
  | .offsetMode => (OffsetMode.ofName? value).map fun offsetMode => set { config with offsetMode }
  | .feastol => (readNumber? value).map fun feastol => set { config with feastol }
  | .tolerance => (readNumber? value).map fun x => { c with tolerance := some x }
  | .timeLimit => (readNumber? value).map fun x => { c with timeLimit := some x }
  | .saveReports => some (set { config with saveReports := true })
  | .showOutput => some (set { config with showOutput := true })
  | .domainDir => (readPath? value).map fun dir => set { config with domainDir := dir }
  | .outputDir => (readPath? value).map fun dir => set { config with outputDir := dir }
  | .solver => (readPath? value).map fun path => set { config with solver := some path }
  | .keepFiles => (readPath? value).map fun dir => set { config with keepFiles := some dir }
  | .logLevel => (readLevel? value).map fun logLevel => { c with logLevel }

/-- Reads the arguments; none if they are not a command line. -/
def read? (args : List String) : Option CommandLine := do
  let given ← split? args
  if (given.map (·.1)).Nodup then
    given.foldlM (fun c (option, value) => c.enter? option value) {}
  else none

/-- The parameters that the command line gives. A horizon that is given is also the largest one,
unless that is given, too. -/
def toConfig (c : CommandLine) : Except ConfigError (Config Binary64) := do
  if !(Scalar.lt Scalar.zero c.config.epsilon) then throw .step
  let timeLimit ← c.timeLimit.mapM fun seconds =>
    (Nanoseconds.ofSeconds seconds).mapError (.timeLimit seconds)
  return { c.config with
    horizon := c.horizon.getD 1
    maxHorizon := c.config.maxHorizon.or c.horizon
    tolerance := c.tolerance.getD c.config.feastol
    timeLimit }

end CommandLine

end HybridPlan
