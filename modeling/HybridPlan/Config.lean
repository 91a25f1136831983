import HybridPlan.Domain.Declaration
import HybridPlan.Text.Path
import HybridPlan.Time

set_option autoImplicit false

/-! # Configuration of a run -/

namespace HybridPlan

/-- Where a generated constraint is anchored within its stage. -/
inductive OffsetMode where
  /-- At a fixed time after the start of the stage. -/
  | absolute
  /-- At a fixed fraction of the duration of the stage. -/
  | relative
  deriving DecidableEq, Hashable, Repr

namespace OffsetMode

def all : List OffsetMode := [absolute, relative]

def name : OffsetMode → String
  | absolute => "absolute"
  | relative => "relative"

def ofName? (s : String) : Option OffsetMode := all.find? (·.name = s)

theorem ofName?_name (m : OffsetMode) : ofName? m.name = some m := by cases m <;> rfl

end OffsetMode

/-- The parameters of a call of the solver. -/
structure SolveParams (α : Type) where
  gap : α
  /-- The time that the call may take. -/
  timeLimit : Option Nanoseconds
  feastol : α

/-- The parameters of a planning run. -/
structure Config (α : Type) where
  domain : String
  instanceName : String
  /-- The number of stages of the first attempt. -/
  horizon : Nat
  /-- The largest number of stages that may be tried; any number if missing. -/
  maxHorizon : Option Nat
  /-- The step at which trajectories are sampled. -/
  epsilon : α
  gap : α
  bigM : α
  /-- The name of the duration. -/
  dt : String
  mode : TransitionMode
  offsetMode : OffsetMode
  feastol : α
  /-- The relative residual above which a sample counts as violated. -/
  tolerance : α
  /-- The time that the whole run may take. -/
  timeLimit : Option Nanoseconds
  /-- Whether the reports are written. -/
  saveReports : Bool
  /-- Whether the output of the solver is shown. -/
  showOutput : Bool
  domainDir : String
  outputDir : String
  /-- The solver to run, if not the one that the system finds. -/
  solver : Option String
  /-- Where the files exchanged with the solver are kept. -/
  keepFiles : Option String

namespace Config

variable {α : Type} [Scalar α]

/-- The configuration of a run without any options. -/
def default : Config α where
  domain := "navigation"
  instanceName := "1"
  horizon := 1
  maxHorizon := none
  epsilon := Scalar.ofDecimal 1 (-1)
  gap := Scalar.ofDecimal 1 (-1)
  bigM := Scalar.nat 1000
  dt := "Dt"
  mode := .odes
  offsetMode := .absolute
  feastol := Scalar.ofDecimal 1 (-6)
  tolerance := Scalar.ofDecimal 1 (-6)
  timeLimit := none
  saveReports := false
  showOutput := false
  domainDir := "translation"
  outputDir := "."
  solver := none
  keepFiles := none

variable (c : Config α)

/-! ## Files -/

/-- The ending that tells the files of a domain and an instance from others. -/
def suffix : String := s!"{c.domain}_{c.instanceName}"

/-- The name of the domain file, which describes the domain. -/
def domainFile : String := s!"{c.mode.name}_{c.suffix}.txt"

/-- The directory of the domain files that the library brings along. -/
def bundledDir : String := "BUNDLED"

/-- Where the domain file is looked up, in this order. -/
def domainFileCandidates : List String :=
  [c.domainDir, bundledDir].map (Path.join · c.domainFile)

/-- The file for the values of the proposed plans. -/
def resultsFile : String := Path.join c.outputDir s!"results_{c.suffix}.csv"

/-- The file for the generated cuts. -/
def newCutsFile : String := Path.join c.outputDir s!"new_constraints_{c.suffix}.csv"

/-! ## Settings of parts of the program -/

def readSettings : ReadSettings α where
  epsilon := c.epsilon
  gap := c.gap
  bigM := c.bigM
  dt := c.dt
  mode := c.mode

/-- The parameters of a call of the solver that may take the given time. -/
def solveParams (remaining : Option Nanoseconds) : SolveParams α where
  gap := c.gap
  timeLimit := remaining
  feastol := c.feastol

end Config

end HybridPlan
