import HybridPlan.Config
import HybridPlan.Program.Basic

set_option autoImplicit false

/-! # Solutions and solvers

A solution gives a value to every variable of a program. Solvers write solutions as text, a line
for the objective and one for each variable that is not zero, and announce how a run ended on a
status line. -/

namespace HybridPlan

structure Solution (α : Type) where
  values : Array α
  objective : α

inductive SolveResult (α : Type) where
  /-- Optimal up to the gap that was asked for. -/
  | optimal (s : Solution α)
  /-- The time was up, perhaps with a solution. -/
  | timeout (s : Option (Solution α))
  | infeasible

/-- Why the text of a solver cannot be read. -/
inductive ReplyFault where
  | unknownVariable (name : String)
  | noStatusLine
  | invalidObjective (text : String)
  | invalidLine (line : String)
  | invalidValue (value name : String)
  | noObjective
  | noSolution
  deriving DecidableEq, Repr

def ReplyFault.text : ReplyFault → String
  | unknownVariable name => s!"unknown variable `{name}`"
  | noStatusLine => "no `SCIP Status` line in the solver output"
  | invalidObjective text => s!"invalid objective value `{text}`"
  | invalidLine line => s!"invalid solution line `{line}`"
  | invalidValue value name => s!"invalid value `{value}` for `{name}`"
  | noObjective => "no objective value in the solution file"
  | noSolution => "optimal status without a solution"

/-- Why a call of a solver gives no result. -/
inductive SolverError where
  /-- There is no such program. -/
  | notFound (executable : String)
  /-- A file cannot be read or written. -/
  | files (reason : String)
  | unexpectedStatus (status : String)
  | reply (fault : ReplyFault)
  deriving DecidableEq, Repr

def SolverError.message : SolverError → String
  | notFound executable => s!"solver executable not found: {executable}"
  | files reason => s!"solver I/O error: {reason}"
  | unexpectedStatus status => s!"unexpected solver status: {status}"
  | reply fault => s!"failed to parse solver output: {fault.text}"

/-- One call of a solver. -/
abbrev SolverCall (α : Type) [Scalar α] :=
  Program α → SolveParams α → Except SolverError (SolveResult α)

namespace Solution

variable {α : Type} [Scalar α]

/-- The value of a variable; zero if the solution does not have it. -/
def value (s : Solution α) (v : VarId) : α := s.values.getD v Scalar.zero

/-- The value of the variable with a name. -/
def valueOf? (s : Solution α) (p : Program α) (name : String) : Option α :=
  (p.varOf? name).map s.value

/-- Enters values by name; the last value of a name counts. -/
def enter (p : Program α) (values : Array α) : List (String × α) → Except SolverError (Array α)
  | [] => .ok values
  | (name, x) :: rest =>
    match p.varOf? name with
    | some v => enter p (values.setIfInBounds v x) rest
    | none => .error (.reply (.unknownVariable name))

/-- The solution with the given values by name, zero for all others, and the objective that
follows. -/
def ofNamed (p : Program α) (named : List (String × α)) : Except SolverError (Solution α) := do
  let values ← enter p (Array.replicate p.vars.size Scalar.zero) named
  let objective := Scalar.sum (p.objective.map fun (v, c) => c * values.getD v Scalar.zero)
  return ⟨values, objective⟩

/-! ## Reading -/

/-- What a line of a solution file says. -/
inductive Line (α : Type) where
  | blank
  /-- There is no solution. -/
  | missing
  | objective (x : α)
  | value (name : String) (x : α)

/-- The value of a variable in a solution file. -/
def readValue? (s : String) : Option α :=
  if s = "+infinity" || s = "infinity" then some Scalar.infinity
  else if s = "-infinity" then some (-Scalar.infinity)
  else Scalar.read? s

/-- Reads a line without the white space around it. -/
def readLine (line : List Char) : Except SolverError (Line α) :=
  let starts (s : String) := Text.afterStart? s.toList line
  if line.isEmpty then .ok .blank
  else if (starts "no solution available").isSome then .ok .missing
  else match starts "solution status:" with
    | some status =>
      let mentions (s : String) := Text.occursIn s.toList status
      .ok (if mentions "infeasible" && !mentions "solution found" then .missing else .blank)
    | none => match starts "objective value:" with
      | some objective =>
        let text := String.ofList (Text.trim objective)
        match (Scalar.read? text : Option α) with
        | some x => .ok (.objective x)
        | none => .error (.reply (.invalidObjective text))
      | none => match (Text.words line).map String.ofList with
        | name :: value :: _ => match (readValue? value : Option α) with
          | some x => .ok (.value name x)
          | none => .error (.reply (.invalidValue value name))
        | _ => .error (.reply (.invalidLine (String.ofList line)))

/-- What the lines of a solution file say together: `none` if there is no solution, otherwise the
last objective and the values, both added to those read before. -/
def readLines (objective : Option α) (values : List (String × α)) :
    List (List Char) → Except SolverError (Option (Option α × List (String × α)))
  | [] => .ok (some (objective, values))
  | l :: ls => do
    match ← readLine (α := α) (Text.trim l) with
    | .blank => readLines objective values ls
    | .missing => return none
    | .objective x => readLines (some x) values ls
    | .value name x => readLines objective (values ++ [(name, x)]) ls

/-- The solution in a solution file, if there is one. -/
def read (p : Program α) (text : String) : Except SolverError (Option (Solution α)) := do
  match ← readLines (α := α) none [] (Text.lines text.toList) with
  | none => return none
  | some (none, _) => throw (.reply .noObjective)
  | some (some objective, values) =>
    let s ← ofNamed p values
    return some { s with objective }

end Solution

/-! ## Status -/

/-- How a run of the solver ended. -/
inductive SolverStatus where
  | optimal
  | gapLimit
  | timeLimit
  | infeasible
  deriving DecidableEq, Repr

namespace SolverStatus

/-- The part of a line between the first opening bracket and the last closing one, or the whole line
if there is no such part. -/
def bracketed (line : List Char) : List Char :=
  match Text.splitFirst? '[' line with
  | some (_, after) =>
    match Text.splitFirst? ']' after.reverse with
    | some (_, inside) => inside.reverse
    | none => line
  | none => line

/-- The status that the output of the solver announces. -/
def read (output : String) : Except SolverError SolverStatus :=
  let isStatus (l : List Char) :=
    (Text.afterStart? "SCIP Status".toList (Text.trimLeft l)).isSome
  match (Text.lines output.toList).find? isStatus with
  | none => .error (.reply .noStatusLine)
  | some line =>
    let reason := bracketed line
    let mentions (s : String) := Text.occursIn s.toList reason
    if mentions "infeasible" then .ok .infeasible
    else if mentions "optimal solution found" then .ok .optimal
    else if mentions "gap limit" then .ok .gapLimit
    else if mentions "time limit" then .ok .timeLimit
    else .error (.unexpectedStatus (String.ofList (Text.trim reason)))

end SolverStatus

end HybridPlan
