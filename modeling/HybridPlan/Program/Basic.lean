import HybridPlan.Program.Term
import Std.Data.HashSet

set_option autoImplicit false

/-! # Mathematical programs

A mixed-integer nonlinear program: variables with bounds, rows `lower ≤ body ≤ upper`, and a linear
objective. Names of variables, and names of rows, are distinct; an addition that is refused leaves
the program as it was. -/

namespace HybridPlan

inductive VarDomain where
  | continuous
  | integer
  | binary
  deriving DecidableEq, Repr

namespace VarDomain

/-- The domains in the order of their names. -/
def all : List VarDomain := [binary, continuous, integer]

def name : VarDomain → String
  | continuous => "continuous"
  | integer => "integer"
  | binary => "binary"

def ofName? (s : String) : Option VarDomain := all.find? (·.name = s)

theorem ofName?_name (d : VarDomain) : ofName? d.name = some d := by cases d <;> rfl

end VarDomain

structure ProgramVar (α : Type) where
  name : String
  domain : VarDomain
  lower : α
  upper : α

/-- The row `lower ≤ body ≤ upper`; either bound can be infinite. -/
structure Row (α : Type) where
  name : String
  lower : α
  body : TermId
  upper : α

inductive Sense where
  | maximize
  | minimize
  deriving DecidableEq, Repr

namespace Sense

def name : Sense → String
  | maximize => "maximize"
  | minimize => "minimize"

def ofName? (s : String) : Option Sense := [maximize, minimize].find? (·.name = s)

theorem ofName?_name (s : Sense) : ofName? s.name = some s := by cases s <;> rfl

end Sense

structure Program (α : Type) [Scalar α] where
  name : String
  vars : Array (ProgramVar α) := #[]
  varIndex : Std.HashMap String VarId := {}
  terms : Terms α := {}
  rows : Array (Row α) := #[]
  rowNames : Std.HashSet String := {}
  sense : Sense := .maximize
  /-- The coefficients of the objective; those of one variable add up. -/
  objective : List (VarId × α) := []

/-- Why an addition to a program is refused. -/
inductive ProgramError (α : Type) where
  | duplicateVariable (name : String)
  | duplicateRow (name : String)
  | emptyDomain (name : String) (lower upper : α)

def ProgramError.message {α : Type} [Scalar α] : ProgramError α → String
  | duplicateVariable name => s!"variable `{name}` is declared twice"
  | duplicateRow name => s!"constraint `{name}` is declared twice"
  | emptyDomain name lower upper =>
    s!"empty domain for variable `{name}`: [{Scalar.text lower}, {Scalar.text upper}]"

namespace Program

variable {α : Type} [Scalar α]

/-- A computation that extends a program and can be refused. -/
abbrev Extend (α : Type) [Scalar α] := ExceptT (ProgramError α) (StateM (Program α))

/-- The bounds of a variable, those of a binary one cut down to `0` and `1`. -/
def bounds (domain : VarDomain) (lower upper : α) : α × α :=
  if domain = .binary then (Scalar.max lower Scalar.zero, Scalar.min upper Scalar.one)
  else (lower, upper)

/-- Adds a variable with a new name and bounds that leave it a value. -/
def addVar (name : String) (domain : VarDomain) (lower upper : α) : Extend α VarId := do
  let p ← get
  if p.varIndex.contains name then throw (.duplicateVariable name)
  let (lower, upper) := bounds domain lower upper
  if Scalar.lt upper lower then throw (.emptyDomain name lower upper)
  let id := p.vars.size
  set { p with
    vars := p.vars.push ⟨name, domain, lower, upper⟩
    varIndex := p.varIndex.insert name id }
  return id

/-- Adds a row with a new name. -/
def addRow (name : String) (lower : α) (body : TermId) (upper : α) : Extend α Unit := do
  let p ← get
  if p.rowNames.contains name then throw (.duplicateRow name)
  set { p with
    rows := p.rows.push ⟨name, lower, body, upper⟩
    rowNames := p.rowNames.insert name }

def setObjective (p : Program α) (sense : Sense) (objective : List (VarId × α)) : Program α :=
  { p with sense, objective }

/-- Makes terms of the program. -/
def withTerms {ι : Type} (m : Terms.Make α ι) : StateM (Program α) ι :=
  modifyGet fun p =>
    let (i, terms) := m.run p.terms
    (i, { p with terms })

variable (p : Program α)

def varOf? (name : String) : Option VarId := p.varIndex[name]?

/-- The name of a variable. -/
def varName (v : VarId) : String := (p.vars[v]?.map (·.name)).getD ""

/-- The coefficient of a variable in the objective. -/
def coefficient (v : VarId) : α :=
  ((p.objective.filter (·.1 = v)).map (·.2)).foldl (· + ·) Scalar.zero

/-! ## Violation -/

/-- By how much a number lies outside an interval; zero inside. -/
def excess (lower x upper : α) : α :=
  Scalar.max (Scalar.max (lower - x) (x - upper)) Scalar.zero

/-- The excess of the body of a row; infinite if the body has no value. -/
def Row.violation (ts : Terms α) (values : VarId → α) (r : Row α) : α :=
  let x := Terms.eval ts values r.body
  if Scalar.isUndefined x then Scalar.infinity else excess r.lower x r.upper

/-- The values of an assignment; missing ones are zero. -/
def assignment (values : Array α) (v : VarId) : α := values.getD v Scalar.zero

/-- The largest violation of a bound or a row by an assignment. -/
def maxViolation (values : Array α) : α :=
  let value := assignment values
  let bounds := p.vars.toList.mapIdx fun i v => excess v.lower (value i) v.upper
  let rows := p.rows.toList.map (Row.violation p.terms value)
  (bounds ++ rows).foldl Scalar.max Scalar.zero

/-! ## Summary -/

def countVars (d : VarDomain) : Nat := p.vars.countP (·.domain = d)

/-- The size of the program in words. -/
def summary : String :=
  let present := VarDomain.all.filter fun d => p.countVars d ≠ 0
  let domains := String.intercalate ", " (present.map fun d => s!"{p.countVars d} {d.name}")
  s!"{p.vars.size} variables ({domains}), {p.rows.size} constraints, {p.terms.size} terms"

end Program

end HybridPlan
