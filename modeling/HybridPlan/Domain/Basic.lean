import HybridPlan.Expr.Arena

set_option autoImplicit false

/-! # Planning domains

A domain declares constants and variables, gives the dynamics of its state variables by equations,
and constrains a plan at its start, at the start of each stage, throughout each stage, and at its
end. A plan earns a reward in each stage. -/

namespace HybridPlan

/-! ## Names with a meaning of their own -/

/-- The name under which expressions refer to the feasibility tolerance of the solver. -/
def toleranceName : String := "feastol"

/-- The ending that marks the value of a state at the end of a stage. -/
def nextEnding : String := "_dash"

/-- The name of the next value of a state. -/
def nextName (state : String) : String := state ++ nextEnding

/-- The state whose next value a name denotes, judged by the name alone. -/
def stateOfNext? (name : String) : Option String :=
  match Text.beforeEnd? nextEnding.toList name.toList with
  | some [] | none => none
  | some base => some (String.ofList base)

/-- The name of the constant that bounds switched inequalities. -/
def bigMName : String := "bigM"

/-- The name of the constant that gives the sampling step. -/
def epsilonName : String := "Epsilon"

/-- Whether a text is a name: ASCII letters, digits and underscores, no digit first. -/
def isIdentifier : List Char → Bool
  | [] => false
  | c :: r => (c.isAlpha || c = '_') && r.all fun c => c.isAlphanum || c = '_'

/-! ## Variables -/

inductive VarKind where
  | continuous
  | integer
  | boolean
  deriving DecidableEq, Repr

def VarKind.name : VarKind → String
  | continuous => "continuous"
  | integer => "integer"
  | boolean => "boolean"

inductive Role where
  | state
  | action
  /-- A variable that is decided in each stage and is not part of the plan. -/
  | auxiliary
  deriving DecidableEq, Repr

def Role.name : Role → String
  | state => "state"
  | action => "action"
  | auxiliary => "auxiliary"

structure Variable where
  name : Name
  kind : VarKind
  role : Role
  /-- A global variable has one value for all stages. -/
  isGlobal : Bool

/-- The declaration of a variable. -/
def Variable.text (v : Variable) : String :=
  let scope := if v.isGlobal then "global_" else ""
  s!"{scope}{v.role.name}_{v.kind.name}: {v.name.text}"

/-! ## Equations and constraints -/

/-- How the dynamics of the states are given. -/
inductive TransitionMode where
  /-- By differential equations `dd(X, Dt) == …`. -/
  | odes
  /-- By their solutions `X_dash == …`. -/
  | solutions
  deriving DecidableEq, Repr

def TransitionMode.name : TransitionMode → String
  | odes => "odes"
  | solutions => "solutions"

/-- An expression and the text that it was written as. -/
structure Constraint where
  expr : ExprId
  span : Span

/-- The dynamics of a state: the right-hand side is its derivative in a differential equation, and
its next value in a solution. -/
structure Equation where
  state : Name
  rhs : ExprId
  span : Span

structure Constant (α : Type) where
  name : Name
  value : α

/-! ## Domains -/

/-- A planning domain. Its expressions live in its arena. -/
structure Domain (α : Type) [Scalar α] where
  arena : Arena α
  constants : List (Constant α)
  vars : List Variable
  /-- The action that holds the duration of a stage. -/
  dt : String
  mode : TransitionMode
  equations : List Equation
  /-- Constraints on the initial state. -/
  initials : List Constraint
  /-- Constraints on the start of each stage. -/
  instantaneous : List Constraint
  /-- Constraints that hold throughout each stage. -/
  temporal : List Constraint
  /-- Constraints on the final state. -/
  goals : List Constraint
  /-- What each stage earns. -/
  reward : Constraint

/-- What a name in an expression refers to. -/
inductive Reference (α : Type) where
  | constant (value : α)
  /-- The value of the variable in the stage at hand. -/
  | var (v : Variable)
  /-- The value of the state at the end of the stage at hand. -/
  | next (v : Variable)
  /-- The feasibility tolerance of the solver. -/
  | tolerance

namespace Domain

variable {α : Type} [Scalar α] (d : Domain α)

def constant? (name : String) : Option α := (d.constants.find? (·.name.text = name)).map (·.value)

def declared? (name : String) : Option Variable := d.vars.find? (·.name.text = name)

def equation? (state : String) : Option Equation := d.equations.find? (·.state.text = state)

def states : List Variable := d.vars.filter (·.role = .state)

/-- What is decided: actions and auxiliary variables. -/
def decisions : List Variable := d.vars.filter (·.role ≠ .state)

def stateNames : List String := d.states.map (·.name.text)

/-- What a name refers to: a variable before a constant, then the tolerance, then the next value of
a state. -/
def resolve? (name : String) : Option (Reference α) :=
  match d.declared? name with
  | some v => some (.var v)
  | none => match d.constant? name with
    | some c => some (.constant c)
    | none =>
      if name = toleranceName then some .tolerance
      else do
        let state ← stateOfNext? name
        let v ← d.declared? state
        if v.role = .state then some (.next v) else none

end Domain

end HybridPlan
