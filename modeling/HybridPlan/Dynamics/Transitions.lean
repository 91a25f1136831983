import HybridPlan.Domain.Basic
import HybridPlan.Dynamics.Linear

set_option autoImplicit false

/-! # Transitions

The value of each state at the end of a stage, as an expression over the values at its start, the
decisions and the duration. Solutions are taken as they are given. Differential equations are solved
by series where these end; the states that remain are solved as linear equations, once the states
that they depend on are solved. -/

namespace HybridPlan

/-- The closed forms of the states, in the order of their declaration. -/
abbrev Transitions := List (String × ExprId)

namespace Transitions

variable {α : Type} [Scalar α]

/-- A state of a system on the way to its closed form. -/
structure Entry where
  rate : Rate
  closed : Option ExprId

/-- The closed forms found so far. -/
def known (entries : List Entry) : Transitions :=
  entries.filterMap fun e => e.closed.map (e.rate.state, ·)

/-- Whether all other states that the rate of an entry depends on are solved. -/
def isReady (a : Arena α) (entries : List Entry) (e : Entry) : Bool :=
  entries.all fun other => other.rate.state = e.rate.state || other.closed.isSome ||
    !a.dependsOn e.rate.rhs other.rate.state

/-- Solves the states of `todo` that are ready, from first to last. `done` are the entries before
them. -/
def pass (states : List String) (dt : String) :
    List Entry → List Entry → Build.Attempt α TransitionError (List Entry)
  | done, [] => return done
  | done, e :: todo => do
    let entries := done ++ e :: todo
    if e.closed.isNone && isReady (← getThe (Arena α)) entries e then
      let c ← Linear.closedForm states dt (known entries) e.rate
      pass states dt (done ++ [{ e with closed := some c }]) todo
    else pass states dt (done ++ [e]) todo

/-- The number of states without a closed form. -/
def unsolved (entries : List Entry) : Nat := entries.countP (·.closed.isNone)

/-- Passes over the system, at most `n` of them, until one solves nothing. -/
def passes (states : List String) (dt : String) :
    Nat → List Entry → Build.Attempt α TransitionError (List Entry)
  | 0, entries => return entries
  | n + 1, entries => do
    let next ← pass states dt [] entries
    if unsolved next < unsolved entries then passes states dt n next else return next

/-- The closed forms of a system of differential equations. -/
def solve (system : List Rate) (dt : String) : Build.Attempt α TransitionError Transitions := do
  let states := system.map (·.state)
  let entries ← system.mapM fun r => do
    let closed ← (Series.closedForm? system dt r.state).adapt fun e => ⟨r.state, .derivative e⟩
    return (⟨r, closed⟩ : Entry)
  let entries ← passes states dt entries.length entries
  entries.mapM fun e =>
    match e.closed with
    | some c => return (e.rate.state, c)
    | none => throw ⟨e.rate.state, .coupled⟩

/-- The states of a domain with the right-hand sides of their equations. -/
def system (d : Domain α) : Except TransitionError (List Rate) :=
  d.stateNames.mapM fun s =>
    match d.equation? s with
    | some q => .ok ⟨s, q.rhs⟩
    | none => .error ⟨s, .noEquation⟩

/-- The closed forms of the states of a domain, built in the arena of the domain. -/
def resolve (d : Domain α) : Build.Attempt α TransitionError Transitions := do
  let rates ← (system d : Except TransitionError _)
  match d.mode with
  | .solutions => return rates.map fun r => (r.state, r.rhs)
  | .odes => solve rates d.dt

end Transitions

end HybridPlan
