import HybridPlan.Expr.Derivative

set_option autoImplicit false

/-! # Lie series

Along a solution of the system `dx/dt = f`, a quantity `g` changes at the rate
`L g = dg/dt + Σ dg/dx * f`. The value of a state at the end of a stage is therefore the sum of
`(L^k x)(t = 0) * Dt^k / k!`, and this sum ends where some `L^k x` vanishes. A series that does not
end within a few terms is given up, never cut off. -/

namespace HybridPlan

/-- A state with the rate at which it changes. -/
structure Rate where
  state : String
  rhs : ExprId
  deriving DecidableEq

namespace Series

variable {α : Type} [Scalar α]

/-- The most derivatives that are computed of a state. -/
def maxOrder : Nat := 8

/-- The rate at which `g` changes along the flow of the system. -/
def lieDerivative (system : List Rate) (dt : String) (g : ExprId) :
    Build.Attempt α DerivativeError ExprId := do
  let explicit ← Build.derive dt g
  system.foldlM (fun sum r => do
    let dx ← Build.derive r.state g
    let term ← (Build.mul dx r.rhs : Build α ExprId)
    (Build.add sum term : Build α ExprId)) explicit

/-- The summand `coefficient * Dt^k / k!`. -/
def summand (duration coefficient : ExprId) (k factorial : Nat) : Build α ExprId := do
  let power ← Build.powInt duration k
  let scaled ← Build.mul coefficient power
  let denominator ← Build.num (Scalar.nat factorial)
  Build.div scaled denominator

/-- Continues a series whose last derivative is `term`, of order `k`, by at most `n` derivatives;
`none` if it does not end by then. -/
def extend (system : List Rate) (dt : String) (duration zeroExpr : ExprId) :
    Nat → Nat → Nat → ExprId → ExprId → Build.Attempt α DerivativeError (Option ExprId)
  | 0, _, _, _, _ => return none
  | n + 1, k, factorial, term, sum => do
    let term ← lieDerivative system dt term
    if (← getThe (Arena α)).isZero term then return some sum
    else
      let k := k + 1
      let factorial := factorial * k
      let coefficient ← (Build.substitute (.ofList [(dt, zeroExpr)]) term : Build α ExprId)
      let s ← (summand duration coefficient k factorial : Build α ExprId)
      let sum ← (Build.add sum s : Build α ExprId)
      extend system dt duration zeroExpr n k factorial term sum

/-- The value of a state after the duration `dt`, if its series ends. -/
def closedForm? (system : List Rate) (dt : String) (state : String) :
    Build.Attempt α DerivativeError (Option ExprId) := do
  let duration ← (Build.sym ⟨dt, none⟩ : Build α ExprId)
  let zeroExpr ← (Build.zero : Build α ExprId)
  let start ← (Build.sym ⟨state, none⟩ : Build α ExprId)
  extend system dt duration zeroExpr maxOrder 0 1 start start

end Series

end HybridPlan
