import HybridPlan.Expr.Printer

set_option autoImplicit false

/-! # Evaluation

The value of an arithmetic expression under a valuation of its symbols. Values of nodes are kept in
a table, so that a shared subexpression is computed once; an evaluation that fails leaves in the
table what it has computed. -/

namespace HybridPlan

inductive EvalError where
  /-- The valuation has no value for a symbol. -/
  | unbound (name : String)
  /-- The expression is a constraint, or a call that has no value. -/
  | notNumeric (e : ExprId)
  deriving DecidableEq, Repr

/-- The wording of an evaluation error of expressions of the arena. -/
def EvalError.message {α : Type} [Scalar α] (a : Arena α) : EvalError → String
  | unbound name => s!"no value for symbol `{name}`"
  | notNumeric e => s!"`{a.text e}` does not denote a number"

/-- The values of symbols. -/
abbrev Valuation (α : Type) := String → Option α

/-- The values of nodes computed so far. -/
abbrev ValueTable (α : Type) := Std.HashMap ExprId α

/-- A computation with a table of values. -/
abbrev Evaluation (α : Type) := ExceptT EvalError (StateM (ValueTable α))

namespace Arena

variable {α : Type} [Scalar α] (a : Arena α) (v : Valuation α)

/-- The value of a node at most the given number of levels deep. -/
def evalBelow : Nat → ExprId → Evaluation α α
  | 0, _ => pure Scalar.zero
  | n + 1, e => do
    if let some value := (← get)[e]? then
      return value
    let value ← match a.node e with
      | .num value => pure value
      | .sym s => match v s with
        | some value => pure value
        | none => throw (.unbound s)
      | .neg x => do
        let u ← evalBelow n x
        pure (-u)
      | .arith op x y => do
        let u ← evalBelow n x
        let w ← evalBelow n y
        pure (op.apply u w)
      | .call f [x] => do
        let u ← evalBelow n x
        match f.value? u with
        | some value => pure value
        | none => throw (.notNumeric e)
      | .call _ _ | .compare _ _ _ | .join _ _ => throw (.notNumeric e)
    modify (·.insert e value)
    return value

/-- The value of an expression, given and extending a table of values. Results that are not finite
are values like any others. -/
def evalWith (e : ExprId) : Evaluation α α := a.evalBelow v (e + 1) e

/-- The value of an expression. -/
def eval (e : ExprId) : Except EvalError α := ((a.evalWith v e).run.run {}).1

end Arena

end HybridPlan
