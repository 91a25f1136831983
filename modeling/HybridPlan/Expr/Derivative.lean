import HybridPlan.Expr.Printer
import HybridPlan.Expr.Substitution

set_option autoImplicit false

/-! # Symbolic derivatives

The derivative of an arithmetic expression with respect to a symbol, by the rules of sum, product,
quotient, power and chain, built with the folding constructors. -/

namespace HybridPlan

inductive DerivativeError where
  /-- The expression is a constraint, or a call without a derivative. -/
  | notDifferentiable (e : ExprId)
  deriving DecidableEq, Repr

/-- The wording of a differentiation error about expressions of the arena. -/
def DerivativeError.message {α : Type} [Scalar α] (a : Arena α) : DerivativeError → String
  | notDifferentiable e => s!"cannot differentiate `{a.text e}`"

namespace Build

variable {α : Type} [Scalar α]

/-- The derivative of the power `e`, which is `x ** y`, from the derivatives of base and exponent:
`y * x ** (y - 1) * dx` if the exponent does not vary, otherwise
`e * (dy * log(x) + y * dx / x)`. -/
def derivePow (e x y dx dy : ExprId) : Build α ExprId := do
  if (← get).isZero dy then
    let one ← one
    let lower ← sub y one
    let p ← pow x lower
    let coefficient ← mul y p
    mul coefficient dx
  else
    let log ← call₁ .log x
    let l ← mul dy log
    let scaled ← mul y dx
    let r ← div scaled x
    let sum ← add l r
    mul e sum

/-- The derivative of an arithmetic operation `e` on `x` and `y` from those of its operands. -/
def deriveArith (op : ArithOp) (e x y dx dy : ExprId) : Build α ExprId := do
  match op with
  | .add => add dx dy
  | .sub => sub dx dy
  | .mul => do
    let l ← mul dx y
    let r ← mul x dy
    add l r
  | .div => do
    let l ← mul dx y
    let r ← mul x dy
    let numerator ← sub l r
    let denominator ← powInt y 2
    div numerator denominator
  | .pow => derivePow e x y dx dy

/-- The derivative of a function at its argument `x`, where `e` is the function's value there. -/
def deriveOuter (f : Elementary) (e x : ExprId) : Build α ExprId := do
  match f with
  | .exp => return e
  | .log => do
    let one ← one
    div one x
  | .sqrt => do
    let two ← num (Scalar.nat 2)
    let denominator ← mul two e
    let one ← one
    div one denominator
  | .sin => call₁ .cos x
  | .cos => do
    let s ← call₁ .sin x
    neg s
  | .abs => div x e

/-- The derivative down to the given number of levels. -/
def deriveBelow (t : String) :
    Nat → ExprId → StateT (Std.HashMap ExprId ExprId) (Attempt α DerivativeError) ExprId
  | 0, _ => (zero : Build α ExprId)
  | n + 1, e => do
    if let some d := (← get)[e]? then
      return d
    let d ← match (← getThe (Arena α)).node e with
      | .num _ => (zero : Build α ExprId)
      | .sym s => (if s = t then one else zero : Build α ExprId)
      | .neg x => do
        let dx ← deriveBelow t n x
        (neg dx : Build α ExprId)
      | .arith op x y => do
        let dx ← deriveBelow t n x
        let dy ← deriveBelow t n y
        (deriveArith op e x y dx dy : Build α ExprId)
      | .call f [x] => do
        let dx ← deriveBelow t n x
        match f with
        | .elementary f => do
          let outer ← (deriveOuter f e x : Build α ExprId)
          (mul outer dx : Build α ExprId)
        | .dd => throw (.notDifferentiable e)
      | .call _ _ | .compare _ _ _ | .join _ _ => throw (.notDifferentiable e)
    modify (·.insert e d)
    return d

/-- The derivative of an expression with respect to a symbol. -/
def derive (t : String) (e : ExprId) : Attempt α DerivativeError ExprId :=
  (deriveBelow t (e + 1) e).run' {}

end Build

end HybridPlan
