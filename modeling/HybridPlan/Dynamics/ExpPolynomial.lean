import HybridPlan.Dynamics.Series
import HybridPlan.Expr.Subterms

set_option autoImplicit false

/-! # Exponential polynomials

Sums of terms `coefficient * t ^ power * exp(rate * t)`, in which coefficients and rates are free of
`t`. Such a sum is read off an expression by following its arithmetic. -/

namespace HybridPlan

/-- The term `coefficient * t ^ power * exp(rate * t)`. -/
structure ExpTerm where
  coefficient : ExprId
  power : Nat
  rate : ExprId
  deriving DecidableEq

namespace ExpPolynomial

variable {α : Type} [Scalar α]

/-- The product of two sums. -/
def product (ls rs : List ExpTerm) : Build α (List ExpTerm) := do
  let rows ← ls.mapM fun l => rs.mapM fun r => do
    let coefficient ← Build.mul l.coefficient r.coefficient
    let rate ← Build.add l.rate r.rate
    return ⟨coefficient, l.power + r.power, rate⟩
  return rows.flatten

/-- Applies an operation to the coefficients of a sum. -/
def mapCoefficients (f : ExprId → Build α ExprId) (terms : List ExpTerm) :
    Build α (List ExpTerm) :=
  terms.mapM fun t => return { t with coefficient := ← f t.coefficient }

/-- The `n`-th power of a sum, multiplied by the sum `acc`. -/
def power (base : List ExpTerm) : Nat → List ExpTerm → Build α (List ExpTerm)
  | 0, acc => return acc
  | n + 1, acc => do power base n (← product acc base)

/-- The exponent of a power that is worked out: a natural number up to a small limit. -/
def smallExponent? (exponent : α) : Option Nat :=
  match Scalar.toInt? exponent with
  | some n => if 0 ≤ n ∧ n ≤ Series.maxOrder then some n.toNat else none
  | none => none

/-- Splits an exponent `c₀ + c₁ * t` into its two coefficients; `none` if it has other terms. -/
def splitLinear (c₀ c₁ : ExprId) : List ExpTerm → Build α (Option (ExprId × ExprId))
  | [] => return some (c₀, c₁)
  | term :: terms => do
    if !(← get).isZero term.rate then return none
    else match term.power with
      | 0 => do splitLinear (← Build.add c₀ term.coefficient) c₁ terms
      | 1 => do splitLinear c₀ (← Build.add c₁ term.coefficient) terms
      | _ => return none

/-- One step of a decomposition, which goes on with `decompose` for parts of the expression. A difference
is decomposed as the sum with the opposite of its right side. -/
def decomposeStep (t : String) (decompose : ExprId → OptionT (Build α) (List ExpTerm)) (e : ExprId) :
    OptionT (Build α) (List ExpTerm) := do
  let zeroExpr ← (Build.zero : Build α ExprId)
  let a ← getThe (Arena α)
  if !a.dependsOn e t then
    return if a.isZero e then [] else [⟨e, 0, zeroExpr⟩]
  match a.node e with
  | .sym _ => do
    let one ← (Build.one : Build α ExprId)
    return [⟨one, 1, zeroExpr⟩]
  | .neg x => do
    let terms ← decompose x
    (mapCoefficients Build.neg terms : Build α (List ExpTerm))
  | .arith .add x y => do
    let ls ← decompose x
    let rs ← decompose y
    return ls ++ rs
  | .arith .sub x y => do
    let opposite ← (Build.neg y : Build α ExprId)
    let ls ← decompose x
    let rs ← decompose opposite
    return ls ++ rs
  | .arith .mul x y => do
    let ls ← decompose x
    let rs ← decompose y
    (product ls rs : Build α (List ExpTerm))
  | .arith .div x y => do
    if a.dependsOn y t then failure
    else
      let terms ← decompose x
      (mapCoefficients (Build.div · y) terms : Build α (List ExpTerm))
  | .arith .pow x y =>
    match (a.num? y).bind smallExponent? with
    | none => failure
    | some k => do
      let base ← decompose x
      let one ← (Build.one : Build α ExprId)
      (power base k [⟨one, 0, zeroExpr⟩] : Build α (List ExpTerm))
  | .call (.elementary .exp) [x] => do
    let terms ← decompose x
    let (c₀, c₁) ← OptionT.mk (splitLinear zeroExpr zeroExpr terms : Build α _)
    let coefficient ← (Build.call₁ .exp c₀ : Build α ExprId)
    return [⟨coefficient, 0, c₁⟩]
  | _ => failure

/-- Decomposes an expression, descending at most the given number of levels. -/
def decomposeBelow (t : String) : Nat → ExprId → OptionT (Build α) (List ExpTerm)
  | 0, _ => failure
  | n + 1, e => decomposeStep t (decomposeBelow t n) e

/-- Decomposes an expression into a sum of terms in `t`, if it is such a sum. The opposite of an
operand is at most one level higher than the operand, so two levels for each node suffice. -/
def decompose? (t : String) (e : ExprId) : Build α (Option (List ExpTerm)) :=
  (decomposeBelow t (2 * (e + 1)) e).run

end ExpPolynomial

end HybridPlan
