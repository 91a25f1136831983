import HybridPlan.Dynamics.ExpPolynomial

set_option autoImplicit false

/-! # Linear equations

The solution of `dx/dt = a * x + g(t)` with a constant rate `a` and a forcing `g` that is an
exponential polynomial:
`x * exp(a * t) + Σ coefficient * ∫ s ^ n * exp(rate * s + a * (t - s)) ds`,
each integral from `0` to `t` being worked out by parts. -/

namespace HybridPlan

/-- Why the dynamics of a state have no closed form. -/
inductive UnsolvableReason where
  | noEquation
  | derivative (e : DerivativeError)
  /-- The series does not end, and the state depends on others without a closed form. -/
  | coupled
  /-- The series does not end, and the rate of the equation varies. -/
  | notLinear
  /-- The forcing is no exponential polynomial of the duration. -/
  | forcing (g : ExprId) (dt : String)
  deriving DecidableEq, Repr

structure TransitionError where
  state : String
  reason : UnsolvableReason
  deriving DecidableEq, Repr

def UnsolvableReason.text {α : Type} [Scalar α] (a : Arena α) : UnsolvableReason → String
  | noEquation => "no equation"
  | derivative e => e.message a
  | coupled =>
    s!"the Lie series does not terminate within {Series.maxOrder} terms and the state is coupled " ++
      "with states that have no closed form"
  | notLinear =>
    s!"the Lie series does not terminate within {Series.maxOrder} terms and the equation is not of " ++
      "the form a*X + g(t)"
  | forcing g dt =>
    s!"the forcing term `{a.text g}` is not a sum of polynomial and exponential terms of `{dt}`"

def TransitionError.message {α : Type} [Scalar α] (a : Arena α) (e : TransitionError) : String :=
  s!"cannot solve the dynamics of `{e.state}`: {e.reason.text a}"

namespace Linear

variable {α : Type} [Scalar α]

/-- The number `x` with the sign of `(-1) ^ k`. -/
def alternate (k : Nat) (x : α) : α := if k % 2 = 0 then x else -x

/-- The polynomial `Σ (-1)^k * n!/(n-k)! * t^(n-k) / d^(k+1)` from the summand `k` on, of which `m`
are left, added to `sum`; and the last falling factorial. -/
def byParts (t d : ExprId) (n : Nat) : Nat → Nat → α → ExprId → Build α (ExprId × α)
  | 0, _, falling, sum => return (sum, falling)
  | m + 1, k, falling, sum => do
    let falling := if k = 0 then falling else falling * Scalar.nat (n - k + 1)
    let c ← Build.num (alternate k falling)
    let tPower ← Build.powInt t ((n : Int) - k)
    let dPower ← Build.powInt d (k + 1)
    let numerator ← Build.mul c tPower
    let summand ← Build.div numerator dPower
    let sum ← Build.add sum summand
    byParts t d n m (k + 1) falling sum

/-- `∫ s ^ n * exp(rate * s + a * (t - s)) ds` from `0` to `t`, where `growth` is `exp(a * t)`. If
the two rates are the same expression, the integrand is `s ^ n * exp(a * t)`. -/
def integral (t a growth : ExprId) (term : ExpTerm) : Build α ExprId := do
  let n := term.power
  let d ← Build.sub term.rate a
  if (← get).isZero d then
    let tPower ← Build.powInt t (n + 1)
    let denominator ← Build.num (Scalar.nat (n + 1))
    let quotient ← Build.div tPower denominator
    Build.mul quotient growth
  else
    let zeroExpr ← Build.zero
    let (polynomial, falling) ← byParts t d n (n + 1) 0 Scalar.one zeroExpr
    let c ← Build.num (alternate n falling)
    let dPower ← Build.powInt d (n + 1)
    let atStart ← Build.div c dPower
    let rateTime ← Build.mul term.rate t
    let oscillation ← Build.call₁ .exp rateTime
    let head ← Build.mul oscillation polynomial
    let tail ← Build.mul atStart growth
    Build.sub head tail

/-- The response to the forcing terms, added to `sum`. -/
def addResponses (t a growth : ExprId) (terms : List ExpTerm) (sum : ExprId) : Build α ExprId :=
  terms.foldlM (fun sum term => do
    let part ← integral t a growth term
    let scaled ← Build.mul term.coefficient part
    Build.add sum scaled) sum

/-- The solution for the state `x` with rate `a` and the given forcing. -/
def solution (x dt : String) (a : ExprId) (forcing : List ExpTerm) : Build α ExprId := do
  let t ← Build.sym ⟨dt, none⟩
  let exponent ← Build.mul a t
  let growth ← Build.call₁ .exp exponent
  let start ← Build.sym ⟨x, none⟩
  let homogeneous ← Build.mul start growth
  addResponses t a growth forcing homogeneous

/-- The value of a state after the duration `dt`, given the closed forms of the other states in its
equation. `states` are all states of the system. -/
def closedForm (states : List String) (dt : String) (known : List (String × ExprId)) (r : Rate) :
    Build.Attempt α TransitionError ExprId := do
  let a ← (Build.derive r.state r.rhs).adapt fun e => ⟨r.state, .derivative e⟩
  let arena ← getThe (Arena α)
  if (dt :: states).any (arena.dependsOn a ·) then throw ⟨r.state, .notLinear⟩
  let zeroExpr ← (Build.zero : Build α ExprId)
  let g ← (Build.substitute (.ofList (known ++ [(r.state, zeroExpr)])) r.rhs : Build α ExprId)
  match ← (ExpPolynomial.decompose? dt g : Build α _) with
  | none => throw ⟨r.state, .forcing g dt⟩
  | some forcing => (solution r.state dt a forcing : Build α ExprId)

end Linear

end HybridPlan
