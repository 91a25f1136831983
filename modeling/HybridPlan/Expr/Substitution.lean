import HybridPlan.Expr.Arena

set_option autoImplicit false

/-! # Substitution

The simultaneous replacement of symbols by expressions: what replaces a symbol is not searched for
symbols again. The result is built with the folding constructors. -/

namespace HybridPlan

/-- What replaces each symbol; symbols without an entry stay. -/
abbrev Substitution := String → Option ExprId

/-- The substitution of a list of pairs. The last pair of a symbol counts. -/
def Substitution.ofList (pairs : List (String × ExprId)) : Substitution :=
  fun s => (pairs.reverse.find? (·.1 = s)).map (·.2)

namespace Build

variable {α : Type} [Scalar α]

/-- A construction that keeps a table of results for the nodes it has dealt with. -/
abbrev Tabled (α : Type) [Scalar α] := StateT (Std.HashMap ExprId ExprId) (Build α)

/-- Substitution down to the given number of levels. -/
def substituteBelow (σ : Substitution) : Nat → ExprId → Tabled α ExprId
  | 0, e => pure e
  | n + 1, e => do
    if let some r := (← get)[e]? then
      return r
    let r ← match (← getThe (Arena α)).node e with
      | .num _ => pure e
      | .sym s => pure ((σ s).getD e)
      | .neg x => do
        let x ← substituteBelow σ n x
        (neg x : Build α ExprId)
      | .arith op x y => do
        let x ← substituteBelow σ n x
        let y ← substituteBelow σ n y
        (arith op x y : Build α ExprId)
      | .call f args => do
        let args ← args.mapM (substituteBelow σ n)
        (call f args : Build α ExprId)
      | .compare op x y => do
        let x ← substituteBelow σ n x
        let y ← substituteBelow σ n y
        (compare op x y : Build α ExprId)
      | .join c items => do
        let items ← items.mapM (substituteBelow σ n)
        (join c items : Build α ExprId)
    modify (·.insert e r)
    return r

/-- The expression with its symbols replaced. -/
def substitute (σ : Substitution) (e : ExprId) : Build α ExprId :=
  (substituteBelow σ (e + 1) e).run' {}

end Build

end HybridPlan
