import HybridPlan.Proofs.Expr.Residual
import HybridPlan.Proofs.Expr.Replacement

set_option autoImplicit false

/-! # Substitution and evaluation

To replace symbols by expressions is to give the symbols the values of the expressions: a substituted
expression has the value that the expression has where each replaced symbol stands for the value of
its replacement. All of these values are those before the substitution, so that a replacement that
mentions a replaced symbol still means that symbol. -/

namespace HybridPlan

open Exact (real)

/-- The valuation in which each symbol with a replacement has the value of its replacement. It has no
value if the replacement has none. -/
def Valuation.rebind {α : Type} [Scalar α] (a : Arena α) (σ : Substitution) (v : Valuation α) :
    Valuation α :=
  fun s => match σ s with
    | some x => (a.eval v x).toOption
    | none => v s

namespace Valuation

variable {α : Type} [Scalar α] {a : Arena α} {σ : Substitution} {v : Valuation α} {s : String}

theorem rebind_of_some {x : ExprId} (hs : σ s = some x) : rebind a σ v s = (a.eval v x).toOption := by
  simp [rebind, hs]

theorem rebind_of_none (hs : σ s = none) : rebind a σ v s = v s := by
  simp [rebind, hs]

end Valuation

namespace Build

variable {a : Arena Exact} {σ : Substitution} {v : Valuation Exact} {e : ExprId}

theorem rebinds_rebind (ha : a.WellFormed) : Rebinds ArithOp.apply a (v.rebind a σ) v σ where
  value s x u hs hu := by
    rw [Valuation.rebind_of_some hs] at hu
    cases hx : a.eval v x with
    | error error =>
      rw [hx] at hu
      cases hu
    | ok w =>
      rw [hx] at hu
      cases hu
      exact ⟨u, (Arena.eval_eq_ok ha).1 hx, .rfl⟩
  keeps s u hs hu := by rwa [Valuation.rebind_of_none hs] at hu

/-- A symbol becomes its replacement as it is, whatever symbols this mentions. -/
theorem run_substitute_sym {α : Type} [Scalar α] {a : Arena α} {s : String} {x : ExprId}
    (he : a.node e = .sym s) (hs : σ s = some x) : (substitute σ e).run a = (x, a) := by
  have hends : (substituteBelow σ (e + 1) e).Ends {} a fun e' _ b => (e', b) = (x, a) := by
    unfold substituteBelow
    refine .lookup ?_
    dsimp only
    split
    · next e' he' => simp at he'
    · refine .look ?_
      rw [he]
      change ((σ s).getD e, a) = (x, a)
      rw [hs, Option.getD_some]
  exact hends

/-- Wherever an expression has a value, and a constraint a residual, after each replaced symbol has
been given the value of its replacement, what the substitution makes of it has the same one. -/
theorem substitute_evaluates (ha : a.WellFormed) (he : a.Has e)
    (hσ : ∀ s x, σ s = some x → a.Has x) (v : Valuation Exact) :
    (∀ r, a.eval (v.rebind a σ) e = .ok (real r) →
      ((substitute σ e).run a).2.eval v ((substitute σ e).run a).1 = .ok (real r)) ∧
    (∀ u, Scalar.isUndefined u = false → a.residual (v.rebind a σ) e = .ok u →
      ((substitute σ e).run a).2.residual v ((substitute σ e).run a).1 = .ok u) ∧
    ∀ s x, a.node e = .sym s → σ s = some x → (substitute σ e).run a = (x, a) := by
  have hcarried :=
    (carries_conveys ArithOp.lawful_apply (rebinds_rebind (v := v) ha)).substitute hσ ha he
  have hb := hcarried.wellFormed
  have hconveys := hcarried.holds.related
  refine ⟨fun r hr => ?_, fun u hdefined hu => ?_, fun s x => run_substitute_sym⟩
  · obtain ⟨u', hu', hrefines⟩ := hconveys.value _ ((Arena.eval_eq_ok ha).1 hr)
    rw [hrefines r rfl] at hu'
    exact (Arena.eval_eq_ok hb).2 hu'
  · have hjudged := (Arena.residual_eq_ok_iff ha).2 ⟨hu, hdefined⟩
    exact ((Arena.residual_eq_ok_iff hb).1 (hconveys.judges _ u hjudged)).1

/-- Two symbols that are replaced by each other swap their values, in a difference as in a
comparison. -/
theorem substitute_evaluates_swapped :
    ∃ (a : Arena Exact) (x y e c : ExprId) (σ : Substitution) (v : Valuation Exact),
      v "x" = some (real 3) ∧ v "y" = some (real 5) ∧ σ "x" = some y ∧ σ "y" = some x ∧
      a.node x = .sym "x" ∧ a.node e = .arith .sub x y ∧ a.node c = .compare .le x y ∧
      ((substitute σ e).run a).2.eval v ((substitute σ e).run a).1 = .ok (real (5 - 3)) ∧
      ((substitute σ c).run a).2.residual v ((substitute σ c).run a).1 =
        .ok (real (Comparison.le.excess 5 3)) ∧
      (substitute σ x).run a = (y, a) := by
  obtain ⟨a, x, y, e, c, ha, hx, hy, he, hc⟩ : ∃ (a : Arena Exact) (x y e c : ExprId), a.WellFormed ∧
      a.table.items[x]? = some (.sym "x") ∧ a.table.items[y]? = some (.sym "y") ∧
      a.table.items[e]? = some (.arith .sub x y) ∧ a.table.items[c]? = some (.compare .le x y) := by
    obtain ⟨a₁, x, -, h₁, hx⟩ :=
      (Arena.wellFormed_empty (α := Exact)).exists_interned (.sym "x") (by simp [Node.operands])
    obtain ⟨a₂, y, hle₂, h₂, hy⟩ := h₁.exists_interned (.sym "y") (by simp [Node.operands])
    have hx := hle₂ hx
    obtain ⟨a₃, e, hle₃, h₃, he⟩ := h₂.exists_interned (.arith .sub x y)
      (by simp [Node.operands, Arena.lt_size_of_getElem? hx, Arena.lt_size_of_getElem? hy, Arena.Has])
    have hx := hle₃ hx
    have hy := hle₃ hy
    obtain ⟨a₄, c, hle₄, h₄, hc⟩ := h₃.exists_interned (.compare .le x y)
      (by simp [Node.operands, Arena.lt_size_of_getElem? hx, Arena.lt_size_of_getElem? hy, Arena.Has])
    exact ⟨a₄, x, y, e, c, h₄, hle₄ hx, hle₄ hy, hle₄ he, hc⟩
  let σ : Substitution := fun s => if s = "x" then some y else if s = "y" then some x else none
  let v : Valuation Exact := fun s =>
    if s = "x" then some (real 3) else if s = "y" then some (real 5) else none
  have hσ : ∀ s z, σ s = some z → a.Has z := by
    intro s z hs
    by_cases hsx : s = "x"
    · obtain rfl : y = z := by simpa [σ, hsx] using hs
      exact Arena.lt_size_of_getElem? hy
    · by_cases hsy : s = "y"
      · obtain rfl : x = z := by simpa [σ, hsy] using hs
        exact Arena.lt_size_of_getElem? hx
      · simp [σ, hsx, hsy] at hs
  have hxn := Arena.node_eq_of_getElem? hx
  have hyn := Arena.node_eq_of_getElem? hy
  have hen := Arena.node_eq_of_getElem? he
  have hcn := Arena.node_eq_of_getElem? hc
  have hvx : a.Value ArithOp.apply v x (real 3) := .sym hxn rfl
  have hvy : a.Value ArithOp.apply v y (real 5) := .sym hyn rfl
  -- each symbol has the value of the other one
  have hx' : a.Value ArithOp.apply (v.rebind a σ) x (real 5) := by
    refine .sym hxn ?_
    rw [Valuation.rebind_of_some (x := y) rfl, (Arena.eval_eq_ok ha).2 hvy]
    rfl
  have hy' : a.Value ArithOp.apply (v.rebind a σ) y (real 3) := by
    refine .sym hyn ?_
    rw [Valuation.rebind_of_some (x := x) rfl, (Arena.eval_eq_ok ha).2 hvx]
    rfl
  have hvalue : a.eval (v.rebind a σ) e = .ok (real (5 - 3)) :=
    (Arena.eval_eq_ok ha).2 (.arith hen hx' hy')
  have hresidual : a.residual (v.rebind a σ) c = .ok (real (Comparison.le.excess 5 3)) :=
    ((Arena.residual_eq_ok_iff ha).1 (.compare hcn hx' hy')).1
  exact ⟨a, x, y, e, c, σ, v, rfl, rfl, rfl, rfl, hxn, hen, hcn,
    (substitute_evaluates ha (Arena.lt_size_of_getElem? he) hσ v).1 _ hvalue,
    (substitute_evaluates ha (Arena.lt_size_of_getElem? hc) hσ v).2.1 _ Exact.isUndefined_real
      hresidual,
    (substitute_evaluates ha (Arena.lt_size_of_getElem? hx) hσ v).2.2 _ _ hxn rfl⟩

end Build

end HybridPlan
