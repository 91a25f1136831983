import HybridPlan.Proofs.Expr.Interning
import HybridPlan.Proofs.Expr.Residual

set_option autoImplicit false

/-! # The sign of a residual

The residual of a constraint, unlike the constraint itself, does not tell a strict comparison from a
weak one: a number on the boundary fails a comparison by nothing. So the residual is not positive
exactly if the constraint holds with every comparison read as a weak one, however deep conjunctions
and disjunctions are nested. -/

namespace HybridPlan

open Exact (real)

namespace Arena

variable {a : Arena Exact} {v : Valuation Exact} {e : ExprId}

/-- A constraint of comparisons whose sides are real numbers, and which joins something wherever it
joins. -/
inductive Compared (a : Arena Exact) (v : Valuation Exact) : ExprId → Prop
  | compare {op : Comparison} {e x y : ExprId} {q r : ℝ} (he : a.node e = .compare op x y)
      (hx : a.eval v x = .ok (real q)) (hy : a.eval v y = .ok (real r)) : Compared a v e
  | join {c : Connective} {e : ExprId} {items : List ExprId} (he : a.node e = .join c items)
      (hitems : items ≠ []) (hi : ∀ i ∈ items, Compared a v i) : Compared a v e

/-- The constraint holds at what its sides are evaluated to, with every comparison read as a weak
one. -/
def HoldsWeakly (a : Arena Exact) (v : Valuation Exact) (e : ExprId) : Prop :=
  ∃ p, a.Judges ArithOp.apply (.truth fun op => op.weaken.Holds) v e p ∧ p

/-- Every judgement applies to such a constraint. -/
theorem Compared.exists_judges {Ω : Type} [Nonempty Ω] (J : Judgement Ω) (ha : a.WellFormed)
    (h : a.Compared v e) : ∃ ω, a.Judges ArithOp.apply J v e ω := by
  induction h with
  | compare he hx hy => exact ⟨_, .compare he ((eval_eq_ok ha).1 hx) ((eval_eq_ok ha).1 hy)⟩
  | join he _ _ ih =>
    choose! ω hω using ih
    exact ⟨_, .join he ω hω⟩

section

variable {op : Comparison} {x y : ExprId} {q r : ℝ} {items : List ExprId}

theorem holdsWeakly_compare (he : a.node e = .compare op x y)
    (hx : a.Value ArithOp.apply v x (real q)) (hy : a.Value ArithOp.apply v y (real r)) :
    a.HoldsWeakly v e ↔ op.weaken.Holds q r := by
  constructor
  · rintro ⟨p, hp, htrue⟩
    rwa [hp.unique (.compare he hx hy)] at htrue
  · intro h
    exact ⟨_, .compare he hx hy, h⟩

theorem holdsWeakly_and (he : a.node e = .join .and items) :
    a.HoldsWeakly v e ↔ ∀ i ∈ items, a.HoldsWeakly v i := by
  constructor
  · rintro ⟨p, hp, htrue⟩ i hi
    obtain ⟨f, hf, rfl⟩ := (judges_join he).1 hp
    exact ⟨f i, hf i hi, htrue _ (List.mem_map_of_mem hi)⟩
  · intro h
    choose! p hp htrue using h
    refine ⟨_, .join he p hp, ?_⟩
    intro ω hω
    obtain ⟨i, hi, rfl⟩ := List.mem_map.1 hω
    exact htrue i hi

/-- The parts of a disjunction that do not hold must have real sides as well. -/
theorem holdsWeakly_or (ha : a.WellFormed) (he : a.node e = .join .or items)
    (hitems : ∀ i ∈ items, a.Compared v i) :
    a.HoldsWeakly v e ↔ ∃ i ∈ items, a.HoldsWeakly v i := by
  constructor
  · rintro ⟨p, hp, htrue⟩
    obtain ⟨f, hf, rfl⟩ := (judges_join he).1 hp
    obtain ⟨ω, hω, htrue⟩ := htrue
    obtain ⟨i, hi, rfl⟩ := List.mem_map.1 hω
    exact ⟨i, hi, f i, hf i hi, htrue⟩
  · rintro ⟨i, hi, p, hp, htrue⟩
    choose! f hf using fun j hj => (hitems j hj).exists_judges
      (.truth fun op => op.weaken.Holds) ha
    refine ⟨_, .join he f hf, f i, List.mem_map_of_mem hi, ?_⟩
    rwa [← hp.unique (hf i hi)]

end

/-- The residual of a constraint is real, and its sign tells whether the constraint holds. -/
theorem Compared.exists_residual (ha : a.WellFormed) (h : a.Compared v e) :
    ∃ ρ : ℝ, a.Judges ArithOp.apply .extended v e (real ρ) ∧ (ρ ≤ 0 ↔ a.HoldsWeakly v e) := by
  induction h with
  | @compare op e x y q r he hx hy =>
    rw [eval_eq_ok ha] at hx hy
    refine ⟨op.excess q r, .compare he hx hy, ?_⟩
    rw [holdsWeakly_compare he hx hy]
    exact Comparison.excess_nonpos_iff
  | @join c e items he hitems hi ih =>
    choose! ρ hρ hsign using ih
    have hne : items.map ρ ≠ [] := by simpa using hitems
    refine ⟨Judgement.residual.join c (items.map ρ), ?_, ?_⟩
    · rw [← Judgement.extended_join_real hne, List.map_map]
      exact .join he _ hρ
    · cases c with
      | and =>
        rw [Judgement.residual_join_and hne, holdsWeakly_and he, List.forall_mem_map]
        exact forall₂_congr hsign
      | or =>
        rw [Judgement.residual_join_or hne, holdsWeakly_or ha he hi]
        simp only [List.mem_map, exists_exists_and_eq_and]
        exact exists_congr fun i => and_congr_right (hsign i)

/-- A residual that is not positive is within every tolerance that is not negative. -/
theorem not_exceeds_of_nonpos {params : SimulationParams Exact} {ρ : ℝ}
    (hparams : Scalar.le Scalar.zero params.tolerance = true) (hρ : ρ ≤ 0) :
    Stage.exceeds params (real ρ) = false := by
  rw [Exact.zero_eq, Exact.le_iff] at hparams
  rw [Stage.exceeds, ← Bool.not_eq_true, Exact.lt_iff]
  intro hlt
  cases htolerance : params.tolerance with
  | real τ =>
    rw [htolerance] at hparams hlt
    exact absurd (lt_of_le_of_lt hparams hlt) hρ.not_gt
  | infinite n =>
    rw [htolerance] at hparams hlt
    have hn : n = true := hlt
    rw [hn] at hparams
    exact Bool.false_ne_true hparams
  | undefined =>
    rw [htolerance] at hlt
    exact hlt

/-- The residual of a constraint is not positive if and only if the constraint holds with strict
comparisons read as weak ones; then no tolerance is exceeded, also where both sides are equal. -/
theorem residual_nonpos_iff (ha : a.WellFormed) (he : a.Compared v e) :
    ∃ ρ : ℝ, a.residual v e = .ok (real ρ) ∧ (ρ ≤ 0 ↔ a.HoldsWeakly v e) ∧
      ∀ params : SimulationParams Exact, Scalar.le Scalar.zero params.tolerance = true →
        a.HoldsWeakly v e → Stage.exceeds params (real ρ) = false := by
  obtain ⟨ρ, hresidual, hsign⟩ := he.exists_residual ha
  refine ⟨ρ, ((residual_eq_ok_iff ha).1 hresidual).1, hsign, ?_⟩
  intro params hparams hweakly
  exact not_exceeds_of_nonpos hparams (hsign.2 hweakly)

/-- A conjunction of a disjunction with one of its parts, at equal sides: none of its comparisons holds,
and yet it is not violated. -/
theorem residual_nonpos_iff_touching : ∃ (a : Arena Exact) (v : Valuation Exact)
    (x y b c d e : ExprId), a.WellFormed ∧ v "x" = some (real 3) ∧ v "y" = some (real 5) ∧
      a.node x = .sym "x" ∧ a.node y = .sym "y" ∧ a.node b = .compare .gt x y ∧ a.node c = .compare .lt x x ∧
      a.node d = .join .or [b, c] ∧ a.node e = .join .and [d, c] ∧ a.Compared v e ∧
      ∃ ρ : ℝ, a.residual v e = .ok (real ρ) ∧ ρ ≤ 0 ∧
        Stage.exceeds (⟨real 1, real 0, 32⟩ : SimulationParams Exact) (real ρ) = false := by
  obtain ⟨a, x, y, b, c, d, e, ha, hx, hy, hb, hc, hd, he⟩ : ∃ (a : Arena Exact)
      (x y b c d e : ExprId), a.WellFormed ∧ a.table.items[x]? = some (.sym "x") ∧
        a.table.items[y]? = some (.sym "y") ∧ a.table.items[b]? = some (.compare .gt x y) ∧
        a.table.items[c]? = some (.compare .lt x x) ∧ a.table.items[d]? = some (.join .or [b, c]) ∧
        a.table.items[e]? = some (.join .and [d, c]) := by
    obtain ⟨a₁, x, -, h₁, hx⟩ :=
      (Arena.wellFormed_empty (α := Exact)).exists_interned (.sym "x") (by simp [Node.operands])
    obtain ⟨a₂, y, hle₂, h₂, hy⟩ := h₁.exists_interned (.sym "y") (by simp [Node.operands])
    have hx := hle₂ hx
    obtain ⟨a₃, b, hle₃, h₃, hb⟩ := h₂.exists_interned (.compare .gt x y)
      (by simp [Node.operands, lt_size_of_getElem? hx, lt_size_of_getElem? hy, Has])
    have hx := hle₃ hx
    obtain ⟨a₄, c, hle₄, h₄, hc⟩ := h₃.exists_interned (.compare .lt x x)
      (by simp [Node.operands, lt_size_of_getElem? hx, Has])
    have hb := hle₄ hb
    obtain ⟨a₅, d, hle₅, h₅, hd⟩ := h₄.exists_interned (.join .or [b, c])
      (by simp [Node.operands, lt_size_of_getElem? hb, lt_size_of_getElem? hc, Has])
    have hc := hle₅ hc
    obtain ⟨a₆, e, hle₆, h₆, he⟩ := h₅.exists_interned (.join .and [d, c])
      (by simp [Node.operands, lt_size_of_getElem? hd, lt_size_of_getElem? hc, Has])
    exact ⟨a₆, x, y, b, c, d, e, h₆, hle₆ (hle₅ (hle₄ hx)), hle₆ (hle₅ (hle₄ (hle₃ hy))),
      hle₆ (hle₅ hb), hle₆ hc, hle₆ hd, he⟩
  have hxn := node_eq_of_getElem? hx
  have hyn := node_eq_of_getElem? hy
  have hbn := node_eq_of_getElem? hb
  have hcn := node_eq_of_getElem? hc
  have hdn := node_eq_of_getElem? hd
  have hen := node_eq_of_getElem? he
  let v : Valuation Exact := fun s => if s = "x" then some (real 3) else some (real 5)
  have hvx : a.Value ArithOp.apply v x (real 3) := .sym hxn rfl
  have hvy : a.Value ArithOp.apply v y (real 5) := .sym hyn rfl
  have hb' : a.Compared v b := .compare hbn ((eval_eq_ok ha).2 hvx) ((eval_eq_ok ha).2 hvy)
  have hc' : a.Compared v c := .compare hcn ((eval_eq_ok ha).2 hvx) ((eval_eq_ok ha).2 hvx)
  have hd' : a.Compared v d := .join hdn (by simp) (by simp [hb', hc'])
  have he' : a.Compared v e := .join hen (by simp) (by simp [hc', hd'])
  -- the second comparison touches its boundary, which is enough for both joined constraints
  have hcholds : a.HoldsWeakly v c := (holdsWeakly_compare hcn hvx hvx).2 (le_refl (3 : ℝ))
  have hdholds : a.HoldsWeakly v d :=
    (holdsWeakly_or ha hdn (by simp [hb', hc'])).2 ⟨c, by simp, hcholds⟩
  have heholds : a.HoldsWeakly v e := (holdsWeakly_and hen).2 (by simp [hcholds, hdholds])
  obtain ⟨ρ, hρ, hsign, hwithin⟩ := residual_nonpos_iff ha he'
  have hzero : Scalar.le Scalar.zero (real 0) = true := by
    rw [Exact.zero_eq, Exact.le_real]
  exact ⟨a, v, x, y, b, c, d, e, ha, rfl, rfl, hxn, hyn, hbn, hcn, hdn, hen, he', ρ, hρ,
    hsign.2 heholds, hwithin ⟨real 1, real 0, 32⟩ hzero heholds⟩

end Arena

end HybridPlan
