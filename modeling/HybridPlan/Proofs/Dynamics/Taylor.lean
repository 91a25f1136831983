import HybridPlan.Dynamics.Series
import HybridPlan.Proofs.Expr.Polynomial
import Mathlib

set_option autoImplicit false

/-! # Taylor series along a flow

A derivation of the polynomials, such as the rate at which a quantity changes along the solutions of
a system of differential equations, has a Taylor series for each polynomial. The series of a product
is the product of the series, so the series of the right-hand sides are what the right-hand sides make
of the series of the states. -/

namespace HybridPlan

open MvPolynomial (X C pderiv bind₁ aeval)
open scoped Nat Polynomial

/-! ## Taylor series -/

section

variable (D : Derivation ℝ Poly Poly) (ε : Poly →ₐ[ℝ] Poly)

/-- The coefficients of the series are the derivatives at the start, over the factorials. -/
noncomputable def taylorLinear : Poly →ₗ[ℝ] PowerSeries Poly where
  toFun g := PowerSeries.mk fun k => (k ! : ℝ)⁻¹ • ε (D^[k] g)
  map_add' g h := by
    ext1 k
    simp [iterate_map_add]
  map_smul' r g := by
    ext1 k
    have hD : D^[k] (r • g) = r • D^[k] g :=
      (Function.Commute.iterate_left (fun p => D.map_smul r p) k : Function.Commute D^[k] (r • ·)) g
    simp [hD, smul_comm r]

theorem coeff_taylorLinear (g : Poly) (k : ℕ) :
    PowerSeries.coeff k (taylorLinear D ε g) = (k ! : ℝ)⁻¹ • ε (D^[k] g) :=
  PowerSeries.coeff_mk k fun k => (k ! : ℝ)⁻¹ • ε (D^[k] g)

/-- The series of the derivative is the derivative of the series. -/
theorem derivative_taylorLinear (g : Poly) :
    PowerSeries.derivative Poly (taylorLinear D ε g) = taylorLinear D ε (D g) := by
  ext1 k
  have hk : ((k + 1 : ℕ) : ℝ) ≠ 0 := Nat.cast_ne_zero.2 (Nat.succ_ne_zero k)
  have hcast : (k + 1 : Poly) = algebraMap ℝ Poly ((k + 1 : ℕ) : ℝ) := by simp
  rw [PowerSeries.coeff_derivative, coeff_taylorLinear, coeff_taylorLinear,
    Function.iterate_succ_apply, hcast, ← Algebra.commutes, ← Algebra.smul_def, smul_smul,
    Nat.factorial_succ, Nat.cast_mul, mul_inv, mul_inv_cancel_left₀ hk]

theorem coeff_taylorLinear_mul (n : ℕ) (g h : Poly) :
    PowerSeries.coeff n (taylorLinear D ε (g * h)) =
      PowerSeries.coeff n (taylorLinear D ε g * taylorLinear D ε h) := by
  induction n generalizing g h with
  | zero =>
    simp [PowerSeries.coeff_mul, coeff_taylorLinear]
  | succ n ih =>
    -- both coefficients are those of the derivatives, where the products are known
    have hn : (n + 1 : Poly) ≠ 0 := Nat.cast_add_one_ne_zero n
    have hderivative : PowerSeries.derivative Poly (taylorLinear D ε g * taylorLinear D ε h) =
        taylorLinear D ε g * taylorLinear D ε (D h) +
          taylorLinear D ε h * taylorLinear D ε (D g) := by
      rw [Derivation.leibniz, derivative_taylorLinear, derivative_taylorLinear, smul_eq_mul,
        smul_eq_mul]
    refine mul_right_cancel₀ hn ?_
    rw [← PowerSeries.coeff_derivative, ← PowerSeries.coeff_derivative, derivative_taylorLinear,
      hderivative, Derivation.leibniz, smul_eq_mul, smul_eq_mul, map_add, map_add, map_add, ih, ih]

/-- The Taylor series of polynomials. -/
noncomputable def taylor : Poly →ₐ[ℝ] PowerSeries Poly :=
  .ofLinearMap (taylorLinear D ε)
    (by
      ext1 k
      rw [coeff_taylorLinear]
      cases k with
      | zero => simp
      | succ k =>
        rw [Function.iterate_succ_apply, D.map_one_eq_zero, iterate_map_zero, map_zero, smul_zero,
          PowerSeries.coeff_one, if_neg (Nat.succ_ne_zero k)])
    (fun g h => PowerSeries.ext fun n => coeff_taylorLinear_mul D ε n g h)

variable {D ε}

theorem coeff_taylor (g : Poly) (k : ℕ) :
    PowerSeries.coeff k (taylor D ε g) = (k ! : ℝ)⁻¹ • ε (D^[k] g) :=
  coeff_taylorLinear D ε g k

theorem derivative_taylor (g : Poly) :
    PowerSeries.derivative Poly (taylor D ε g) = taylor D ε (D g) :=
  derivative_taylorLinear D ε g

/-- What does not change has the series that ends at once. -/
theorem taylor_eq_C {g : Poly} (h : D g = 0) : taylor D ε g = PowerSeries.C (ε g) := by
  ext1 k
  rw [coeff_taylor, PowerSeries.coeff_C]
  cases k with
  | zero => simp
  | succ k => simp [Function.iterate_succ_apply, h, iterate_map_zero]

/-- What changes at the rate one grows from zero as the duration. -/
theorem taylor_eq_X {g : Poly} (h : D g = 1) (hε : ε g = 0) :
    taylor D ε g = PowerSeries.X := by
  ext1 k
  rw [coeff_taylor, PowerSeries.coeff_X]
  rcases k with _ | _ | k
  · simp [hε]
  · simp [h]
  · simp [Function.iterate_succ_apply, h, iterate_map_zero]

end

/-! ## Flows -/

/-- The duration is zero, all other symbols stay. -/
noncomputable def atStart (dt : String) : Poly →ₐ[ℝ] Poly :=
  bind₁ fun s => if s = dt then 0 else X s

/-- The states are replaced, all other symbols stay. -/
noncomputable def along (states : List String) (c : String → Poly) :
    Poly →ₐ[ℝ] Poly :=
  bind₁ fun s => if s ∈ states then c s else X s

/-- The rate of change along the solutions of the system, where the states change at the rates
`f`. -/
noncomputable def flow (system : List Rate) (dt : String) (f : Rate → Poly) :
    Derivation ℝ Poly Poly :=
  pderiv dt + (system.map fun r => f r • pderiv r.state).sum

/-- The Taylor polynomial of `g` in the duration. -/
noncomputable def taylorSum (D : Derivation ℝ Poly Poly) (dt : String) (g : Poly)
    (n : ℕ) : Poly :=
  ∑ k ∈ Finset.range (n + 1), C (k ! : ℝ)⁻¹ * (atStart dt (D^[k] g) * X dt ^ k)

section

variable {system : List Rate} {dt s : String} {f : Rate → Poly} {g : Poly} {r : Rate}
  {D : Derivation ℝ Poly Poly}

theorem flow_apply (g : Poly) : flow system dt f g =
    pderiv dt g + (system.map fun r => f r * pderiv r.state g).sum := by
  have hsum : ∀ l : List Rate, (l.map fun r => f r • pderiv (R := ℝ) r.state).sum g =
      (l.map fun r => f r * pderiv r.state g).sum := fun l => by
    induction l with
    | nil => simp
    | cons r l ih => simp [ih]
  rw [flow, Derivation.add_apply, hsum]

theorem atStart_X_self : atStart dt (X dt) = 0 := by simp [atStart]

theorem atStart_X_of_ne (h : s ≠ dt) : atStart dt (X s) = X s := by simp [atStart, h]

theorem along_X {states : List String} {c : String → Poly} (h : s ∈ states) :
    along states c (X s) = c s := by simp [along, h]

theorem along_X_of_notMem {states : List String} {c : String → Poly} (h : s ∉ states) :
    along states c (X s) = X s := by simp [along, h]

/-- A symbol that is not a state does not change, unless it is the duration. -/
theorem sum_pderiv_X_eq_zero (h : ∀ r ∈ system, r.state ≠ s) :
    (system.map fun r => f r * pderiv r.state (X s : Poly)).sum = 0 := by
  refine List.sum_eq_zero fun p hp => ?_
  obtain ⟨r, hr, rfl⟩ := List.mem_map.1 hp
  rw [MvPolynomial.pderiv_X_of_ne (h r hr).symm, mul_zero]

theorem flow_X_dt (hdt : dt ∉ system.map (·.state)) : flow system dt f (X dt) = 1 := by
  rw [flow_apply, MvPolynomial.pderiv_X_self, sum_pderiv_X_eq_zero, add_zero]
  exact fun r hr h => hdt (List.mem_map.2 ⟨r, hr, h⟩)

theorem flow_X_of_notMem (hdt : s ≠ dt) (hs : s ∉ system.map (·.state)) :
    flow system dt f (X s) = 0 := by
  rw [flow_apply, MvPolynomial.pderiv_X_of_ne hdt, sum_pderiv_X_eq_zero, add_zero]
  exact fun r hr h => hs (List.mem_map.2 ⟨r, hr, h⟩)

/-- Each state changes at its rate. -/
theorem flow_X_state (hnodup : (system.map (·.state)).Nodup) (hdt : dt ∉ system.map (·.state))
    (hr : r ∈ system) : flow system dt f (X r.state) = f r := by
  have hne : r.state ≠ dt := fun h => hdt (h ▸ List.mem_map_of_mem hr)
  rw [flow_apply, MvPolynomial.pderiv_X_of_ne hne, zero_add]
  clear hdt hne
  induction system with
  | nil => exact absurd hr List.not_mem_nil
  | cons q system ih =>
    rw [List.map_cons, List.nodup_cons] at hnodup
    rw [List.map_cons, List.sum_cons]
    rcases List.mem_cons.1 hr with rfl | hr
    · rw [MvPolynomial.pderiv_X_self, mul_one, sum_pderiv_X_eq_zero, add_zero]
      exact fun q hq h => hnodup.1 (List.mem_map.2 ⟨q, hq, h⟩)
    · have hne : r.state ≠ q.state := fun h => hnodup.1 (h ▸ List.mem_map_of_mem hr)
      rw [MvPolynomial.pderiv_X_of_ne hne, mul_zero, zero_add, ih hnodup.2 hr]

theorem taylorSum_succ (n : ℕ) : taylorSum D dt g (n + 1) = taylorSum D dt g n +
    C ((n + 1)! : ℝ)⁻¹ * (atStart dt (D^[n + 1] g) * X dt ^ (n + 1)) :=
  Finset.sum_range_succ _ _

theorem taylorSum_zero : taylorSum D dt g 0 = atStart dt g := by simp [taylorSum]

theorem atStart_atStart (p : Poly) : atStart dt (atStart dt p) = atStart dt p := by
  refine AlgHom.congr_fun (MvPolynomial.algHom_ext (f := (atStart dt).comp (atStart dt)) fun s => ?_) p
  by_cases hs : s = dt
  · rw [AlgHom.comp_apply, hs, atStart_X_self, map_zero]
  · rw [AlgHom.comp_apply, atStart_X_of_ne hs, atStart_X_of_ne hs]

/-- At the start the polynomial has its start value. -/
theorem atStart_taylorSum (n : ℕ) : atStart dt (taylorSum D dt g n) = atStart dt g := by
  induction n with
  | zero => rw [taylorSum_zero, atStart_atStart]
  | succ n ih =>
    rw [taylorSum_succ, map_add, ih, map_mul, map_mul, map_pow, atStart_X_self,
      zero_pow (Nat.succ_ne_zero n), mul_zero, mul_zero, add_zero]

/-! ### Series in the duration -/

theorem taylor_pderiv_X : taylor (pderiv dt) (atStart dt) (X dt) = PowerSeries.X :=
  taylor_eq_X (MvPolynomial.pderiv_X_self dt) atStart_X_self

theorem taylor_pderiv_X_of_ne (h : s ≠ dt) :
    taylor (pderiv dt) (atStart dt) (X s) = PowerSeries.C (X s) := by
  rw [taylor_eq_C (MvPolynomial.pderiv_X_of_ne h), atStart_X_of_ne h]

/-- What is free of the duration has the series that ends at once. -/
theorem taylor_pderiv_atStart (p : Poly) :
    taylor (pderiv dt) (atStart dt) (atStart dt p) = PowerSeries.C (atStart dt p) := by
  have hfree : pderiv dt (atStart dt p) = 0 := by
    induction p using MvPolynomial.induction_on with
    | C r => rw [atStart, MvPolynomial.bind₁_C_right, MvPolynomial.pderiv_C]
    | add p q hp hq => rw [map_add, map_add, hp, hq, add_zero]
    | mul_X p s hp =>
      rw [map_mul, MvPolynomial.pderiv_mul, hp, zero_mul, zero_add]
      by_cases hs : s = dt
      · rw [hs, atStart_X_self, map_zero, mul_zero]
      · rw [atStart_X_of_ne hs, MvPolynomial.pderiv_X_of_ne hs, mul_zero]
  rw [taylor_eq_C hfree, atStart_atStart]

/-- The polynomial as one in the duration, whose coefficients are free of it. -/
noncomputable def inDuration (dt : String) : Poly →ₐ[ℝ] Poly[X] :=
  aeval fun s => if s = dt then .X else .C (X s)

theorem taylor_pderiv (p : Poly) :
    taylor (pderiv dt) (atStart dt) p = (inDuration dt p : PowerSeries Poly) := by
  induction p using MvPolynomial.induction_on with
  | C r =>
    rw [taylor_eq_C MvPolynomial.pderiv_C, inDuration, MvPolynomial.aeval_C, atStart,
      MvPolynomial.bind₁_C_right, Polynomial.algebraMap_apply, Polynomial.coe_C,
      MvPolynomial.algebraMap_eq]
  | add p q hp hq => rw [map_add, map_add, hp, hq, Polynomial.coe_add]
  | mul_X p s hp =>
    rw [map_mul, map_mul, hp, Polynomial.coe_mul, inDuration, MvPolynomial.aeval_X]
    by_cases hs : s = dt
    · rw [if_pos hs, hs, taylor_pderiv_X, Polynomial.coe_X]
    · rw [if_neg hs, taylor_pderiv_X_of_ne hs, Polynomial.coe_C]

theorem eval_inDuration (p : Poly) : (inDuration dt p).eval (X dt) = p := by
  induction p using MvPolynomial.induction_on with
  | C r =>
    rw [inDuration, MvPolynomial.aeval_C, Polynomial.algebraMap_apply, Polynomial.eval_C,
      MvPolynomial.algebraMap_eq]
  | add p q hp hq => rw [map_add, Polynomial.eval_add, hp, hq]
  | mul_X p s hp =>
    rw [map_mul, Polynomial.eval_mul, hp, inDuration, MvPolynomial.aeval_X]
    by_cases hs : s = dt
    · rw [if_pos hs, Polynomial.eval_X, hs]
    · rw [if_neg hs, Polynomial.eval_C]

/-- A polynomial is determined by its series in the duration. -/
theorem taylor_pderiv_injective (dt : String) :
    Function.Injective (taylor (pderiv dt) (atStart dt)) := by
  intro p q hpq
  rw [taylor_pderiv, taylor_pderiv, Polynomial.coe_inj] at hpq
  rw [← eval_inDuration p, ← eval_inDuration q, hpq]

/-- A Taylor polynomial has the series of which it is a part, if that ends there. -/
theorem taylor_taylorSum {n : ℕ} (h : D^[n + 1] g = 0) :
    taylor (pderiv dt) (atStart dt) (taylorSum D dt g n) = taylor D (atStart dt) g := by
  have hzero : ∀ k, n < k → D^[k] g = 0 := fun k hk => by
    obtain ⟨j, rfl⟩ := Nat.exists_eq_add_of_lt hk
    rw [show n + j + 1 = j + (n + 1) by omega, Function.iterate_add_apply, h, iterate_map_zero]
  ext1 k
  have hsum : ∀ j, taylor (pderiv dt) (atStart dt)
      (C (j ! : ℝ)⁻¹ * (atStart dt (D^[j] g) * X dt ^ j)) =
        PowerSeries.C ((j ! : ℝ)⁻¹ • atStart dt (D^[j] g)) * PowerSeries.X ^ j := fun j => by
    rw [← mul_assoc, map_mul, map_pow, taylor_pderiv_X, ← MvPolynomial.smul_eq_C_mul, ← map_smul,
      taylor_pderiv_atStart, map_smul]
  rw [taylorSum, map_sum, map_sum, coeff_taylor]
  simp only [hsum, PowerSeries.coeff_C_mul_X_pow]
  rw [Finset.sum_ite_eq]
  split
  · rfl
  · next hk =>
    rw [hzero k (by simpa using hk), map_zero, smul_zero]

/-- It does not matter at which end of the series the polynomial stops. -/
theorem taylorSum_unique {n m : ℕ} (hn : D^[n + 1] g = 0) (hm : D^[m + 1] g = 0) :
    taylorSum D dt g n = taylorSum D dt g m :=
  taylor_pderiv_injective dt (by rw [taylor_taylorSum hn, taylor_taylorSum hm])

/-- If the series of the states end, the states that they make satisfy the equations of the
system. -/
theorem pderiv_taylorSum (hnodup : (system.map (·.state)).Nodup) (hdt : dt ∉ system.map (·.state))
    {n : String → ℕ}
    (hends : ∀ s ∈ system.map (·.state), (flow system dt f)^[n s + 1] (X s) = 0)
    (hr : r ∈ system) : pderiv dt (taylorSum (flow system dt f) dt (X r.state) (n r.state)) =
      along (system.map (·.state)) (fun s => taylorSum (flow system dt f) dt (X s) (n s)) (f r) := by
  -- the series along the flow are those of the polynomials with the states replaced
  have hcomp : (taylor (pderiv dt) (atStart dt)).comp (along (system.map (·.state)) fun s =>
      taylorSum (flow system dt f) dt (X s) (n s)) = taylor (flow system dt f) (atStart dt) := by
    refine MvPolynomial.algHom_ext fun s => ?_
    rw [AlgHom.comp_apply]
    by_cases hs : s ∈ system.map (·.state)
    · rw [along_X hs, taylor_taylorSum (hends s hs)]
    rw [along_X_of_notMem hs]
    by_cases hsdt : s = dt
    · subst hsdt
      rw [taylor_pderiv_X, taylor_eq_X (flow_X_dt hdt) atStart_X_self]
    · rw [taylor_pderiv_X_of_ne hsdt, taylor_eq_C (flow_X_of_notMem hsdt hs), atStart_X_of_ne hsdt]
  refine taylor_pderiv_injective dt ?_
  calc taylor (pderiv dt) (atStart dt)
        (pderiv dt (taylorSum (flow system dt f) dt (X r.state) (n r.state)))
      = PowerSeries.derivative Poly (taylor (flow system dt f) (atStart dt) (X r.state)) := by
        rw [← derivative_taylor, taylor_taylorSum (hends _ (List.mem_map_of_mem hr))]
    _ = taylor (flow system dt f) (atStart dt) (f r) := by
        rw [derivative_taylor, flow_X_state hnodup hdt hr]
    _ = taylor (pderiv dt) (atStart dt) (along (system.map (·.state))
          (fun s => taylorSum (flow system dt f) dt (X s) (n s)) (f r)) := by
        rw [← hcomp, AlgHom.comp_apply]

end

end HybridPlan
