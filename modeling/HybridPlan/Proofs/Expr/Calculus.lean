import HybridPlan.Proofs.Expr.Polynomial

set_option autoImplicit false

/-! # Calculus of polynomials

Expressions that stand for polynomials are closed under substitution and differentiation: the
results stand for the polynomials with their variables replaced, and for the derivatives. -/

namespace HybridPlan.Build

open Exact (real)
open MvPolynomial (bind₁ pderiv)

/-! ## Literals -/

section

variable {a : Arena Exact} {x y : ExprId} {p : Poly} {r r' : ℝ}

theorem literal_pow {n : ℕ} (ha : a.WellFormed) (hx : a.Literal x r) (hy : a.Literal y n) :
    Leads (pow x y) a fun b e => b.Literal e (r ^ n) := by
  refine .get ?_
  dsimp only
  rw [hx.num?, hy.num?]
  split
  · next hzero =>
    rw [(isNum_natCast 0 (by simp)).1 hzero, pow_zero]
    exact literal_num ha Exact.one_eq
  split
  · next hone =>
    rw [(isNum_natCast 1 (by simp)).1 hone, pow_one]
    exact .pure ha hx
  · dsimp only
    rw [Exact.pow_natCast, if_pos Exact.isFinite_real]
    exact literal_num ha rfl

theorem literal_powInt (ha : a.WellFormed) (hx : a.Literal x r) (n : ℕ) :
    Leads (powInt x n) a fun b e => b.Literal e (r ^ n) :=
  .bind (literal_num ha (Exact.int_natCast n)) fun _ _ hb hab hn => literal_pow hb (hx.mono hab) hn

theorem represented_powInt (ha : a.WellFormed) (hx : a.Represents x p) (n : ℕ) :
    Represented (powInt x n) a (p ^ n) :=
  .bind (literal_num ha (Exact.int_natCast n)) fun _ _ hb hab hn =>
    represented_pow hb (hx.mono hab) hn

theorem literal_sub (ha : a.WellFormed) (hx : a.Literal x r) (hy : a.Literal y r') :
    Leads (sub x y) a fun b e => b.Literal e (r - r') := by
  unfold sub
  split
  · next heq =>
    subst heq
    rw [hx.unique hy, sub_self]
    exact literal_num ha Exact.zero_eq
  · refine .get ?_
    rw [hx.num?, hy.num?]
    exact literal_num ha Exact.real_sub_real

/-- A power is no number that is not real. -/
theorem real_pow (ha : a.WellFormed) (hx : a.Represents x p) (hy : a.Literal y r) :
    Leads (pow x y) a fun b e => ∀ u, b.num? e = some u → ∃ r, u = real r := by
  have hliteral : ∀ (b : Arena Exact) (e : ExprId) (r : ℝ), b.Literal e r →
      ∀ u, b.num? e = some u → ∃ r, u = real r := fun b e r h u hu =>
    ⟨r, Option.some.inj (hu.symm.trans h.num?)⟩
  have hintern : Leads (intern (.arith .pow x y)) a
      fun b e => ∀ u, b.num? e = some u → ∃ r, u = real r := by
    refine .intern ha ?_ fun b e _ he u hu => ?_
    · simpa [Node.operands] using ⟨hx.uses.lt_size, (Arena.Represents.num hy).uses.lt_size⟩
    · rw [Arena.num?, Arena.node_eq_of_getElem? he] at hu
      cases hu
  refine .get ?_
  dsimp only
  split
  · exact (literal_num ha Exact.one_eq).imp (hliteral · · 1)
  split
  · refine .pure ha fun u hu => ?_
    obtain ⟨r, hr, -⟩ := hx.literal hu
    exact ⟨r, hr⟩
  split
  · split
    · next hfinite =>
      obtain ⟨r, hr⟩ := Exact.isFinite_iff.1 hfinite
      exact (literal_num ha hr).imp (hliteral · · r)
    · exact hintern
  · exact hintern

/-- Nothing times a number that is not undefined is nothing. -/
theorem literal_zero_mul (ha : a.WellFormed) (hx : a.Literal x 0)
    (hy : ∀ u, a.num? y = some u → ∃ r, u = real r) :
    Leads (mul x y) a fun b e => b.Literal e 0 := by
  refine .get ?_
  rw [hx.num?]
  split
  · next u w hu hw =>
    cases hu
    obtain ⟨r, rfl⟩ := hy w hw
    rw [Exact.real_mul_real, zero_mul]
    exact literal_num ha rfl
  · rw [if_pos]
    · exact literal_num ha Exact.zero_eq
    · simp [isNum]

end

/-! ## Substitution -/

section

variable {a b : Arena Exact} {e x y : ExprId} {p q : Poly} {r : ℝ} {τ : String → Poly}
  {σ : Substitution}

theorem ring?_map {op : ArithOp} {f : Poly → Poly → Poly}
    (hop : op.ring? = some f) (φ : Poly →ₐ[ℝ] Poly) (p q : Poly) : φ (f p q) = f (φ p) (φ q) := by
  cases op with
  | add =>
    cases hop
    exact map_add φ p q
  | sub =>
    cases hop
    exact map_sub φ p q
  | mul =>
    cases hop
    exact map_mul φ p q
  | div | pow => cases hop

theorem represented_ring {op : ArithOp} {f : Poly → Poly → Poly} (hop : op.ring? = some f)
    (ha : a.WellFormed) (hx : a.Represents x p) (hy : a.Represents y q) :
    Represented (arith op x y) a (f p q) := by
  cases op with
  | add =>
    cases hop
    exact represented_add ha hx hy
  | sub =>
    cases hop
    exact represented_sub ha hx hy
  | mul =>
    cases hop
    exact represented_mul ha hx hy
  | div | pow => cases hop

/-- What `e` stands for in the arena `a`, `e'` stands for in the arena `b` with the variables
replaced, and literals are kept. -/
structure Replaced (τ : String → Poly) (a b : Arena Exact) (e e' : ExprId) : Prop where
  represents : ∀ p, a.Represents e p → b.Represents e' (bind₁ τ p)
  literal : ∀ r, a.Literal e r → b.Literal e' r

/-- What is no literal only has to stand for the right polynomial. -/
theorem Replaced.of_represents {e' : ExprId} (hnum : ∀ u, a.node e ≠ .num u)
    (h : ∀ p, a.NodeRepresents (a.node e) p → b.Represents e' (bind₁ τ p)) :
    Replaced τ a b e e' where
  represents p hp := h p hp.node
  literal _ hr := absurd (Arena.node_eq_of_getElem? hr) (hnum _)

/-- Constructors pass replacements on. -/
theorem transports_replaced (hσ : ∀ s e, σ s = some e → a.Represents e (τ s))
    (hτ : ∀ s, σ s = none → τ s = .X s) :
    Transports (.all Exact) σ a (Replaced τ a) where
  mono _ hbc h :=
    ⟨fun p hp => (h.related.represents p hp).mono hbc, fun r hr => (h.related.literal r hr).mono hbc⟩
  num {e u} he hn := by
    refine ⟨fun p hp => ?_, fun r hr => hr⟩
    have hnode := hp.node
    rw [hn] at hnode
    obtain ⟨r, -, rfl⟩ := hnode
    rwa [MvPolynomial.bind₁_C_right]
  sym {e s} he hn := by
    refine .of_represents (by simp [hn]) fun p hp => ?_
    rw [hn] at hp
    obtain rfl : p = .X s := hp
    rw [MvPolynomial.bind₁_X_right]
    cases hs : σ s with
    | some e' => exact hσ s e' hs
    | none =>
      rw [hτ s hs]
      exact .sym (hn ▸ he.getElem?)
  neg {b e x x'} hn hb hx _ _ := by
    refine .of_represents (by simp [hn]) fun p hp => ?_
    rw [hn] at hp
    obtain ⟨q, hq, rfl⟩ := hp
    rw [map_neg]
    exact (represented_neg hb (hx.related.represents q hq)).holds
  arith {b op e x y x' y'} hn hb hx hy _ _ := by
    refine .of_represents (by simp [hn]) fun p hp => ?_
    rw [hn] at hp
    cases op with
    | add | sub | mul =>
      obtain ⟨f, q, q', hop, hq, hq', rfl⟩ := hp
      rw [ring?_map hop]
      exact (represented_ring hop hb (hx.related.represents q hq)
        (hy.related.represents q' hq')).holds
    | pow =>
      obtain ⟨q, n, hq, hn, rfl⟩ := hp
      rw [map_pow]
      exact (represented_pow hb (hx.related.represents q hq) (hy.related.literal n hn)).holds
    | div =>
      obtain ⟨q, r, hq, hr, hne, rfl⟩ := hp
      rw [map_mul, MvPolynomial.bind₁_C_right]
      exact (represented_div hb (hx.related.represents q hq) (hy.related.literal r hr) hne).holds
  call hn _ _ _ _ := .of_represents (by simp [hn]) fun p hp => by
    rw [hn] at hp
    exact hp.elim
  compare hn _ _ _ _ _ := .of_represents (by simp [hn]) fun p hp => by
    rw [hn] at hp
    exact hp.elim
  join hn _ _ _ _ _ := .of_represents (by simp [hn]) fun p hp => by
    rw [hn] at hp
    exact hp.elim

/-- A substitution replaces the variables of the polynomial. -/
theorem represented_substitute (hσ : ∀ s e, σ s = some e → a.Represents e (τ s))
    (hτ : ∀ s, σ s = none → τ s = .X s) (ha : a.WellFormed) (he : a.Represents e p) :
    Represented (substitute σ e) a (bind₁ τ p) := by
  obtain ⟨hwf, hle, hstands⟩ := (transports_replaced hσ hτ).substitute
    (fun s x hs => (hσ s x hs).uses) ha he.uses
  exact ⟨hwf, hle, hstands.related.represents p he⟩

end

/-! ## Differentiation -/

/-- What `e` stands for in the arena `a`, has in the arena `b` the derivative `d`, and the derivative
of a literal is zero. -/
structure Derived (t : String) (a b : Arena Exact) (e d : ExprId) : Prop where
  represents : ∀ p, a.Represents e p → b.Represents d (pderiv t p)
  literal : ∀ r, a.Literal e r → b.Literal d 0

section

variable {a b : Arena Exact} {e x y dx dy : ExprId} {p q : Poly} {r : ℝ} {t : String}

/-- What is no literal only has to have the right derivative. -/
theorem Derived.of_represents {d : ExprId} (hnum : ∀ u, a.node e ≠ .num u)
    (h : ∀ p, a.NodeRepresents (a.node e) p → b.Represents d (pderiv t p)) :
    Derived t a b e d where
  represents p hp := h p hp.node
  literal _ hr := absurd (Arena.node_eq_of_getElem? hr) (hnum _)

/-- The rule of powers with natural exponents. -/
theorem represented_derivePow {n : ℕ} (ha : a.WellFormed) (hx : a.Represents x p)
    (hy : a.Literal y n) (hdx : a.Represents dx q) (hdy : a.Literal dy 0) :
    Represented (derivePow e x y dx dy) a (n * p ^ (n - 1) * q) := by
  refine .get ?_
  rw [if_pos hdy.isZero]
  refine .bind (literal_num ha Exact.one_eq) fun one b hb hab hone => ?_
  refine .bind (literal_sub hb (hy.mono hab) hone) fun lower c hc hbc hlower => ?_
  have hac : a ≤ c := le_trans hab hbc
  have hyc : c.Literal y n := hy.mono hac
  have hxc : c.Represents x p := hx.mono hac
  by_cases hn : n = 0
  · -- the factor zero makes the rest vanish, which is no polynomial
    subst hn
    rw [Nat.cast_zero] at hyc
    rw [Nat.cast_zero, zero_mul]
    refine .bind (real_pow hc hxc hlower) fun power d hd hcd hpower => ?_
    refine .bind (literal_zero_mul hd (hyc.mono hcd) hpower) fun coefficient b' hb' hdb' hzero => ?_
    have hcoefficient : b'.Represents coefficient 0 := by
      rw [← map_zero MvPolynomial.C]
      exact .num hzero
    exact represented_mul hb' hcoefficient (hdx.mono (le_trans hac (le_trans hcd hdb')))
  · have hlower : c.Literal lower ((n - 1 : ℕ) : ℝ) := by
      rwa [Nat.cast_sub (Nat.one_le_iff_ne_zero.2 hn), Nat.cast_one]
    refine .bind (represented_pow hc hxc hlower) fun power d hd hcd hpower => ?_
    have hyd : d.Represents y (n : Poly) := by
      rw [← map_natCast MvPolynomial.C]
      exact .num (hyc.mono hcd)
    refine .bind (represented_mul hd hyd hpower) fun coefficient b' hb' hdb' hcoefficient => ?_
    exact represented_mul hb' hcoefficient (hdx.mono (le_trans hac (le_trans hcd hdb')))

/-- The rule of quotients, for numbers as divisors. -/
theorem represented_deriveDiv {p' : Poly} (ha : a.WellFormed) (hx : a.Represents x p)
    (hy : a.Literal y r) (hr : r ≠ 0) (hdx : a.Represents dx p') (hdy : a.Literal dy 0) :
    Represented (deriveArith .div e x y dx dy) a (.C r⁻¹ * p') := by
  have hvalue : (.C r⁻¹ * p' : Poly) = .C (r ^ 2)⁻¹ * (p' * .C r - p * .C 0) := by
    have hC : (.C r⁻¹ : Poly) = .C (r ^ 2)⁻¹ * .C r := by
      rw [← map_mul]
      congr 1
      field_simp
    rw [hC, map_zero]
    ring
  rw [hvalue]
  refine .bind (represented_mul ha hdx (.num hy)) fun l b hb hab hl => ?_
  refine .bind (represented_mul hb (hx.mono hab) (.num (hdy.mono hab))) fun r' c hc hbc hr' => ?_
  refine .bind (represented_sub hc (hl.mono hbc) hr') fun numerator d hd hcd hnumerator => ?_
  have had : a ≤ d := le_trans hab (le_trans hbc hcd)
  refine .bind (literal_powInt hd (hy.mono had) 2) fun denominator b' hb' hdb' hdenominator => ?_
  exact represented_div hb' (hnumerator.mono hdb') hdenominator (pow_ne_zero 2 hr)

/-- The rules of arithmetic, for operands with derivatives. -/
theorem represented_deriveArith (op : ArithOp) (hb : b.WellFormed) (hab : a ≤ b)
    (hx : Derived t a b x dx) (hy : Derived t a b y dy) (hp : a.NodeRepresents (.arith op x y) p) :
    Represented (deriveArith op e x y dx dy) b (pderiv t p) := by
  cases op with
  | add =>
    obtain ⟨f, q, q', hop, hq, hq', rfl⟩ := hp
    cases hop
    rw [map_add]
    exact represented_add hb (hx.represents q hq) (hy.represents q' hq')
  | sub =>
    obtain ⟨f, q, q', hop, hq, hq', rfl⟩ := hp
    cases hop
    rw [map_sub]
    exact represented_sub hb (hx.represents q hq) (hy.represents q' hq')
  | mul =>
    obtain ⟨f, q, q', hop, hq, hq', rfl⟩ := hp
    cases hop
    rw [MvPolynomial.pderiv_mul]
    refine .bind (represented_mul hb (hx.represents q hq) (hq'.mono hab)) fun l c hc hbc hl => ?_
    refine .bind (represented_mul hc (hq.mono (le_trans hab hbc)) ((hy.represents q' hq').mono hbc))
      fun r d hd hcd hr => ?_
    exact represented_add hd (hl.mono hcd) hr
  | pow =>
    obtain ⟨q, n, hq, hn, rfl⟩ := hp
    rw [MvPolynomial.pderiv_pow]
    exact represented_derivePow hb (hq.mono hab) (hn.mono hab) (hx.represents q hq) (hy.literal n hn)
  | div =>
    obtain ⟨q, r, hq, hr, hne, rfl⟩ := hp
    rw [MvPolynomial.pderiv_C_mul]
    exact represented_deriveDiv hb (hq.mono hab) (hr.mono hab) hne (hx.represents q hq)
      (hy.literal r hr)

/-- The rules of differentiation pass derivatives on. -/
theorem differentiates_derived : Differentiates t a (Derived t a) where
  mono _ hbc h :=
    ⟨fun p hp => (h.related.represents p hp).mono hbc, fun r hr => (h.related.literal r hr).mono hbc⟩
  num {b e u} hn hb _ _ := by
    have hzero := (literal_num hb Exact.zero_eq).holds
    refine ⟨fun p hp => ?_, fun r hr => hzero⟩
    have hnode := hp.node
    rw [hn] at hnode
    obtain ⟨r, -, rfl⟩ := hnode
    rw [MvPolynomial.pderiv_C]
    exact (represented_zero hb).holds
  sym {b e s} hn hb _ _ := by
    refine .of_represents (by simp [hn]) fun p hp => ?_
    rw [hn] at hp
    obtain rfl : p = .X s := hp
    split
    · next hs =>
      rw [hs, MvPolynomial.pderiv_X_self]
      exact (represented_one hb).holds
    · next hs =>
      rw [MvPolynomial.pderiv_X_of_ne hs]
      exact (represented_zero hb).holds
  neg {b e x dx} hn hb hx _ _ := by
    refine .of_represents (by simp [hn]) fun p hp => ?_
    rw [hn] at hp
    obtain ⟨q, hq, rfl⟩ := hp
    rw [map_neg]
    exact (represented_neg hb (hx.related.represents q hq)).holds
  arith hn _ hb hab hx hy _ _ := .of_represents (by simp [hn]) fun p hp =>
    (represented_deriveArith _ hb hab hx.related hy.related (hn ▸ hp)).holds
  call hn _ _ _ _ _ _ := .of_represents (by simp [hn]) fun p hp => by
    rw [hn] at hp
    exact hp.elim

/-- The derivative of an expression stands for the derivative of its polynomial. -/
theorem leads_derive (t : String) (ha : a.WellFormed) (he : a.Represents e p) :
    (derive t e).Leads a fun b d => b.Represents d (pderiv t p) := by
  obtain ⟨d, b, hrun, hb, hab, hstands⟩ :=
    (differentiates_derived (t := t) (a := a)).derive ha he.differentiable
  exact ⟨d, b, hrun, hb, hab, hstands.related.represents p he⟩

end

end HybridPlan.Build
