import HybridPlan.Proofs.Dynamics.Recursion
import HybridPlan.Proofs.Expr.Differential
import HybridPlan.Proofs.Expr.Evaluation

set_option autoImplicit false

/-! # Decompositions have the value of what is decomposed

Where an expression has a value, the terms of its decomposition have values that add up to it. The terms
are free of the variable, so that this is a function of the variable. -/

namespace HybridPlan.ExpPolynomial

open Build
open Exact (real)

section

variable {a b : Arena Exact} {ρ : String → ℝ} {v : Valuation Exact} {t : String}
  {ops : ArithOp → Exact → Exact → Exact} {terms ls rs : List ExpTerm} {term : ExpTerm}
  {κ μ γ γ' τ q q' r : ℝ} {e x y c₀ c₁ : ExprId} {k₀ k₁ : ℝ}

/-! ## Values of sums -/

/-- The value that the terms add up to where the variable is `τ`, over the values of coefficients and
rates. -/
inductive Sums (V : ExprId → ℝ → Prop) (τ : ℝ) : List ExpTerm → ℝ → Prop
  | nil : Sums V τ [] 0
  | cons {term : ExpTerm} {terms : List ExpTerm} {κ μ γ : ℝ} (hκ : V term.coefficient κ)
      (hμ : V term.rate μ) (h : Sums V τ terms γ) :
      Sums V τ (term :: terms) (κ * τ ^ term.power * Real.exp (μ * τ) + γ)

section

variable {V V' : ExprId → ℝ → Prop}

theorem Sums.imp (h : Sums V τ terms γ) (hV : ∀ term ∈ terms,
    (∀ κ, V term.coefficient κ → V' term.coefficient κ) ∧ ∀ μ, V term.rate μ → V' term.rate μ) :
    Sums V' τ terms γ := by
  induction h with
  | nil => exact .nil
  | cons hκ hμ _ ih =>
    obtain ⟨hcoefficient, hrate⟩ := hV _ List.mem_cons_self
    exact .cons (hcoefficient _ hκ) (hrate _ hμ) (ih fun term hterm => hV term (List.mem_cons_of_mem _ hterm))

theorem Sums.congr (h : Sums V τ terms γ) (hγ : γ' = γ) : Sums V τ terms γ' := by
  rwa [hγ]

theorem Sums.exists_rate (h : Sums V τ terms γ) (hterm : term ∈ terms) : ∃ μ, V term.rate μ := by
  induction h with
  | nil => exact absurd hterm List.not_mem_nil
  | cons _ hμ _ ih =>
    rcases List.mem_cons.1 hterm with rfl | hterm
    · exact ⟨_, hμ⟩
    · exact ih hterm

theorem Sums.append (hl : Sums V τ ls γ) (hr : Sums V τ rs γ') : Sums V τ (ls ++ rs) (γ + γ') := by
  induction hl with
  | nil => exact hr.congr (zero_add γ')
  | cons hκ hμ _ ih => exact (Sums.cons hκ hμ ih).congr (add_assoc _ _ _)

theorem sums_singleton (hκ : V term.coefficient κ) (hμ : V term.rate μ) :
    Sums V τ [term] (κ * τ ^ term.power * Real.exp (μ * τ)) :=
  (Sums.cons hκ hμ .nil).congr (add_zero _).symm

/-- What does not depend on the variable is a term without power and rate. -/
theorem sums_constant {zeroExpr : ExprId} (he : V e r) (hzero : V zeroExpr 0) :
    Sums V τ [⟨e, 0, zeroExpr⟩] r :=
  (sums_singleton he hzero).congr (by simp)

end

/-! ## Constructions -/

/-- The expression is one of the arena and has the value. -/
structure Known (ops : ArithOp → Exact → Exact → Exact) (v : Valuation Exact) (a : Arena Exact)
    (e : ExprId) (r : ℝ) : Prop where
  has : a.Has e
  value : a.Value ops v e (real r)

theorem Known.mono (ha : a.WellFormed) (hab : a ≤ b) (h : Known ops v a e r) : Known ops v b e r :=
  ⟨h.has.mono hab, (Arena.agreeBelow_of_le ha hab).value h.has h.value⟩

theorem Known.sums_mono (ha : a.WellFormed) (hab : a ≤ b) (h : Sums (Known ops v a) τ terms γ) :
    Sums (Known ops v b) τ terms γ :=
  h.imp fun _ _ => ⟨fun _ hκ => hκ.mono ha hab, fun _ hμ => hμ.mono ha hab⟩

theorem IsLiteral.known {u : Exact} (hx : IsLiteral a x u) (hu : u = real r) : Known ops v a x r := by
  refine ⟨Arena.lt_size_of_getElem? hx, .num ?_⟩
  rw [Arena.node_eq_of_getElem? hx, Exact.unsignedZero_eq, hu]

/-- A construction that has a value and stays in the arena. -/
theorem leads_known {m : Build Exact ExprId} (h : Valued ops v m a (real r))
    (hm : Extends m a Arena.Has) : Leads m a fun b e => Known ops v b e r := by
  obtain ⟨u, hu, hrefines⟩ := h
  rw [hrefines r rfl] at hu
  exact ⟨hm.wellFormed, hm.grows.le, hm.holds, hu⟩

theorem known_neg (ha : a.WellFormed) (hx : Known ops v a x r) :
    Leads (neg x) a fun b e => Known ops v b e (-r) :=
  leads_known (valued_neg ha hx.has hx.value) (extends_neg ha hx.has)

theorem known_exp (ha : a.WellFormed) (hx : Known ops v a x r) :
    Leads (call₁ .exp x) a fun b e => Known ops v b e (Real.exp r) :=
  leads_known (valued_call ha hx.has hx.value .exp) (extends_call₁ .exp ha hx.has)

variable (hops : ArithOp.Lawful ops)
include hops

theorem known_arith (op : ArithOp) (ha : a.WellFormed) (hx : Known ops v a x q)
    (hy : Known ops v a y q') (hr : op.apply (real q) (real q') = real r) :
    Leads (arith op x y) a fun b e => Known ops v b e r := by
  have hvalued := valued_arith ha hx.has hy.has hx.value hy.value hops op
  rw [hops.apply, hr] at hvalued
  exact leads_known hvalued (extends_arith op ha hx.has hy.has)

omit hops in
/-- Terms that are all multiplied by one number. -/
theorem sums_mapM {f : ExpTerm → Build Exact ExpTerm} {s : ℝ}
    (hf : ∀ b term κ μ, b.WellFormed → a ≤ b → Known ops v b term.coefficient κ →
      Known ops v b term.rate μ → Leads (f term) b fun c term' => ∃ κ' μ',
        Known ops v c term'.coefficient κ' ∧ Known ops v c term'.rate μ' ∧
          κ' * τ ^ term'.power * Real.exp (μ' * τ) = s * (κ * τ ^ term.power * Real.exp (μ * τ)))
    (ha : a.WellFormed) (h : Sums (Known ops v a) τ terms γ) :
    Leads (terms.mapM f) a fun b terms' => Sums (Known ops v b) τ terms' (s * γ) := by
  induction terms generalizing a γ with
  | nil =>
    cases h
    exact .pure ha (Sums.nil.congr (mul_zero s))
  | cons term terms ih =>
    cases h with
    | cons hκ hμ h =>
      rw [List.mapM_cons]
      refine .bind (hf a term _ _ ha (le_refl a) hκ hμ)
        fun term' b hb hab hterm' => ?_
      obtain ⟨κ', μ', hκ', hμ', hvalue⟩ := hterm'
      refine .bind (ih (fun c term κ μ hc hbc => hf c term κ μ hc (le_trans hab hbc)) hb
        (Known.sums_mono ha hab h)) fun terms' c hc hbc hterms => .pure hc ?_
      refine (Sums.cons (hκ'.mono hb hbc) (hμ'.mono hb hbc) hterms).congr ?_
      rw [hvalue, mul_add]

omit hops in
/-- Coefficients that are all multiplied by one number. -/
theorem sums_mapCoefficients {f : ExprId → Build Exact ExprId}
    (hf : ∀ b c κ, b.WellFormed → a ≤ b → Known ops v b c κ →
      Leads (f c) b fun b' c' => Known ops v b' c' (r * κ))
    (ha : a.WellFormed) (h : Sums (Known ops v a) τ terms γ) :
    Leads (mapCoefficients f terms) a fun b terms' => Sums (Known ops v b) τ terms' (r * γ) := by
  refine sums_mapM (fun b term κ μ hb hab hκ hμ => ?_) ha h
  refine .bind (hf b term.coefficient κ hb hab hκ) fun c b' hb' hbb' hc => .pure hb' ?_
  exact ⟨r * κ, μ, hc, hμ.mono hb hbb', by ring⟩

theorem sums_product (ha : a.WellFormed) (hl : Sums (Known ops v a) τ ls γ)
    (hr : Sums (Known ops v a) τ rs γ') :
    Leads (product ls rs) a fun b terms => Sums (Known ops v b) τ terms (γ * γ') := by
  refine .bind (P := fun b rows => Sums (Known ops v b) τ rows.flatten (γ * γ')) ?_
    fun rows b hb hab hrows => .pure hb hrows
  induction ls generalizing a γ with
  | nil =>
    cases hl
    exact .pure ha (Sums.nil.congr (zero_mul γ'))
  | cons l ls ih =>
    cases hl with
    | @cons _ _ κ μ _ hκ hμ hl =>
      rw [List.mapM_cons]
      -- one row is the other sum, multiplied by the value of one term
      have hrow : Leads (rs.mapM fun r => do
          let coefficient ← mul l.coefficient r.coefficient
          let rate ← add l.rate r.rate
          return (⟨coefficient, l.power + r.power, rate⟩ : ExpTerm)) a fun b terms =>
            Sums (Known ops v b) τ terms (κ * τ ^ l.power * Real.exp (μ * τ) * γ') := by
        refine sums_mapM (fun b term κ' μ' hb hab hκ' hμ' => ?_) ha hr
        refine .bind (known_arith hops .mul hb (hκ.mono ha hab) hκ' rfl)
          fun coefficient c hc hbc hc' => ?_
        have hac := le_trans hab hbc
        refine .bind (known_arith hops .add hc (hμ.mono ha hac) (hμ'.mono hb hbc) rfl)
          fun rate d hd hcd hrate => .pure hd ?_
        refine ⟨κ * κ', μ + μ', hc'.mono hc hcd, hrate, ?_⟩
        rw [pow_add, add_mul, Real.exp_add]
        ring
      refine .bind hrow fun row b hb hab hrow => ?_
      refine .bind (ih hb (Known.sums_mono ha hab hl) (Known.sums_mono ha hab hr))
        fun rows c hc hbc hrows => .pure hc ?_
      rw [List.flatten_cons]
      exact ((Known.sums_mono hb hbc hrow).append hrows).congr (by ring)

theorem sums_power {base acc : List ExpTerm} (n : ℕ) (ha : a.WellFormed)
    (hbase : Sums (Known ops v a) τ base γ) (hacc : Sums (Known ops v a) τ acc γ') :
    Leads (power base n acc) a fun b terms => Sums (Known ops v b) τ terms (γ' * γ ^ n) := by
  induction n generalizing a acc γ' with
  | zero => exact .pure ha (hacc.congr (by ring))
  | succ n ih =>
    refine .bind (sums_product hops ha hacc hbase) fun acc b hb hab hacc => ?_
    exact (ih hb (Known.sums_mono ha hab hbase) hacc).imp fun _ _ h => h.congr (by ring)

omit hops in
theorem Known.eq_zero (hx : Known ops v a x r) (hzero : a.isZero x) : r = 0 :=
  Exact.real.inj (eq_of_isZero (interprets_value ops v) hx.value hzero)

/-- A sum without rates and of low powers is split into its coefficients. -/
theorem known_splitLinear (ha : a.WellFormed) (h₀ : Known ops v a c₀ k₀) (h₁ : Known ops v a c₁ k₁)
    (h : Sums (Known ops v a) τ terms γ) : Leads (splitLinear c₀ c₁ terms) a fun b o => ∀ p,
      o = some p → ∃ k k', Known ops v b p.1 k ∧ Known ops v b p.2 k' ∧ k + k' * τ = k₀ + k₁ * τ + γ := by
  induction terms generalizing a c₀ c₁ k₀ k₁ γ with
  | nil =>
    cases h
    refine .pure ha fun p hp => ?_
    cases hp
    exact ⟨k₀, k₁, h₀, h₁, (add_zero _).symm⟩
  | cons term terms ih =>
    cases h with
    | @cons _ _ κ μ γ hκ hμ h =>
      refine .get ?_
      split
      · exact .pure ha fun p hp => (by cases hp)
      · next hzero =>
        rw [Bool.not_eq_true', Bool.not_eq_false] at hzero
        obtain rfl := hμ.eq_zero hzero
        split
        · next hpower =>
          refine .bind (known_arith hops .add ha h₀ hκ rfl) fun c b hb hab hc => ?_
          refine (ih hb hc (h₁.mono ha hab) (Known.sums_mono ha hab h)).imp fun b' o ho p hp => ?_
          obtain ⟨k, k', hk, hk', hsum⟩ := ho p hp
          refine ⟨k, k', hk, hk', ?_⟩
          rw [hsum, hpower, zero_mul, Real.exp_zero]
          ring
        · next hpower =>
          refine .bind (known_arith hops .add ha h₁ hκ rfl) fun c b hb hab hc => ?_
          refine (ih hb (h₀.mono ha hab) hc (Known.sums_mono ha hab h)).imp fun b' o ho p hp => ?_
          obtain ⟨k, k', hk, hk', hsum⟩ := ho p hp
          refine ⟨k, k', hk, hk', ?_⟩
          rw [hsum, hpower, zero_mul, Real.exp_zero]
          ring
        · exact .pure ha fun p hp => (by cases hp)

/-! ## Decompositions -/

omit hops in
/-- The exponent of a power that is worked out is a natural number. -/
theorem smallExponent?_eq_some {u : Exact} {k : ℕ} (h : smallExponent? u = some k) : u = real k := by
  unfold smallExponent? at h
  split at h
  · next n hn =>
    split at h
    · next hrange =>
      cases h
      cases u with
      | real r =>
        rw [Exact.toInt?_real, Exact.toInt?_eq_some] at hn
        rw [← hn, ← Int.toNat_of_nonneg hrange.1, Int.toNat_natCast, Int.cast_natCast]
      | infinite | undefined => cases hn
    · cases h
  · cases h

omit hops in
/-- The operands of an operator other than a power have real values where the operator has one. -/
theorem Known.operands {op : ArithOp} (hops : ArithOp.Lawful ops) (ha : a.WellFormed)
    (he : Known ops v a e r) (hn : a.node e = .arith op x y) (hop : op ≠ .pow) :
    ∃ q q', Known ops v a x q ∧ Known ops v a y q' ∧ op.apply (real q) (real q') = real r := by
  have hvalue := he.value
  obtain ⟨u, u', hu, hu', hr⟩ := hvalue.of_node hn
  obtain ⟨q, q', rfl, rfl, hreal⟩ | ⟨hpow, -⟩ := hops.real hr
  · exact ⟨q, q', ⟨ha.has_operand he.has (by simp [hn, Node.operands]), hu⟩,
      ⟨ha.has_operand he.has (by simp [hn, Node.operands]), hu'⟩, hreal⟩
  · exact absurd hpow hop

omit hops in
theorem Known.of_neg (ha : a.WellFormed) (he : Known ops v a e r) (hn : a.node e = .neg x) :
    ∃ q, Known ops v a x q ∧ r = -q := by
  have hvalue := he.value
  obtain ⟨u, hu, hr⟩ := hvalue.of_node hn
  obtain ⟨q, rfl, rfl⟩ := Exact.neg_eq_real.1 hr
  exact ⟨q, ⟨ha.has_operand he.has (by simp [hn, Node.operands]), hu⟩, rfl⟩

omit hops in
/-- A power zero has a value even where its base has none. -/
theorem Known.of_pow {k : ℕ} (hops : ArithOp.Lawful ops) (ha : a.WellFormed)
    (he : Known ops v a e r) (hn : a.node e = .arith .pow x y) (hk : a.num? y = some (real k)) :
    (∃ q, Known ops v a x q ∧ r = q ^ k) ∨ k = 0 ∧ r = 1 := by
  have hvalue := he.value
  obtain ⟨u, w, hu, hw, hr⟩ := hvalue.of_node hn
  obtain rfl : real k = w := (interprets_value ops v).literal hw hk
  obtain ⟨q, _, rfl, ⟨⟩, hr⟩ | ⟨-, hzero, rfl⟩ := hops.real hr
  · rw [ArithOp.apply, Exact.powReal_real, Exact.pow_natCast] at hr
    exact .inl ⟨q, ⟨ha.has_operand he.has (by simp [hn, Node.operands]), hu⟩,
      (Exact.real.inj hr).symm⟩
  · exact .inr ⟨Nat.cast_eq_zero.1 (Exact.real.inj hzero), rfl⟩

omit hops in
theorem Known.of_exp (ha : a.WellFormed) (he : Known ops v a e r)
    (hn : a.node e = .call (.elementary .exp) [x]) : ∃ q, Known ops v a x q ∧ r = Real.exp q := by
  have hvalue := he.value
  obtain ⟨u, hu, hr⟩ := hvalue.of_node hn
  obtain ⟨q, rfl, hr⟩ := Exact.value_eq_real.1 hr
  exact ⟨q, ⟨ha.has_operand he.has (by simp [hn, Node.operands]), hu⟩, (Exact.real.inj hr).symm⟩

omit hops in
/-- A value in a larger arena is one that the expression had before. -/
theorem Known.of_le (ha : a.WellFormed) (hab : a ≤ b) (he : a.Has e) (h : Known ops v b e r) :
    Known ops v a e r := by
  refine ⟨he, ?_⟩
  have hagree := Arena.agreeBelow_of_le ha hab
  exact hagree.symm.value he h.value

omit hops in
/-- A sum that refers to expressions of the arena, and whose values add up to that of an expression. -/
theorem leads_sums {m : Build Exact (List ExpTerm)} (ha : a.WellFormed) (he : a.Has e)
    (hm : Leads m a (Consists fun _ => True)) (h : ∀ r, Known ops v a e r →
      Leads m a fun b terms => Sums (Known ops v b) τ terms r) :
    Leads m a fun b terms => Consists (fun _ => True) b terms ∧
      ∀ r, Known ops v b e r → Sums (Known ops v b) τ terms r :=
  ⟨hm.wellFormed, hm.le, hm.holds, fun r hr => (h r (hr.of_le ha hm.le he)).holds⟩

/-- The values of terms add up to that of the expression. -/
theorem inherited_sums (hτ : ∀ u, v t = some u → u = real τ) :
    Inherited t (fun _ => True) fun a e terms => Consists (fun _ => True) a terms ∧
      ∀ r, Known ops v a e r → Sums (Known ops v a) τ terms r where
  opposite := (inherited_has t).opposite
  mono ha hab he h :=
    ⟨h.1.mono hab, fun r hr => Known.sums_mono ha hab (h.2 r (hr.of_le ha hab he.lt_size))⟩
  free ha he hdepends hzero := by
    refine ⟨(inherited_has t).free ha he hdepends hzero, fun r hr => ?_⟩
    split
    · next hz => exact Sums.nil.congr (hr.eq_zero hz)
    · exact sums_constant hr (hzero.known Exact.zero_eq)
  sym ha he hn hzero hone := by
    refine ⟨(inherited_has t).sym ha he hn hzero hone, fun r hr => ?_⟩
    have hvalue := hr.value
    rw [Arena.value_iff, hn] at hvalue
    obtain rfl := Exact.real.inj (hτ _ hvalue)
    exact (sums_singleton (hone.known Exact.one_eq) (hzero.known Exact.zero_eq)).congr (by simp)
  neg ha he hn h := by
    refine leads_sums ha he.lt_size ((inherited_has t).neg ha he hn h.1) fun r hr => ?_
    obtain ⟨q, hx, rfl⟩ := hr.of_neg ha hn
    have hneg := sums_mapCoefficients (r := -1) (fun b c κ hb _ hκ => by
      rw [neg_one_mul]
      exact known_neg hb hκ) ha (h.2 q hx)
    exact hneg.imp fun _ _ hsums => hsums.congr (neg_one_mul q).symm
  add ha he hn hl hr := by
    refine ⟨(inherited_has t).add ha he hn hl.1 hr.1, fun r hvalue => ?_⟩
    obtain ⟨q, q', hx, hy, hsum⟩ := hvalue.operands hops ha hn (by simp)
    obtain rfl : q + q' = r := Exact.real.inj hsum
    exact (hl.2 q hx).append (hr.2 q' hy)
  sub {a b e x y ls rs} ha he hn hb hab hl hr := by
    refine ⟨(inherited_has t).sub ha he hn hb hab hl.1 hr.1, fun r hvalue => ?_⟩
    have hy := he.operand (x := y) (by simp [hn, Node.operands])
    have hle := le_trans (extends_neg ha hy.lt_size).grows.le hab
    obtain ⟨q, q', hx, hy, hdifference⟩ := (hvalue.of_le ha hle he.lt_size).operands hops ha hn (by simp)
    obtain rfl : q - q' = r := Exact.real.inj hdifference
    have hneg := known_neg ha hy
    rw [sub_eq_add_neg]
    exact (hl.2 q (hx.mono ha hle)).append (hr.2 (-q') (hneg.holds.mono hneg.wellFormed hab))
  mul ha he hn hl hr := by
    refine leads_sums ha he.lt_size ((inherited_has t).mul ha he hn hl.1 hr.1) fun r hvalue => ?_
    obtain ⟨q, q', hx, hy, hproduct⟩ := hvalue.operands hops ha hn (by simp)
    obtain rfl : q * q' = r := Exact.real.inj hproduct
    exact sums_product hops ha (hl.2 q hx) (hr.2 q' hy)
  div {a e x y terms} ha he hn hdepends h := by
    refine leads_sums ha he.lt_size ((inherited_has t).div ha he hn hdepends h.1) fun r hvalue => ?_
    obtain ⟨q, q', hx, hy, hquotient⟩ := hvalue.operands hops ha hn (by simp)
    obtain ⟨_, _, ⟨⟩, ⟨⟩, hne, rfl⟩ := Exact.div_eq_real.1 hquotient
    have hdiv := sums_mapCoefficients (r := q'⁻¹) (f := (Build.div · y)) (fun b c κ hb hab hκ => by
      rw [← div_eq_inv_mul]
      exact known_arith hops .div hb hκ (hy.mono ha hab) (Exact.real_div_real hne)) ha (h.2 q hx)
    exact hdiv.imp fun _ _ hsums => hsums.congr (div_eq_inv_mul q q')
  pow {a e x y u k base zeroExpr one} ha he hn hu hk h hzero hone := by
    refine leads_sums ha he.lt_size ((inherited_has t).pow ha he hn hu hk h.1 hzero hone) fun r hvalue => ?_
    have hunit : Sums (Known ops v a) τ [⟨one, 0, zeroExpr⟩] 1 :=
      sums_constant (hone.known Exact.one_eq) (hzero.known Exact.zero_eq)
    obtain rfl := smallExponent?_eq_some hk
    obtain ⟨q, hx, rfl⟩ | ⟨rfl, rfl⟩ := hvalue.of_pow hops ha hn hu
    · exact (sums_power hops k ha (h.2 q hx) hunit).imp fun _ _ hsums => hsums.congr (one_mul _).symm
    · exact .pure ha hunit
  exp {a e x terms zeroExpr} ha he hn h hzero := by
    have hhas := (inherited_has t).exp ha he hn h.1 hzero
    refine ⟨hhas.wellFormed, hhas.le, fun c₀ c₁ hc => ?_⟩
    have hcall := hhas.holds c₀ c₁ hc
    refine ⟨hcall.wellFormed, hcall.le, hcall.holds, fun r hr => ?_⟩
    obtain ⟨q, hx, rfl⟩ := (hr.of_le ha (le_trans hhas.le hcall.le) he.lt_size).of_exp ha hn
    have hz : Known ops v a zeroExpr 0 := hzero.known Exact.zero_eq
    obtain ⟨k, k', hk, hk', hsum⟩ := (known_splitLinear hops ha hz hz (h.2 q hx)).holds (c₀, c₁) hc
    refine (sums_singleton (known_exp hhas.wellFormed hk).holds
      (hk'.mono hhas.wellFormed hcall.le)).congr ?_
    rw [zero_mul, add_zero, zero_add] at hsum
    rw [← hsum, Real.exp_add, pow_zero, mul_one]

end

/-! ## Steady terms -/

section

variable {a b : Arena Exact} {ρ : String → ℝ} {t : String} {terms : List ExpTerm} {term : ExpTerm}
  {γ q q' r : ℝ} {e x y : ExprId}

/-- The expression is free of the variable and has the value. -/
structure Steady (a : Arena Exact) (ρ : String → ℝ) (t : String) (e : ExprId) (r : ℝ) : Prop where
  free : a.Free t e
  denotes : a.Denotes (fun s => some (real (ρ s))) e r

theorem Steady.mono (ha : a.WellFormed) (hab : a ≤ b) (h : Steady a ρ t e r) : Steady b ρ t e r :=
  ⟨h.free.mono hab, (Arena.agreeBelow_of_le ha hab).denotes h.free.lt_size h.denotes⟩

theorem steady_arith (op : ArithOp) (ha : a.WellFormed) (hx : Steady a ρ t x q)
    (hy : Steady a ρ t y q') (hr : op.apply (real q) (real q') = real r) :
    Leads (arith op x y) a fun b e => Steady b ρ t e r :=
  (leads_arith op ha hx.free hy.free hx.denotes hy.denotes hr).imp fun _ _ h => ⟨h.1, h.2⟩

/-- The value that the terms add up to; their coefficients and rates are free of the variable. -/
abbrev Totals (a : Arena Exact) (ρ : String → ℝ) (t : String) : List ExpTerm → ℝ → Prop :=
  Sums (Steady a ρ t) (ρ t)

theorem Totals.mono (ha : a.WellFormed) (hab : a ≤ b) (h : Totals a ρ t terms γ) :
    Totals b ρ t terms γ :=
  h.imp fun _ _ => ⟨fun _ hκ => hκ.mono ha hab, fun _ hμ => hμ.mono ha hab⟩

/-- The terms of a decomposition add up to the value of the expression. -/
theorem leads_decompose? (ha : a.WellFormed) (he : a.IsReal e)
    (hγ : a.Denotes (fun s => some (real (ρ s))) e γ) :
    Leads (decompose? t e) a fun b o => ∀ terms, o = some terms → Totals b ρ t terms γ := by
  have hsums := (inherited_sums (v := fun s => some (real (ρ s))) (t := t) (τ := ρ t)
    ArithOp.lawful_strictly fun u hu => (Option.some.inj hu).symm).leads ha (he.imp fun _ _ => trivial)
  have hP := arithmetical_allows (Vocabulary.closed_ofReals (· ≠ t))
  have hR := arithmetical_allows (Vocabulary.closed_ofReals fun _ => True)
  have hfree := (inherited_consists (t := t) hP hR.neg
    fun ha he hdepends => Arena.Uses.free ha he hdepends).leads ha he
  obtain ⟨hb, hab, hsums, hfree⟩ := hsums.and hfree
  refine ⟨hb, hab, fun terms ho => ?_⟩
  have hvalue := (Arena.agreeBelow_of_le ha hab).denotes he.lt_size hγ
  refine ((hsums terms ho).2 γ ⟨he.lt_size.trans_le (Arena.size_mono hab),
    Arena.denotes_iff_value.1 hvalue⟩).imp fun term hterm => ?_
  obtain ⟨hcoefficient, hrate⟩ := hfree terms ho term hterm
  exact ⟨fun κ hκ => ⟨hcoefficient, Arena.denotes_iff_value.2 hκ.value⟩,
    fun μ hμ => ⟨hrate, Arena.denotes_iff_value.2 hμ.value⟩⟩

end

/-! ## Expansion -/

/-- Where an expression has one value at most, the value of the sum is one over the list of terms. -/
theorem Sums.exists_value {V : ExprId → ℝ → Prop} {τ γ : ℝ} {terms : List ExpTerm}
    (hV : ∀ x r r', V x r → V x r' → r = r') (h : Sums V τ terms γ) :
    ∃ value : ExprId → ℝ,
      (∀ term ∈ terms, V term.coefficient (value term.coefficient) ∧ V term.rate (value term.rate)) ∧
        (terms.map fun term => value term.coefficient * τ ^ term.power *
          Real.exp (value term.rate * τ)).sum = γ := by
  classical
  let value (x : ExprId) : ℝ := if hx : ∃ r, V x r then hx.choose else 0
  have hvalue {x : ExprId} {r : ℝ} (hr : V x r) : value x = r := by
    have hx : ∃ r, V x r := ⟨r, hr⟩
    exact (dif_pos hx).trans (hV x _ _ hx.choose_spec hr)
  refine ⟨value, ?_⟩
  induction h with
  | nil => exact ⟨fun _ hterm => absurd hterm List.not_mem_nil, rfl⟩
  | cons hκ hμ _ ih =>
    obtain ⟨hterms, hsum⟩ := ih
    refine ⟨List.forall_mem_cons.2 ⟨?_, hterms⟩, ?_⟩
    · rw [hvalue hκ, hvalue hμ]
      exact ⟨hκ, hμ⟩
    · rw [List.map_cons, List.sum_cons, hsum, hvalue hκ, hvalue hμ]

/-- A decomposition follows its equation, and comes to an end: whatever is put in place of the recursion
below the levels that it has is never asked. The terms are free of the variable, and where the expression
has a real value they have values that add up to it. -/
theorem decomposition_evaluates (t : String) :
    (∀ {α : Type} [Scalar α] (a : Arena α) (e : ExprId), a.WellFormed → a.Has e →
      (decomposeStep t (fun x => OptionT.mk (decompose? t x)) e).run.run a = (decompose? t e).run a ∧
      (∀ f, ((decomposeStep t)^[2 * (e + 1)] f e).run.run a = (decompose? t e).run a) ∧
      ∀ terms b, (decompose? t e).run a = (some terms, b) → ∀ term ∈ terms,
        b.dependsOn term.coefficient t = false ∧ b.dependsOn term.rate t = false) ∧
    ∀ (a : Arena Exact) (e : ExprId), a.WellFormed → a.Has e →
      ∀ terms b, (decompose? t e).run a = (some terms, b) →
        ∀ (v : Valuation Exact) (τ r : ℝ), (∀ u, v t = some u → u = real τ) → a.eval v e = .ok (real r) →
          ∃ value : ExprId → ℝ,
            (∀ term ∈ terms, b.eval v term.coefficient = .ok (real (value term.coefficient)) ∧
              b.eval v term.rate = .ok (real (value term.rate))) ∧
            (terms.map fun term => value term.coefficient * τ ^ term.power *
              Real.exp (value term.rate * τ)).sum = r := by
  refine ⟨fun a e ha he => ⟨run_decomposeStep ha he, fun f => run_iterate f ha he (.inl (le_refl _)),
    fun terms b hrun => ((free_decompose? ha he).of_run hrun).2.2 terms rfl⟩,
    fun a e ha he terms b hrun v τ r hτ hr => ?_⟩
  have hsums := (inherited_sums (v := v) ArithOp.lawful_apply hτ).leads ha
    ((Arena.madeOf_iff ha he).2 fun _ _ => trivial)
  obtain ⟨hb, hab, hsums⟩ := hsums.of_run hrun
  have hvalue := (Arena.agreeBelow_of_le ha hab).value he ((Arena.eval_eq_ok ha).1 hr)
  have hunique (x : ExprId) (r r' : ℝ) (h : Known ArithOp.apply v b x r)
      (h' : Known ArithOp.apply v b x r') : r = r' := Exact.real.inj (h.value.unique h'.value)
  obtain ⟨value, hterms, hsum⟩ := ((hsums terms rfl).2 r ⟨he.mono hab, hvalue⟩).exists_value hunique
  refine ⟨value, fun term hterm => ?_, hsum⟩
  obtain ⟨hcoefficient, hrate⟩ := hterms term hterm
  exact ⟨(Arena.eval_eq_ok hb).2 hcoefficient.value, (Arena.eval_eq_ok hb).2 hrate.value⟩

theorem IsLiteral.isZero {a : Arena Exact} {x : ExprId} (hx : IsLiteral a x Scalar.zero) :
    a.isZero x = true := by
  rw [Arena.isZero, Arena.num?, Arena.node_eq_of_getElem? hx, Exact.unsignedZero_eq]
  exact Exact.isZero_iff.2 Exact.zero_eq

/-- The exponential function of the variable has a decomposition. -/
theorem leads_decompose?_exp {a : Arena Exact} {t : String} {x e : ExprId} (ha : a.WellFormed)
    (he : a.Has e) (hn : a.node e = .call (.elementary .exp) [x]) (hx : a.node x = .sym t) :
    Leads (decompose? t e) a fun _ o => ∃ terms, o = some terms := by
  have hdepends {b : Arena Exact} {y : ExprId} (hb : b.WellFormed) (hy : b.Reachable y x)
      (hx : b.node x = .sym t) : b.dependsOn y t = true := (Arena.dependsOn_iff hb).2 ⟨x, hy, hx⟩
  have hxe : a.Has x := ha.has_operand he (by simp [hn, Node.operands])
  change Leads (decomposeBelow t (2 * e + 1 + 1) e).run a _
  rw [decomposeBelow, decomposeStep]
  refine leads_run_lift (leads_literal ha _) fun zeroExpr b hb hab hzero => leads_run_look ?_
  have hnb := (Arena.node_mono hab he).trans hn
  have hxb := (Arena.node_mono hab hxe).trans hx
  have hreach : b.Reachable e x := .single (by simp [hnb, Node.operands])
  rw [if_neg (by simp [hdepends hb hreach hxb]), hnb]
  have hsym : Leads (decomposeBelow t (2 * e + 1) x).run b fun c o =>
      ∃ terms, o = some terms ∧ ∃ one z, terms = [⟨one, 1, z⟩] ∧ IsLiteral c z Scalar.zero ∧
        c.Has one := by
    rw [decomposeBelow, decomposeStep]
    refine leads_run_lift (leads_literal hb _) fun z c hc hbc hz => leads_run_look ?_
    have hxc := (Arena.node_mono hbc (hxe.mono hab)).trans hxb
    rw [if_neg (by simp [hdepends hc .refl hxc]), hxc]
    refine leads_run_lift (leads_literal hc _) fun one d hd hcd hone => .pure hd ?_
    exact ⟨_, rfl, one, z, rfl, hcd hz, Arena.lt_size_of_getElem? hone⟩
  refine leads_run_bind hsym fun terms c hc hbc hterms => ?_
  obtain ⟨one, z, rfl, hz, hone⟩ := hterms
  have hsplit : Leads (splitLinear zeroExpr zeroExpr [⟨one, 1, z⟩]) c fun d o =>
      ∃ p, o = some p ∧ d.Has p.1 := by
    refine .get ?_
    rw [if_neg (by simp [hz.isZero])]
    have hzero := Arena.lt_size_of_getElem? (hbc hzero)
    have hadd := extends_arith .add hc hzero hone
    refine .bind (P := fun _ _ => True) ⟨hadd.wellFormed, hadd.grows.le, trivial⟩ fun k d hd hcd _ => ?_
    exact .pure hd ⟨_, rfl, Arena.Has.mono hzero hcd⟩
  refine leads_run_bind hsplit fun p d hd hcd hp => ?_
  have hcall := extends_call₁ .exp hd hp
  exact leads_run_lift (P := fun _ _ => True) ⟨hcall.wellFormed, hcall.grows.le, trivial⟩
    fun coefficient b' hb' _ _ => .pure hb' ⟨_, rfl⟩

/-- The exponential function of the variable comes to terms whose values add up to its own. -/
theorem decomposition_evaluates_exp : ∃ (a : Arena Exact) (x e : ExprId) (terms : List ExpTerm)
    (b : Arena Exact), a.node x = .sym "t" ∧ a.node e = .call (.elementary .exp) [x] ∧
      (decompose? "t" e).run a = (some terms, b) ∧
      (∀ term ∈ terms, b.dependsOn term.coefficient "t" = false ∧ b.dependsOn term.rate "t" = false) ∧
      ∀ τ : ℝ, ∃ value : ExprId → ℝ,
        (∀ term ∈ terms, b.eval (fun _ => some (real τ)) term.coefficient =
            .ok (real (value term.coefficient)) ∧
          b.eval (fun _ => some (real τ)) term.rate = .ok (real (value term.rate))) ∧
        (terms.map fun term => value term.coefficient * τ ^ term.power *
          Real.exp (value term.rate * τ)).sum = Real.exp τ := by
  obtain ⟨a₁, x, -, h₁, hx⟩ :=
    (Arena.wellFormed_empty (α := Exact)).exists_interned (.sym "t") (by simp [Node.operands])
  obtain ⟨a, e, hle, ha, he⟩ := h₁.exists_interned (.call (.elementary .exp) [x])
    (by simp [Node.operands, Arena.lt_size_of_getElem? hx, Arena.Has])
  have hx := Arena.node_eq_of_getElem? (hle hx)
  have hhas : a.Has e := Arena.lt_size_of_getElem? he
  have he := Arena.node_eq_of_getElem? he
  obtain ⟨terms, hterms⟩ := (leads_decompose?_exp ha hhas he hx).holds
  have hrun : (decompose? "t" e).run a = (some terms, ((decompose? "t" e).run a).2) :=
    Prod.ext hterms rfl
  obtain ⟨hgeneral, hvalues⟩ := decomposition_evaluates "t"
  refine ⟨a, x, e, terms, _, hx, he, hrun, (hgeneral a e ha hhas).2.2 terms _ hrun, fun τ => ?_⟩
  have htime : a.Value ArithOp.apply (fun _ => some (real τ)) x (real τ) := .sym hx rfl
  have hvalue : a.Value ArithOp.apply (fun _ => some (real τ)) e (real (Real.exp τ)) := .call he htime
  exact hvalues a e ha hhas terms _ hrun (fun _ => some (real τ)) τ _
    (fun u hu => (Option.some.inj hu).symm) ((Arena.eval_eq_ok ha).2 hvalue)

end HybridPlan.ExpPolynomial
