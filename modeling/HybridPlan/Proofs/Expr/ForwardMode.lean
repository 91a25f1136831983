import HybridPlan.Proofs.Expr.Deriving
import HybridPlan.Proofs.Expr.Rate

set_option autoImplicit false

/-! # Differentiation evaluates over dual numbers

The derivative of an expression has the rate of the expression as its value, wherever both are
defined: the rate is what the evaluation of the expression over dual numbers ends with. The rules
of differentiation are sound for every interpretation of expressions that gives a meaning to the
derivative of a power whose base is not positive; rates do, and values need not. -/

namespace HybridPlan

open Exact (real)
open TrivSqZeroExt (fst snd inl inr)

namespace Build

variable {t : String} {a b : Arena Exact} {v : Valuation Exact} {e x y dx dy : ExprId} {u : Exact}
  {q q' r : ℝ} {p p' w : DualNumber ℝ} {V : Arena Exact → ExprId → Exact → Prop}

/-! ## Interpretations of constructions -/

/-- The expression of the arena is interpreted by this number. -/
structure Rated (V : Arena Exact → ExprId → Exact → Prop) (r : ℝ) (b : Arena Exact) (d : ExprId) :
    Prop where
  has : b.Has d
  holds : V b d (real r)

theorem Rated.mono (h : Rated V r a x) (hV : Interprets ArithOp.apply V) (ha : a.WellFormed)
    (hab : a ≤ b) : Rated V r b x :=
  ⟨h.has.mono hab, hV.mono ha hab h.has h.holds⟩

theorem Extends.rated {m : Build Exact ExprId} (h : Extends m a Arena.Has)
    (hr : Interpreted V m a (real r)) : Extends m a (Rated V r) := by
  obtain ⟨u', hu', hrefines⟩ := hr
  rw [hrefines r rfl] at hu'
  exact ⟨h.wellFormed, h.grows, h.holds, hu'⟩

section

variable (hV : Interprets ArithOp.apply V)
include hV

theorem rated_num (ha : a.WellFormed) (hu : u = real r) : Extends (num u) a (Rated V r) := by
  subst hu
  exact (extends_num ha _).rated (interpreted_num hV ha)

theorem rated_neg (ha : a.WellFormed) (hx : Rated V q a x) : Extends (neg x) a (Rated V (-q)) :=
  (extends_neg ha hx.has).rated (interpreted_neg hV ha hx.has hx.holds)

theorem rated_arith (op : ArithOp) (ha : a.WellFormed) (hx : Rated V q a x) (hy : Rated V q' a y)
    (hr : op.apply (real q) (real q') = real r) : Extends (arith op x y) a (Rated V r) := by
  refine (extends_arith op ha hx.has hy.has).rated ?_
  rw [← hr]
  exact interpreted_arith hV ha hx.has hy.has hx.holds hy.holds ArithOp.lawful_apply op

theorem rated_call₁ (f : Elementary) (ha : a.WellFormed) (hx : Rated V q a x)
    (hr : f.value (real q) = real r) : Extends (call₁ f x) a (Rated V r) := by
  refine (extends_call₁ f ha hx.has).rated ?_
  rw [← hr]
  exact interpreted_call hV ha hx.has hx.holds f

theorem rated_powInt (n : ℕ) (ha : a.WellFormed) (hx : Rated V q a x) :
    Extends (powInt x n) a (Rated V (q ^ n)) := by
  refine .bind (rated_num hV ha (Exact.int_natCast n)) fun exponent b hb hab hexponent => ?_
  refine rated_arith hV .pow hb (hx.mono hV ha hab) hexponent ?_
  rw [ArithOp.apply, Exact.powReal_real, Exact.pow_natCast]

/-! ## The rules -/

/-- The rule for exponents that do not change. -/
theorem rated_powConst {lower : ℝ} (ha : a.WellFormed) (hx : Rated V (fst p) a x)
    (hy : Rated V (fst p') a y) (hdx : Rated V (snd p) a dx) (hzero : a.isZero dy = true)
    (hlower : Exact.pow (fst p) (fst p' - 1) = some lower) :
    Extends (derivePow e x y dx dy) a (Rated V (fst p' * lower * snd p)) := by
  refine .get ?_
  rw [if_pos hzero]
  refine .bind (rated_num hV ha Exact.one_eq) fun one b hb hab hone => ?_
  refine .bind (rated_arith hV .sub hb (hy.mono hV ha hab) hone rfl) fun l c hc hbc hl => ?_
  have hac : a ≤ c := le_trans hab hbc
  have hpower : ArithOp.pow.apply (real (fst p)) (real (fst p' - 1)) = real lower := by
    rw [ArithOp.apply, Exact.powReal_real, Exact.pow_eq_real]
    exact ⟨_, _, rfl, rfl, hlower⟩
  refine .bind (rated_arith hV .pow hc (hx.mono hV ha hac) hl hpower) fun pow d hd hcd hpow => ?_
  have had : a ≤ d := le_trans hac hcd
  refine .bind (rated_arith hV .mul hd (hy.mono hV ha had) hpow rfl) fun k b' hb' hdb' hk => ?_
  exact rated_arith hV .mul hb' hk (hdx.mono hV ha (le_trans had hdb')) rfl

/-- The rule for exponents that change, if the base is positive. -/
theorem rated_powExp (ha : a.WellFormed) (he : Rated V q a e) (hx : Rated V (fst p) a x)
    (hy : Rated V (fst p') a y) (hdx : Rated V (snd p) a dx) (hdy : Rated V (snd p') a dy)
    (hzero : a.isZero dy = false) (hpos : 0 < fst p) :
    Extends (derivePow e x y dx dy) a
      (Rated V (q * (snd p' * Real.log (fst p) + fst p' * snd p / fst p))) := by
  refine .get ?_
  rw [if_neg (by simp [hzero])]
  have hlogarithm : Elementary.log.value (real (fst p)) = real (Real.log (fst p)) :=
    Exact.log_eq_real.2 ⟨_, rfl, hpos, rfl⟩
  refine .bind (rated_call₁ hV .log ha hx hlogarithm) fun log b hb hab hlog => ?_
  refine .bind (rated_arith hV .mul hb (hdy.mono hV ha hab) hlog rfl) fun l c hc hbc hl => ?_
  have hac : a ≤ c := le_trans hab hbc
  refine .bind (rated_arith hV .mul hc (hy.mono hV ha hac) (hdx.mono hV ha hac) rfl)
    fun scaled d hd hcd hscaled => ?_
  have had : a ≤ d := le_trans hac hcd
  refine .bind (rated_arith hV .div hd hscaled (hx.mono hV ha had) (Exact.real_div_real hpos.ne'))
    fun quotient b' hb' hdb' hquotient => ?_
  refine .bind (rated_arith hV .add hb' (hl.mono hV hc (le_trans hcd hdb')) hquotient rfl)
    fun sum c' hc' hbc' hsum => ?_
  exact rated_arith hV .mul hc' (he.mono hV ha (le_trans had (le_trans hdb' hbc'))) hsum rfl

/-- The rule of powers, if it is known what it does where the exponent does not change, but is not seen
not to, and the base is not positive. -/
theorem rated_derivePow (ha : a.WellFormed) (hw : ArithOp.pow.dual? p p' = some w)
    (he : Rated V (fst w) a e) (hx : Rated V (fst p) a x) (hy : Rated V (fst p') a y)
    (hdx : Rated V (snd p) a dx) (hdy : Rated V (snd p') a dy)
    (hlog : a.isZero dy = false → snd p' = 0 → fst p ≤ 0 →
      Extends (derivePow e x y dx dy) a (Rated V (snd w))) :
    Extends (derivePow e x y dx dy) a (Rated V (snd w)) := by
  cases hzero : a.isZero dy with
  | true =>
    have hconst : snd p' = 0 := Exact.real.inj (eq_of_isZero hV hdy.holds hzero)
    obtain ⟨power, lower, -, hlower, rfl⟩ := (ArithOp.dual?_pow_of_snd_eq_zero hconst).1 hw
    simpa using rated_powConst hV ha hx hy hdx hzero hlower
  | false =>
    by_cases hpos : 0 < fst p
    · have hlogarithmic := rated_powExp hV ha he hx hy hdx hdy hzero hpos
      rw [ArithOp.dual?_pow_of_pos hpos] at hw
      obtain rfl := Option.some.inj hw
      simpa using hlogarithmic
    · refine hlog hzero ?_ (not_lt.1 hpos)
      by_contra hne
      exact hpos (ArithOp.pos_of_dual?_pow hw hne)

theorem rated_deriveArith (op : ArithOp) (ha : a.WellFormed) (hw : op.dual? p p' = some w)
    (he : Rated V (fst w) a e) (hx : Rated V (fst p) a x) (hy : Rated V (fst p') a y)
    (hdx : Rated V (snd p) a dx) (hdy : Rated V (snd p') a dy)
    (hlog : op = .pow → a.isZero dy = false → snd p' = 0 → fst p ≤ 0 →
      Extends (derivePow e x y dx dy) a (Rated V (snd w))) :
    Extends (deriveArith op e x y dx dy) a (Rated V (snd w)) := by
  cases op with
  | add =>
    obtain rfl := Option.some.inj hw
    exact rated_arith hV .add ha hdx hdy rfl
  | sub =>
    obtain rfl := Option.some.inj hw
    exact rated_arith hV .sub ha hdx hdy rfl
  | mul =>
    obtain rfl := Option.some.inj hw
    refine .bind (rated_arith hV .mul ha hdx hy rfl) fun l b hb hab hl => ?_
    refine .bind (rated_arith hV .mul hb (hx.mono hV ha hab) (hdy.mono hV ha hab) rfl)
      fun r c hc hbc hr => ?_
    refine rated_arith hV .add hc (hl.mono hV hb hbc) hr ?_
    rw [DualNumber.snd_mul, add_comm (fst p * snd p')]
    rfl
  | div =>
    obtain ⟨hne, rfl⟩ := ArithOp.dual?_div.1 hw
    refine .bind (rated_arith hV .mul ha hdx hy rfl) fun l b hb hab hl => ?_
    refine .bind (rated_arith hV .mul hb (hx.mono hV ha hab) (hdy.mono hV ha hab) rfl)
      fun r c hc hbc hr => ?_
    refine .bind (rated_arith hV .sub hc (hl.mono hV hb hbc) hr rfl)
      fun numerator d hd hcd hnumerator => ?_
    have had : a ≤ d := le_trans hab (le_trans hbc hcd)
    refine .bind (rated_powInt hV 2 hd (hy.mono hV ha had))
      fun denominator b' hb' hdb' hdenominator => ?_
    refine rated_arith hV .div hb' (hnumerator.mono hV hd hdb') hdenominator ?_
    have hquotient : (snd p * fst p' - fst p * snd p') / fst p' ^ 2 = snd (p * p'⁻¹) := by
      rw [DualNumber.snd_mul, TrivSqZeroExt.snd_inv, TrivSqZeroExt.fst_inv]
      simp only [smul_eq_mul, MulOpposite.smul_eq_mul_unop, MulOpposite.unop_op]
      field_simp
      ring
    rw [← hquotient]
    exact Exact.real_div_real (pow_ne_zero 2 hne)
  | pow => exact rated_derivePow hV ha hw he hx hy hdx hdy (hlog rfl)

/-- The factor of the rule of functions is the derivative of the function. -/
theorem rated_deriveOuter (f : Elementary) (ha : a.WellFormed) (he : Rated V r a e)
    (hx : Rated V q a x) (hr : f.value (real q) = real r) {s : ℝ} (hs : f.slope? q = some s) :
    Extends (deriveOuter f e x) a (Rated V s) := by
  cases f with
  | exp =>
    obtain rfl := Option.some.inj hs
    obtain rfl := Exact.real.inj hr
    exact .pure ha he
  | log =>
    obtain ⟨hpos, rfl⟩ : 0 < q ∧ 1 / q = s := by simpa [Elementary.slope?] using hs
    exact .bind (rated_num hV ha Exact.one_eq) fun one b hb hab hone =>
      rated_arith hV .div hb hone (hx.mono hV ha hab) (Exact.real_div_real hpos.ne')
  | sqrt =>
    obtain ⟨hpos, rfl⟩ : 0 < q ∧ 1 / ((2 : ℕ) * Real.sqrt q) = s := by
      simpa [Elementary.slope?] using hs
    have hroot : Elementary.sqrt.value (real q) = real (Real.sqrt q) :=
      Exact.sqrt_eq_real.2 ⟨q, rfl, hpos.le, rfl⟩
    obtain rfl := Exact.real.inj (hroot.symm.trans hr)
    have hne : ((2 : ℕ) : ℝ) * Real.sqrt q ≠ 0 := by
      have := Real.sqrt_pos.2 hpos
      positivity
    refine .bind (rated_num hV ha (Exact.nat_eq 2)) fun two b hb hab htwo => ?_
    refine .bind (rated_arith hV .mul hb htwo (he.mono hV ha hab) rfl)
      fun denominator c hc hbc hdenominator => ?_
    exact .bind (rated_num hV hc Exact.one_eq) fun one d hd hcd hone =>
      rated_arith hV .div hd hone (hdenominator.mono hV hc hcd) (Exact.real_div_real hne)
  | sin =>
    obtain rfl := Option.some.inj hs
    exact rated_call₁ hV .cos ha hx rfl
  | cos =>
    obtain rfl := Option.some.inj hs
    exact .bind (rated_call₁ hV .sin ha hx rfl) fun sine b hb _ hsine => rated_neg hV hb hsine
  | abs =>
    obtain ⟨hne, rfl⟩ : q ≠ 0 ∧ q / |q| = s := by simpa [Elementary.slope?] using hs
    obtain rfl := Exact.real.inj hr
    exact rated_arith hV .div ha hx he (Exact.real_div_real (abs_ne_zero.2 hne))

theorem rated_deriveCall (f : Elementary) (ha : a.WellFormed) (he : Rated V r a e)
    (hx : Rated V q a x) (hr : f.value (real q) = real r) {s : ℝ} (hs : f.slope? q = some s)
    (hdx : Rated V q' a dx) :
    Extends (do let outer ← deriveOuter f e x; mul outer dx) a (Rated V (s * q')) :=
  .bind (rated_deriveOuter hV f ha he hx hr hs) fun _ _ hb hab houter =>
    rated_arith hV .mul hb houter (hdx.mono hV ha hab) rfl

omit hV in
theorem isZero_zero (hb : b.WellFormed) :
    ((zero : Build Exact ExprId).run b).2.isZero ((zero : Build Exact ExprId).run b).1 = true := by
  have hnode := Arena.node_eq_of_getElem? (getElem?_intern
    (.num (Scalar.unsignedZero (Scalar.zero : Exact))) none hb)
  change (((intern (.num (Scalar.unsignedZero Scalar.zero))).run b).2.num?
    ((intern (.num (Scalar.unsignedZero Scalar.zero))).run b).1).any Scalar.isZero = true
  rw [Arena.num?, hnode]
  simp [Exact.isZero_iff]

/-- The rules carry over rates to the derivatives of expressions made of the nodes in question. -/
theorem carriesDerivative_interpreted {P : Node Exact → Prop} (ha : a.WellFormed)
    (hvalue : ∀ {b : Arena Exact} {e : ExprId} {w : DualNumber ℝ}, b.Dual t v e w →
      V b e (real (fst w)))
    (hlog : ∀ {b : Arena Exact} {e x y dx dy : ExprId} {p w : DualNumber ℝ}, P (.arith .pow x y) →
      a.node e = .arith .pow x y → a.Has e → b.WellFormed → a ≤ b → a.Dual t v e w →
      a.Dual t v x p → fst p ≤ 0 → b.Has dx → Rated V 0 b dy → b.isZero dy = false →
      (∀ u, a.node y = .num u → b.isZero dy = true) →
      Extends (derivePow e x y dx dy) b (Rated V (snd w))) :
    CarriesDerivative t a fun b e d => (∀ u, a.node e = .num u → b.isZero d = true) ∧
      (a.MadeOf P e → ∀ w, a.Dual t v e w → V b d (real (snd w))) where
  mono {b c e d} hb hbc h := by
    refine ⟨fun u hu => ?_, fun he w hw => hV.mono hb hbc h.has (h.related.2 he w hw)⟩
    rw [Arena.isZero, num?_mono hbc h.has]
    exact h.related.1 u hu
  num {b e x} hn hb := by
    refine ⟨fun _ _ => isZero_zero hb, fun _ w hw => ?_⟩
    obtain ⟨r, -, rfl⟩ := hw.of_node hn
    exact (rated_num hV hb Exact.zero_eq).holds.holds
  sym {b e s} hn hb := by
    refine ⟨by simp [hn], fun _ w hw => ?_⟩
    obtain ⟨r, -, rfl⟩ := hw.of_node hn
    by_cases hs : s = t
    · rw [if_pos hs, if_pos hs, TrivSqZeroExt.snd_add, TrivSqZeroExt.snd_inl, DualNumber.snd_eps,
        zero_add]
      exact (rated_num hV hb Exact.one_eq).holds.holds
    · rw [if_neg hs, if_neg hs, add_zero, TrivSqZeroExt.snd_inl]
      exact (rated_num hV hb Exact.zero_eq).holds.holds
  neg hn hb hx := by
    refine ⟨by simp [hn], fun he w hw => ?_⟩
    obtain ⟨p, hp, rfl⟩ := hw.of_node hn
    have hdx := hx.related.2 (he.operand (by simp [hn, Node.operands])) p hp
    exact (rated_neg hV hb ⟨hx.has, hdx⟩).holds.holds
  arith {b op e x y dx dy} hn hlt hb hab hx hy := by
    refine ⟨by simp [hn], fun he w hw => ?_⟩
    have hpower := hw
    obtain ⟨p, p', hp, hp', hw⟩ := hw.of_node hn
    have hxe : x ∈ (a.node e).operands := by simp [hn, Node.operands]
    have hye : y ∈ (a.node e).operands := by simp [hn, Node.operands]
    have hold {z : ExprId} {w : DualNumber ℝ} (hz : a.Has z) (hw : a.Dual t v z w) :
        Rated V (fst w) b z := Rated.mono ⟨hz, hvalue hw⟩ hV ha hab
    have hdx := hx.related.2 (he.operand hxe) p hp
    have hdy := hy.related.2 (he.operand hye) p' hp'
    refine (rated_deriveArith hV op hb hw (hold hlt hpower)
      (hold (Nat.lt_trans (ha.lt_of_mem_operands hxe) hlt) hp)
      (hold (Nat.lt_trans (ha.lt_of_mem_operands hye) hlt) hp') ⟨hx.has, hdx⟩ ⟨hy.has, hdy⟩
      fun hop hzero hconst hnonpos => ?_).holds.holds
    subst hop
    rw [hconst] at hdy
    exact hlog (hn ▸ he.holds) hn hlt hb hab hpower hp hnonpos hx.has ⟨hy.has, hdy⟩ hzero
      hy.related.1
  call {b f e x dx} hn hlt hb hab hx := by
    refine ⟨by simp [hn], fun he w hw => ?_⟩
    have hrated : Rated V (fst w) a e := ⟨hlt, hvalue hw⟩
    obtain ⟨p, r, s, hp, hr, hs, rfl⟩ := hw.of_node hn
    have hxe : x ∈ (a.node e).operands := by simp [hn, Node.operands]
    have hxrated : Rated V (fst p) a x :=
      ⟨Nat.lt_trans (ha.lt_of_mem_operands hxe) hlt, hvalue hp⟩
    have hdx := hx.related.2 (he.operand hxe) p hp
    simpa using (rated_deriveCall hV f hb (hrated.mono hV ha hab) (hxrated.mono hV ha hab)
      (by simpa using hr) hs ⟨hx.has, hdx⟩).holds.holds

end

/-! ## Powers of what is not positive -/

theorem extends_intern_node {n : Node Exact} (ha : a.WellFormed) (hn : ∀ x ∈ n.operands, a.Has x)
    (hreduced : n.Reduced a) : Extends (intern n) a fun b d => b.Has d ∧ b.node d = n := by
  have hextends : Extends (intern n) a Arena.Has := .intern ha hn hreduced (by simp)
  exact ⟨hextends.wellFormed, hextends.grows, hextends.holds,
    Arena.node_eq_of_getElem? (getElem?_intern n none ha)⟩

/-- Nothing is simplified in a product of expressions that are no numbers. -/
theorem extends_mul_node (ha : a.WellFormed) (hx : a.Has x) (hy : a.Has y) (hxnum : a.num? x = none)
    (hynum : a.num? y = none) :
    Extends (mul x y) a fun b d => b.Has d ∧ b.node d = .arith .mul x y := by
  have hcombine : combine .mul x y (a.num? x) (a.num? y) = intern (.arith .mul x y) := by
    rw [hxnum, hynum]
    rfl
  have hrun : (mul x y).run a = (intern (.arith .mul x y)).run a := by
    rw [← hcombine]
    exact run_arith .mul x y a
  exact .congr hrun
    (extends_intern_node ha (by simp [Node.operands, hx, hy]) (reduced_arith hx hy hcombine))

/-- The logarithm of what is not positive is not simplified. -/
theorem extends_log_node (ha : a.WellFormed) (hx : Rated (fun a => a.Rate t v) q a x)
    (hnonpos : q ≤ 0) :
    Extends (call₁ .log x) a fun b d => b.Has d ∧ b.node d = .call (.elementary .log) [x] := by
  have hargs : ∀ z ∈ [x], a.Has z := by simpa using hx.has
  rcases call_cases (.elementary .log) [x] a with ⟨u, hvalue, hfinite, -⟩ | hnode
  · obtain ⟨z, hz, hlog⟩ := Option.bind_eq_some_iff.1 hvalue
    obtain rfl := (interprets_rate t v).literal hx.holds hz
    obtain ⟨r, rfl⟩ := Exact.isFinite_iff.1 hfinite
    obtain ⟨z, hz, hpos, -⟩ := Exact.log_eq_real.1 (Option.some.inj hlog)
    cases hz
    exact absurd hpos hnonpos.not_gt
  · exact .congr (hnode a rfl) (extends_intern_node ha hargs fun b hab =>
      hnode b (callValue_mono hab _ hargs))

/-- A sum that starts with a multiple of the logarithm still does so after simplification. -/
theorem extends_isLogSum {l r : ExprId} (ha : a.WellFormed) (hl : a.Has l) (hr : a.Has r)
    (hlog : a.IsLogProduct x l) :
    Extends (add l r) a fun b s => b.Has s ∧ b.IsLogSum x s := by
  have hnum : a.num? l = none := Arena.IsLogSum.num? (.inl hlog)
  have hrun := run_arith .add l r a
  by_cases hzero : (a.num? r).any Scalar.isZero = true
  · have hcombine : combine .add l r (a.num? l) (a.num? r) = Pure.pure l := by
      rw [hnum]
      simp [combine, hzero]
    rw [hcombine] at hrun
    exact .congr hrun (.pure ha ⟨hl, .inl hlog⟩)
  · have hcombine : combine .add l r (a.num? l) (a.num? r) = intern (.arith .add l r) := by
      rw [hnum]
      simp [combine, hzero]
    rw [hcombine] at hrun
    have hnode := extends_intern_node ha (by simp [Node.operands, hl, hr])
      (reduced_arith hl hr hcombine)
    refine .congr hrun ⟨hnode.wellFormed, hnode.grows, hnode.holds.1, .inr ⟨l, r, hnode.holds.2, ?_⟩⟩
    exact (Arena.agreeBelow_of_le ha hnode.grows.le).isLogProduct hl hlog

/-- The derivative of a power of what is not positive has the rate of the power. -/
theorem rated_powLog (ha : a.WellFormed) (he : a.node e = .arith .pow x y) (hhas : a.Has e)
    (hw : a.Dual t v e w) (hp : a.Dual t v x p) (hx : a.Has x) (hy : a.Has y) (hdx : a.Has dx)
    (hdy : Rated (fun a => a.Rate t v) 0 a dy) (hzero : a.isZero dy = false) (hnonpos : fst p ≤ 0) :
    Extends (derivePow e x y dx dy) a (Rated (fun a => a.Rate t v) (snd w)) := by
  have hdynum : a.num? dy = none := by
    rw [Option.eq_none_iff_forall_ne_some]
    intro u hu
    obtain rfl := (interprets_rate t v).literal hdy.holds hu
    rw [Arena.isZero, hu, Option.any_some, Exact.isZero_iff.2 rfl] at hzero
    cases hzero
  refine .get ?_
  rw [if_neg (by simp [hzero])]
  refine .bind (extends_log_node ha ⟨hx, hp.rate⟩ hnonpos) fun log b hb hab hlog => ?_
  refine .bind (extends_mul_node hb (hdy.has.mono hab) hlog.1
    ((num?_mono hab hdy.has).trans hdynum) (by simp [Arena.num?, hlog.2])) fun l c hc hbc hl => ?_
  have hac : a ≤ c := le_trans hab hbc
  have hproduct : c.IsLogProduct x l :=
    ⟨dy, log, hl.2, (Arena.node_mono hbc hlog.1).trans hlog.2⟩
  refine .bind (extends_arith .mul hc (hy.mono hac) (hdx.mono hac)) fun scaled d hd hcd hscaled => ?_
  have had : a ≤ d := le_trans hac hcd
  refine .bind (extends_arith .div hd hscaled (hx.mono had)) fun r b' hb' hdb' hr => ?_
  have hcb' : c ≤ b' := le_trans hcd hdb'
  refine .bind (extends_isLogSum hb' (hl.1.mono hcb') hr
    ((Arena.agreeBelow_of_le hc hcb').isLogProduct hl.1 hproduct)) fun sum c' hc' hbc' hsum => ?_
  have hac' : a ≤ c' := le_trans hac (le_trans hcb' hbc')
  have hnode : c'.node e = .arith .pow x y := (Arena.node_mono hac' hhas).trans he
  have hlast := extends_mul_node hc' (hhas.mono hac') hsum.1 (by simp [Arena.num?, hnode])
    hsum.2.num?
  -- the product is an exception
  have hagree := Arena.agreeBelow_of_le hc' hlast.grows.le
  have hagree' := Arena.agreeBelow_of_le ha (le_trans hac' hlast.grows.le)
  exact ⟨hlast.wellFormed, hlast.grows, hlast.holds.1, Arena.Exceptional.rate ⟨e, sum, x, y, w, p,
    hlast.holds.2, (hagree e (hhas.mono hac')).1.trans hnode, hagree.isLogSum hsum.1 hsum.2,
    hagree'.dual hhas hw, hagree'.dual hx hp, hnonpos, rfl⟩⟩

/-! ## Derivatives -/

theorem carriesDerivative_rate (t : String) (v : Valuation Exact) (ha : a.WellFormed) :
    CarriesDerivative t a fun b e d => (∀ u, a.node e = .num u → b.isZero d = true) ∧
      (a.MadeOf (fun _ => True) e → ∀ w, a.Dual t v e w → b.Rate t v d (real (snd w))) := by
  refine carriesDerivative_interpreted (V := fun a => a.Rate t v) (interprets_rate t v) ha
    (fun hw => hw.rate) ?_
  intro b e x y dx dy p w _ hn he hb hab hw hp hnonpos hdx hdy hzero _
  have hagree := Arena.agreeBelow_of_le ha hab
  have hx : a.Has x := Nat.lt_trans (ha.lt_of_mem_operands (by simp [hn, Node.operands])) he
  have hy : a.Has y := Nat.lt_trans (ha.lt_of_mem_operands (by simp [hn, Node.operands])) he
  exact rated_powLog hb ((Arena.node_mono hab he).trans hn) (he.mono hab) (hagree.dual he hw)
    (hagree.dual hx hp) (hx.mono hab) (hy.mono hab) hdx hdy hzero hnonpos

/-- The node is no power, or a power with a constant for its exponent or with a positive base. -/
def Tame (t : String) (a : Arena Exact) (v : Valuation Exact) (n : Node Exact) : Prop :=
  ∀ x y, n = .arith .pow x y → (∃ u, a.node y = .num u) ∨ ∀ p, a.Dual t v x p → 0 < fst p

theorem carriesDerivative_value (t : String) (v : Valuation Exact) (ha : a.WellFormed) :
    CarriesDerivative t a fun b e d => (∀ u, a.node e = .num u → b.isZero d = true) ∧
      (a.MadeOf (Tame t a v) e → ∀ w, a.Dual t v e w →
        b.Value ArithOp.apply v d (real (snd w))) := by
  refine carriesDerivative_interpreted (V := fun a => a.Value ArithOp.apply v)
    (interprets_value ArithOp.apply v) ha (fun hw => hw.value) ?_
  intro b e x y dx dy p w htame _ _ _ _ _ hp hnonpos _ _ hzero hconst
  rcases htame x y rfl with ⟨u, hu⟩ | hpos
  · rw [hconst u hu] at hzero
    cases hzero
  · exact absurd (hpos p hp) hnonpos.not_gt

/-- A differentiation fails if and only if the expression has a part that is a comparison, joins
constraints, is a `dd` call, or is a call without exactly one argument. Otherwise the derivative has
the rate of the expression as its value: at any valuation, if the expression has the value `w` over
dual numbers and the derivative has a real value, this is the coefficient of `ε`. The derivative has a
real value if there is no power of a base that is not positive, constant exponents apart. -/
theorem derive_forward (t : String) (ha : a.WellFormed) (he : a.Has e) :
    ((∃ error, ((derive t e).run.run a).1 = .error error) ↔ ∃ x, a.Reachable e x ∧
      ((∃ op y z, a.node x = .compare op y z) ∨ (∃ c items, a.node x = .join c items) ∨
        (∃ args, a.node x = .call .dd args) ∨
        ∃ f args, a.node x = .call f args ∧ args.length ≠ 1)) ∧
    ∀ d, ((derive t e).run.run a).1 = .ok d → ∀ (v : Valuation Exact) (w : DualNumber ℝ),
      a.Dual t v e w →
        (∀ r, ((derive t e).run.run a).2.eval v d = .ok (real r) → r = snd w) ∧
        (a.MadeOf (Tame t a v) e → ((derive t e).run.run a).2.eval v d = .ok (real (snd w))) := by
  refine ⟨?_, fun d hd v w hw => ⟨fun r hr => ?_, fun htame => ?_⟩⟩
  · rw [derive_fails_iff t ha he]
    simp only [Node.not_differentiable_iff]
  · obtain ⟨result, b, hrun, hb, -, hok, -⟩ := (carriesDerivative_rate t v ha).derive ha he
    rw [hrun] at hd hr
    have hrate := (hok d hd).related.2.2 ((Arena.madeOf_iff ha he).2 fun _ _ => trivial) w hw
    obtain ⟨u, hu, hrefines⟩ := ((Arena.eval_eq_ok hb).1 hr).rate
    rw [hrefines r rfl] at hu
    exact Exact.real.inj (hu.unique hrate)
  · obtain ⟨result, b, hrun, hb, -, hok, -⟩ := (carriesDerivative_value t v ha).derive ha he
    rw [hrun] at hd ⊢
    exact (Arena.eval_eq_ok hb).2 ((hok d hd).related.2.2 htame w hw)

/-- The square of a symbol has a derivative, also where the symbol is negative. A comparison has
none. -/
theorem derive_forward_square :
    ∃ (a : Arena Exact) (e c d : ExprId) (v : Valuation Exact) (w : DualNumber ℝ),
      a.Dual "t" v e w ∧ snd w = -6 ∧ ((derive "t" e).run.run a).1 = .ok d ∧
      ((derive "t" e).run.run a).2.eval v d = .ok (real (-6)) ∧
      ∃ error, ((derive "t" c).run.run a).1 = .error error := by
  obtain ⟨a, x, y, e, c, ha, hx, hy, he, hc⟩ : ∃ (a : Arena Exact) (x y e c : ExprId), a.WellFormed ∧
      a.table.items[x]? = some (.sym "t") ∧ a.table.items[y]? = some (.num (real 2)) ∧
      a.table.items[e]? = some (.arith .pow x y) ∧ a.table.items[c]? = some (.compare .le e x) := by
    obtain ⟨a₁, x, -, h₁, hx⟩ :=
      (Arena.wellFormed_empty (α := Exact)).exists_interned (.sym "t") (by simp [Node.operands])
    obtain ⟨a₂, y, hle₂, h₂, hy⟩ := h₁.exists_interned (.num (real 2)) (by simp [Node.operands])
    have hx := hle₂ hx
    obtain ⟨a₃, e, hle₃, h₃, he⟩ := h₂.exists_interned (.arith .pow x y)
      (by simp [Node.operands, Arena.lt_size_of_getElem? hx, Arena.lt_size_of_getElem? hy, Arena.Has])
    have hx := hle₃ hx
    obtain ⟨a₄, c, hle₄, h₄, hc⟩ := h₃.exists_interned (.compare .le e x)
      (by simp [Node.operands, Arena.lt_size_of_getElem? hx, Arena.lt_size_of_getElem? he, Arena.Has])
    exact ⟨a₄, x, y, e, c, h₄, hle₄ hx, hle₄ (hle₃ hy), hle₄ he, hc⟩
  have hnode := Arena.node_eq_of_getElem? he
  have hpower (k : ℕ) : Exact.pow (-3) k = some ((-3) ^ k) := by
    obtain ⟨_, _, ⟨⟩, ⟨⟩, h⟩ := Exact.pow_eq_real.1 (Exact.pow_natCast (x := -3) k)
    exact h
  let v : Valuation Exact := fun _ => some (real (-3))
  have hxp : a.Dual "t" v x (inl (-3) + DualNumber.eps) := by
    simpa using Arena.Dual.sym (t := "t") (v := v) (Arena.node_eq_of_getElem? hx) rfl
  have hyp : a.Dual "t" v y (inl 2) := .num (Arena.node_eq_of_getElem? hy)
  have hdual : a.Dual "t" v e (inl 9 + inr (-6)) := by
    refine .arith hnode hxp hyp ((ArithOp.dual?_pow_of_snd_eq_zero (by simp)).2 ⟨9, -3, ?_, ?_, ?_⟩)
    · have hsquare := hpower 2
      norm_num at hsquare ⊢
      exact hsquare
    · have hlower := hpower 1
      norm_num at hlower ⊢
      exact hlower
    · norm_num
  have hparts (P : Node Exact → Prop) (hP : P (.sym "t") ∧ P (.num (real 2)) ∧ P (.arith .pow x y)) :
      a.MadeOf P e := by
    obtain ⟨hsym, hnum, hpow⟩ := hP
    refine .node he hpow fun z hz => ?_
    rcases List.mem_pair.1 hz with rfl | rfl
    · exact .node hx hsym (by simp [Node.operands])
    · exact .node hy hnum (by simp [Node.operands])
  have hforward := derive_forward "t" ha (Arena.lt_size_of_getElem? he)
  have hfails := derive_forward "t" ha (Arena.lt_size_of_getElem? hc)
  cases hd : ((derive "t" e).run.run a).1 with
  | error error =>
    obtain ⟨z, hz, hbad⟩ := hforward.1.1 ⟨error, hd⟩
    exact absurd ((Arena.madeOf_iff ha (Arena.lt_size_of_getElem? he)).1
      (hparts Node.Differentiable ⟨trivial, trivial, trivial⟩) z hz)
      (Node.not_differentiable_iff.2 hbad)
  | ok d =>
    have htame : a.MadeOf (Tame "t" a v) e := by
      refine hparts _ ⟨?_, ?_, ?_⟩
      · rintro _ _ ⟨⟩
      · rintro _ _ ⟨⟩
      · rintro _ _ ⟨⟩
        exact .inl ⟨real 2, Arena.node_eq_of_getElem? hy⟩
    have hvalue := (hforward.2 d hd v _ hdual).2 htame
    have hrate : snd (inl 9 + inr (-6) : DualNumber ℝ) = -6 := by simp
    rw [hrate] at hvalue
    exact ⟨a, e, c, d, v, _, hdual, ((hforward.2 d hd v _ hdual).1 _ hvalue).symm, hd, hvalue,
      hfails.1.2 ⟨c, .refl, .inl ⟨.le, e, x, Arena.node_eq_of_getElem? hc⟩⟩⟩

end Build

end HybridPlan
