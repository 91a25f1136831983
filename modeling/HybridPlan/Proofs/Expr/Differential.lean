import HybridPlan.Proofs.Expr.Variation

set_option autoImplicit false

/-! # Derivatives are rates of change

The derivative of an expression that is free of the symbol is the number zero. Where an expression
varies with the symbol, its derivative has the rate of change as its value. -/

namespace HybridPlan.Build

open Exact (real)

section

variable {a : Arena Exact} {x y : ExprId} {v : Valuation Exact} {symbol : String → Prop}
  {q q' r r' : ℝ}

/-! ## Values of constructions -/

/-- A construction from real numbers that has a real value. -/
theorem Valued.leads {m : Build Exact ExprId} {C : Set ExprId}
    (hm : Yields (.ofReals symbol) C m ({·})) (ha : a.WellFormed)
    (hC : ∀ x ∈ C, a.Uses (.ofReals symbol) x) (h : Valued ArithOp.strictly v m a (real r)) :
    Leads m a fun b e => b.Uses (.ofReals symbol) e ∧ b.Denotes v e r := by
  refine (hm.leads ha hC).and ?_
  obtain ⟨u, hu, hrefines⟩ := h
  obtain ⟨hb, hab, -⟩ := hm.leads ha hC
  rw [hrefines r rfl, ← Arena.denotes_iff_value] at hu
  exact ⟨hb, hab, hu⟩

theorem uses_arith (op : ArithOp) (ha : a.WellFormed) (hx : a.Uses (.ofReals symbol) x)
    (hy : a.Uses (.ofReals symbol) y) :
    Leads (arith op x y) a fun b e => b.Uses (.ofReals symbol) e := by
  have hyields : Yields (.ofReals symbol) {x, y} (arith op x y) ({·}) :=
    yields_arith (Vocabulary.closed_ofReals symbol) op (by simp) (by simp)
  exact hyields.leads ha (by simp [hx, hy])

theorem leads_arith (op : ArithOp) (ha : a.WellFormed) (hx : a.Uses (.ofReals symbol) x)
    (hy : a.Uses (.ofReals symbol) y) (hq : a.Denotes v x q) (hq' : a.Denotes v y q')
    (hr : op.apply (real q) (real q') = real r) :
    Leads (arith op x y) a fun b e => b.Uses (.ofReals symbol) e ∧ b.Denotes v e r := by
  have hyields : Yields (.ofReals symbol) {x, y} (arith op x y) ({·}) :=
    yields_arith (Vocabulary.closed_ofReals symbol) op (by simp) (by simp)
  refine Valued.leads hyields ha (by simp [hx, hy]) ?_
  have hvalued := valued_arith ha hx.lt_size hy.lt_size (Arena.denotes_iff_value.1 hq)
    (Arena.denotes_iff_value.1 hq') ArithOp.lawful_strictly op
  rwa [ArithOp.strictly_eq_real.2 ⟨q, q', rfl, rfl, hr⟩] at hvalued

theorem leads_neg (ha : a.WellFormed) (hx : a.Uses (.ofReals symbol) x) (hq : a.Denotes v x q) :
    Leads (neg x) a fun b e => b.Uses (.ofReals symbol) e ∧ b.Denotes v e (-q) := by
  have hyields : Yields (.ofReals symbol) {x} (neg x) ({·}) :=
    yields_neg (Vocabulary.closed_ofReals symbol) rfl
  exact Valued.leads hyields ha (by simp [hx])
    (valued_neg ha hx.lt_size (Arena.denotes_iff_value.1 hq))

theorem leads_call (f : Elementary) (ha : a.WellFormed) (hx : a.Uses (.ofReals symbol) x)
    (hq : a.Denotes v x q) (hr : f.value (real q) = real r) :
    Leads (call₁ f x) a fun b e => b.Uses (.ofReals symbol) e ∧ b.Denotes v e r := by
  have hyields : Yields (.ofReals symbol) {x} (call₁ f x) ({·}) :=
    yields_call₁ (Vocabulary.closed_ofReals symbol) rfl
  refine Valued.leads hyields ha (by simp [hx]) ?_
  rw [← hr]
  exact valued_call ha hx.lt_size (Arena.denotes_iff_value.1 hq) f

theorem uses_neg (ha : a.WellFormed) (hx : a.Uses (.ofReals symbol) x) :
    Leads (neg x) a fun b e => b.Uses (.ofReals symbol) e := by
  have hyields : Yields (.ofReals symbol) {x} (neg x) ({·}) :=
    yields_neg (Vocabulary.closed_ofReals symbol) rfl
  exact hyields.leads ha (by simp [hx])

theorem leads_powInt (n : ℕ) (ha : a.WellFormed) (hx : a.Uses (.ofReals symbol) x)
    (hq : a.Denotes v x q) :
    Leads (powInt x n) a fun b e => b.Uses (.ofReals symbol) e ∧ b.Denotes v e (q ^ n) := by
  refine .bind (literal_num ha (Exact.int_natCast n)) fun exponent b hb hab hexponent => ?_
  refine leads_arith .pow hb (hx.mono hab) hexponent.uses
    ((Arena.agreeBelow_of_le ha hab).denotes hx.lt_size hq) hexponent.denotes ?_
  rw [ArithOp.apply, Exact.powReal_real, Exact.pow_natCast]

/-! ## Zeros -/

theorem literal_add (ha : a.WellFormed) (hx : a.Literal x r) (hy : a.Literal y r') :
    Leads (add x y) a fun b e => b.Literal e (r + r') := by
  refine .get ?_
  rw [hx.num?, hy.num?]
  exact literal_num ha Exact.real_add_real

theorem literal_mul (ha : a.WellFormed) (hx : a.Literal x r) (hy : a.Literal y r') :
    Leads (mul x y) a fun b e => b.Literal e (r * r') := by
  refine .get ?_
  rw [hx.num?, hy.num?]
  exact literal_num ha Exact.real_mul_real

theorem literal_neg (ha : a.WellFormed) (hx : a.Literal x r) :
    Leads (neg x) a fun b e => b.Literal e (-r) := by
  refine .get ?_
  rw [Arena.node_eq_of_getElem? hx]
  exact literal_num ha Exact.neg_real

/-- A quotient of zero is zero. -/
theorem literal_zero_div (ha : a.WellFormed) (hx : a.Literal x 0) (hy : a.IsReal y) :
    Leads (div x y) a fun b e => b.Literal e 0 := by
  have hzero : isNum Scalar.zero (some (real 0)) = true := by simp [isNum]
  refine .get ?_
  dsimp only
  rw [hx.num?]
  split
  · next c d hc hd =>
    cases hc
    obtain ⟨r, rfl⟩ := hy.exists_real hd
    split
    · exact .pure ha hx
    · next hr =>
      have hr : r ≠ 0 := fun h => hr (by rw [h, Exact.isZero_iff])
      exact literal_num ha (by rw [Exact.real_div_real hr, zero_div])
  · rw [if_pos hzero]
    exact .pure ha hx

end

/-! ## The rules of differentiation -/

/-- The expression `d` of the arena `b` is the derivative of `e` in the arena `a`. -/
structure Differential (t : String) (a b : Arena Exact) (e d : ExprId) : Prop where
  isReal : a.IsReal e → b.IsReal d
  free : a.Free t e → b.Literal d 0
  rate : ∀ ρ u u', a.Varies t ρ e u u' → b.Denotes (fun s => some (real (ρ s))) d u'

section

variable {a b : Arena Exact} {t : String} {ρ : String → ℝ} {e x y d dx dy : ExprId}
  {u u' w w' : ℝ}

/-- Where the symbol occurs, the derivative only has to have the rate as its value. -/
theorem Differential.of_rate (hreal : a.IsReal e → b.IsReal d) (hfree : a.Free t e → b.Literal d 0)
    (h : ¬a.Free t e → ∀ ρ u u', a.Varies t ρ e u u' →
      b.Denotes (fun s => some (real (ρ s))) d u') : Differential t a b e d where
  isReal := hreal
  free := hfree
  rate ρ u u' hu := by
    by_cases hstill : a.Free t e
    · rw [hu.rate_eq_zero hstill]
      exact (hfree hstill).denotes
    · exact h hstill ρ u u' hu

/-- The rule of powers, for a base that does not change. -/
theorem literal_derivePow (ha : a.WellFormed) (hx : a.IsReal x) (hy : a.IsReal y)
    (hdx : a.Literal dx 0) (hdy : a.Literal dy 0) :
    Leads (derivePow e x y dx dy) a fun b d => b.Literal d 0 := by
  refine .get ?_
  rw [if_pos hdy.isZero]
  refine .bind (literal_num ha Exact.one_eq) fun one b hb hab hone => ?_
  refine .bind (uses_arith .sub hb (hy.mono hab) hone.uses) fun lower c hc hbc hlower => ?_
  have hac : a ≤ c := le_trans hab hbc
  refine .bind (uses_arith .pow hc (hx.mono hac) hlower) fun p d hd hcd hp => ?_
  have had : a ≤ d := le_trans hac hcd
  refine .bind (uses_arith .mul hd (hy.mono had) hp) fun coefficient b' hb' hdb' hcoefficient => ?_
  exact literal_mul_zero hb' (fun _ => hcoefficient.exists_real) (hdx.mono (le_trans had hdb'))

/-- The rule of powers, for natural exponents. -/
theorem leads_derivePow {n : ℕ} {v : Valuation Exact} (ha : a.WellFormed) (hx : a.IsReal x)
    (hu : a.Denotes v x u) (hy : a.Literal y n) (hdx : a.IsReal dx) (hu' : a.Denotes v dx u')
    (hdy : a.Literal dy 0) :
    Leads (derivePow e x y dx dy) a fun b d => b.Denotes v d (n * u ^ (n - 1) * u') := by
  have hlast (coefficient : ExprId) (b : Arena Exact) (hb : b.WellFormed) (hab : a ≤ b)
      (h : b.IsReal coefficient ∧ b.Denotes v coefficient (n * u ^ (n - 1))) :
      Leads (mul coefficient dx) b fun b d => b.Denotes v d (n * u ^ (n - 1) * u') :=
    (leads_arith .mul hb h.1 (hdx.mono hab) h.2
      ((Arena.agreeBelow_of_le ha hab).denotes hdx.lt_size hu') rfl).imp fun _ _ h => h.2
  refine .get ?_
  rw [if_pos hdy.isZero]
  refine .bind (literal_num ha Exact.one_eq) fun one b hb hab hone => ?_
  refine .bind (literal_sub hb (hy.mono hab) hone) fun lower c hc hbc hlower => ?_
  have hac : a ≤ c := le_trans hab hbc
  by_cases hn : n = 0
  · -- the power of the base is not defined everywhere, but the factor zero makes it vanish
    subst hn
    refine .bind (uses_arith .pow hc (hx.mono hac) hlower.uses) fun p d hd hcd hp => ?_
    have hzero : d.Literal y 0 := by
      rw [Nat.cast_zero] at hy
      exact hy.mono (le_trans hac hcd)
    refine .bind (literal_zero_mul hd hzero fun _ => hp.exists_real)
      fun coefficient b' hb' hdb' hcoefficient => ?_
    refine hlast coefficient b' hb' (le_trans hac (le_trans hcd hdb')) ⟨hcoefficient.uses, ?_⟩
    rw [Nat.cast_zero, zero_mul]
    exact hcoefficient.denotes
  · have hlower : c.Literal lower ((n - 1 : ℕ) : ℝ) := by
      rwa [Nat.cast_sub (Nat.one_le_iff_ne_zero.2 hn), Nat.cast_one]
    have hpower : ArithOp.pow.apply (real u) (real ((n - 1 : ℕ) : ℝ)) = real (u ^ (n - 1)) := by
      rw [ArithOp.apply, Exact.powReal_real, Exact.pow_natCast]
    refine .bind (leads_arith .pow hc (hx.mono hac) hlower.uses
      ((Arena.agreeBelow_of_le ha hac).denotes hx.lt_size hu) hlower.denotes hpower)
        fun p d hd hcd hp => ?_
    have hyd : d.Literal y n := hy.mono (le_trans hac hcd)
    refine .bind (leads_arith .mul hd hyd.uses hp.1 hyd.denotes hp.2 rfl)
      fun coefficient b' hb' hdb' hcoefficient => ?_
    exact hlast coefficient b' hb' (le_trans hac (le_trans hcd hdb')) hcoefficient

/-- The rules give zero where the operands do not change. -/
theorem literal_deriveArith (op : ArithOp) (ha : a.WellFormed) (hx : a.IsReal x) (hy : a.IsReal y)
    (hdx : a.Literal dx 0) (hdy : a.Literal dy 0) :
    Leads (deriveArith op e x y dx dy) a fun b d => b.Literal d 0 := by
  cases op with
  | add => exact (literal_add ha hdx hdy).imp fun _ _ h => by rwa [add_zero] at h
  | sub => exact (literal_sub ha hdx hdy).imp fun _ _ h => by rwa [sub_zero] at h
  | mul =>
    refine .bind (literal_zero_mul ha hdx fun _ => hy.exists_real) fun l b hb hab hl => ?_
    refine .bind (literal_mul_zero hb (fun _ => Arena.Uses.exists_real (hx.mono hab)) (hdy.mono hab))
      fun r c hc hbc hr => ?_
    exact (literal_add hc (hl.mono hbc) hr).imp fun _ _ h => by rwa [add_zero] at h
  | div =>
    refine .bind (literal_zero_mul ha hdx fun _ => hy.exists_real) fun l b hb hab hl => ?_
    refine .bind (literal_mul_zero hb (fun _ => Arena.Uses.exists_real (hx.mono hab)) (hdy.mono hab))
      fun r c hc hbc hr => ?_
    refine .bind (literal_sub hc (hl.mono hbc) hr) fun numerator d hd hcd hnumerator => ?_
    rw [sub_zero] at hnumerator
    have hsquare : Yields (.ofReals fun _ => True) {y} (powInt y 2) ({·}) :=
      yields_powInt (Vocabulary.closed_ofReals _) rfl
    have had : a ≤ d := le_trans hab (le_trans hbc hcd)
    refine .bind (hsquare.leads hd (by simp [hy.mono had])) fun denominator b' hb' hdb' hreal => ?_
    exact literal_zero_div hb' (hnumerator.mono hdb') hreal
  | pow => exact literal_derivePow ha hx hy hdx hdy

/-- The rule of products. -/
theorem leads_deriveMul {v : Valuation Exact} (ha : a.WellFormed) (hx : a.IsReal x)
    (hu : a.Denotes v x u) (hy : a.IsReal y) (hw : a.Denotes v y w) (hdx : a.IsReal dx)
    (hu' : a.Denotes v dx u') (hdy : a.IsReal dy) (hw' : a.Denotes v dy w') :
    Leads (deriveArith .mul e x y dx dy) a fun b d => b.Denotes v d (u' * w + u * w') := by
  refine .bind (leads_arith .mul ha hdx hy hu' hw rfl) fun l b hb hab hl => ?_
  have hagree := Arena.agreeBelow_of_le ha hab
  refine .bind (leads_arith .mul hb (hx.mono hab) (hdy.mono hab) (hagree.denotes hx.lt_size hu)
    (hagree.denotes hdy.lt_size hw') rfl) fun r c hc hbc hr => ?_
  have hlc : c.Denotes v l (u' * w) := (Arena.agreeBelow_of_le hb hbc).denotes hl.1.lt_size hl.2
  exact (leads_arith .add hc (hl.1.mono hbc) hr.1 hlc hr.2 rfl).imp fun _ _ h => h.2

/-- The rule of quotients, for a divisor that does not change. -/
theorem leads_deriveDiv {v : Valuation Exact} (ha : a.WellFormed) (hx : a.IsReal x)
    (hy : a.IsReal y) (hw : a.Denotes v y w) (hne : w ≠ 0) (hdx : a.IsReal dx)
    (hu' : a.Denotes v dx u') (hdy : a.Literal dy 0) :
    Leads (deriveArith .div e x y dx dy) a fun b d => b.Denotes v d (u' / w) := by
  refine .bind (leads_arith .mul ha hdx hy hu' hw rfl) fun l b hb hab hl => ?_
  refine .bind (literal_mul_zero hb (fun _ => Arena.Uses.exists_real (hx.mono hab)) (hdy.mono hab))
    fun r c hc hbc hr => ?_
  have hlc : c.Denotes v l (u' * w) := (Arena.agreeBelow_of_le hb hbc).denotes hl.1.lt_size hl.2
  refine .bind (leads_arith .sub hc (hl.1.mono hbc) hr.uses hlc hr.denotes rfl)
    fun numerator d hd hcd hnumerator => ?_
  have had : a ≤ d := le_trans hab (le_trans hbc hcd)
  have hwd : d.Denotes v y w := (Arena.agreeBelow_of_le ha had).denotes hy.lt_size hw
  refine .bind (leads_powInt 2 hd (hy.mono had) hwd) fun denominator b' hb' hdb' hdenominator => ?_
  refine (leads_arith .div hb' (hnumerator.1.mono hdb') hdenominator.1
    ((Arena.agreeBelow_of_le hd hdb').denotes hnumerator.1.lt_size hnumerator.2) hdenominator.2
    (Exact.real_div_real (pow_ne_zero 2 hne))).imp fun c' e h => ?_
  have hquotient : (u' * w - 0) / w ^ 2 = u' / w := by
    field_simp
    ring
  rw [← hquotient]
  exact h.2

/-! ### Each kind of node -/

theorem differential_num {c : Exact} (hn : a.node e = .num c) (hb : b.WellFormed) :
    Makes (Differential t a) b zero e := by
  intro _ _
  have hzero := (literal_num hb Exact.zero_eq).holds
  refine .of_rate (fun _ => hzero.uses) (fun _ => hzero) fun hstill ρ u u' hu => ?_
  have hchange := hu.changes hstill
  rw [hn] at hchange
  cases hchange

theorem differential_sym {s : String} (hn : a.node e = .sym s) (hb : b.WellFormed) :
    Makes (Differential t a) b (if s = t then one else zero) e := by
  intro _ _
  have hzero := (literal_num hb Exact.zero_eq).holds
  have hone := (literal_num hb Exact.one_eq).holds
  split
  · next hs =>
    refine .of_rate (fun _ => hone.uses) (fun hfree => ?_) fun hstill ρ u u' hu => ?_
    · have hsymbol := hfree.holds
      rw [hn] at hsymbol
      exact absurd hs hsymbol
    · have hchange := hu.changes hstill
      rw [hn] at hchange
      cases hchange with
      | sym => exact hone.denotes
  · next hs =>
    refine .of_rate (fun _ => hzero.uses) (fun _ => hzero) fun hstill ρ u u' hu => ?_
    have hchange := hu.changes hstill
    rw [hn] at hchange
    cases hchange with
    | sym => exact absurd rfl hs

theorem differential_neg (hn : a.node e = .neg x) (hb : b.WellFormed)
    (hx : Differential t a b x dx) : Makes (Differential t a) b (neg dx) e := by
  intro _ _
  have hoperand : x ∈ (a.node e).operands := by simp [hn, Node.operands]
  refine .of_rate (fun hreal => ?_) (fun hfree => ?_) fun hstill ρ u u' hu => ?_
  · exact (uses_neg hb (hx.isReal (hreal.operand hoperand))).holds
  · have hopposite := (literal_neg hb (hx.free (hfree.operand hoperand))).holds
    rwa [neg_zero] at hopposite
  · have hchange := hu.changes hstill
    rw [hn] at hchange
    cases hchange with
    | neg hxu => exact (leads_neg hb (hx.isReal hxu.isReal) (hx.rate _ _ _ hxu)).holds.2

/-- The rules of arithmetic find the rates of change. -/
theorem leads_deriveArith (op : ArithOp) (ha : a.WellFormed) (hb : b.WellFormed) (hab : a ≤ b)
    (hx : Differential t a b x dx) (hy : Differential t a b y dy)
    (hu : a.Changes t ρ (.arith op x y) u u') :
    Leads (deriveArith op e x y dx dy) b fun c d => c.Denotes (fun s => some (real (ρ s))) d u' := by
  cases hu with
  | add hxu hyw =>
    exact (leads_arith .add hb (hx.isReal hxu.isReal) (hy.isReal hyw.isReal) (hx.rate _ _ _ hxu)
      (hy.rate _ _ _ hyw) rfl).imp fun _ _ h => h.2
  | sub hxu hyw =>
    exact (leads_arith .sub hb (hx.isReal hxu.isReal) (hy.isReal hyw.isReal) (hx.rate _ _ _ hxu)
      (hy.rate _ _ _ hyw) rfl).imp fun _ _ h => h.2
  | mul hxu hyw =>
    have hxb := hxu.mono ha hab
    have hyb := hyw.mono ha hab
    exact leads_deriveMul hb hxb.isReal hxb.denotes hyb.isReal hyb.denotes
      (hx.isReal hxu.isReal) (hx.rate _ _ _ hxu) (hy.isReal hyw.isReal) (hy.rate _ _ _ hyw)
  | div hxu hyf hw hne =>
    have hxb := hxu.mono ha hab
    have hwb := (Arena.agreeBelow_of_le ha hab).denotes hyf.lt_size hw
    exact leads_deriveDiv hb hxb.isReal (hyf.isReal.mono hab) hwb hne (hx.isReal hxu.isReal)
      (hx.rate _ _ _ hxu) (hy.free hyf)
  | pow hxu hyn =>
    have hxb := hxu.mono ha hab
    exact leads_derivePow hb hxb.isReal hxb.denotes (hyn.mono hab) (hx.isReal hxu.isReal)
      (hx.rate _ _ _ hxu) (hy.free hyn.uses)

theorem differential_arith {op : ArithOp} (hn : a.node e = .arith op x y) (ha : a.WellFormed)
    (hb : b.WellFormed) (hab : a ≤ b) (hx : Differential t a b x dx)
    (hy : Differential t a b y dy) : Makes (Differential t a) b (deriveArith op e x y dx dy) e := by
  intro _ _
  have hxe : x ∈ (a.node e).operands := by simp [hn, Node.operands]
  have hye : y ∈ (a.node e).operands := by simp [hn, Node.operands]
  refine .of_rate (fun hreal => ?_) (fun hfree => ?_) fun hstill ρ u u' hu => ?_
  · have hxr := hreal.operand hxe
    have hyr := hreal.operand hye
    have hyields : Yields (.ofReals fun _ => True) {e, x, y, dx, dy} (deriveArith op e x y dx dy)
        ({·}) :=
      yields_deriveArith (Vocabulary.closed_ofReals _) op (by simp) (by simp) (by simp) (by simp)
        (by simp)
    refine (hyields.leads hb ?_).holds
    rintro _ (rfl | rfl | rfl | rfl | rfl)
    exacts [hreal.mono hab, hxr.mono hab, hyr.mono hab, hx.isReal hxr, hy.isReal hyr]
  · have hxf : a.Free t x := hfree.operand hxe
    have hyf : a.Free t y := hfree.operand hye
    exact (literal_deriveArith op hb (hxf.isReal.mono hab) (hyf.isReal.mono hab) (hx.free hxf)
      (hy.free hyf)).holds
  · exact (leads_deriveArith op ha hb hab hx hy (hn ▸ hu.changes hstill)).holds

theorem differential_call {f : Elementary} (hn : a.node e = .call (.elementary f) [x])
    (ha : a.WellFormed) (hb : b.WellFormed) (hab : a ≤ b) (hx : Differential t a b x dx) :
    Makes (Differential t a) b (do let outer ← deriveOuter f e x; mul outer dx) e := by
  intro _ _
  have hxe : x ∈ (a.node e).operands := by simp [hn, Node.operands]
  have houter (hreal : a.IsReal e) : Leads (deriveOuter f e x) b fun c outer => c.IsReal outer := by
    have hyields : Yields (.ofReals fun _ => True) {e, x} (deriveOuter f e x) ({·}) :=
      yields_deriveOuter (Vocabulary.closed_ofReals _) f (by simp) (by simp)
    have hxr : a.IsReal x := hreal.operand hxe
    exact hyields.leads hb (by simp [hreal.mono hab, hxr.mono hab])
  refine .of_rate (fun hreal => ?_) (fun hfree => ?_) fun hstill ρ u u' hu => ?_
  · have hdx := hx.isReal (hreal.operand hxe)
    exact (Leads.bind (houter hreal) fun outer c hc hbc houter =>
      uses_arith .mul hc houter (hdx.mono hbc)).holds
  · have hdx := hx.free (hfree.operand hxe)
    exact (Leads.bind (houter hfree.isReal) fun outer c hc hbc houter =>
      literal_mul_zero hc (fun _ => houter.exists_real) (hdx.mono hbc)).holds
  · have hchange := hu.changes hstill
    have hreal := hu.isReal.mono hab
    have hdenotes := (Arena.agreeBelow_of_le ha hab).denotes hu.lt_size hu.denotes
    rw [hn] at hchange
    cases hchange with
    | exp hxu =>
      exact (leads_arith .mul hb hreal (hx.isReal hxu.isReal) hdenotes (hx.rate _ _ _ hxu)
        rfl).holds.2

/-- The rules of differentiation pass derivatives on. -/
theorem differentiates_differential (t : String) (ha : a.WellFormed) :
    Differentiates t a (Differential t a) where
  mono hb hbc h := by
    obtain ⟨huses, hreal, hfree, hrate⟩ := h
    exact ⟨fun he => (hreal he).mono hbc, fun he => (hfree he).mono hbc, fun ρ u u' hu =>
      (Arena.agreeBelow_of_le hb hbc).denotes huses.lt_size (hrate ρ u u' hu)⟩
  num hn hb := differential_num hn hb
  sym hn hb := differential_sym hn hb
  neg hn hb hx := differential_neg hn hb hx.related
  arith hn _ hb hab hx hy := differential_arith hn ha hb hab hx.related hy.related
  call hn _ hb hab hx := differential_call hn ha hb hab hx.related

/-- The derivative of an expression that varies with the symbol has the rate as its value. -/
theorem derive_rate (ha : a.WellFormed) (hu : a.Varies t ρ e u u') :
    (derive t e).Leads a fun b d => b.IsReal d ∧ b.Denotes (fun s => some (real (ρ s))) d u' := by
  obtain ⟨d, b, hrun, hb, hab, hstands⟩ :=
    (differentiates_differential t ha).derive ha (hu.denotes.differentiable hu.isReal)
  exact ⟨d, b, hrun, hb, hab, hstands.related.isReal hu.isReal, hstands.related.rate ρ u u' hu⟩

/-- The derivative of what is free of the symbol is zero. -/
theorem derive_free (ha : a.WellFormed) (he : a.MadeOf Node.Differentiable e) (hfree : a.Free t e) :
    (derive t e).Leads a fun b d => b.Literal d 0 := by
  obtain ⟨d, b, hrun, hb, hab, hstands⟩ := (differentiates_differential t ha).derive ha he
  exact ⟨d, b, hrun, hb, hab, hstands.related.free hfree⟩

/-- The derivative of the symbol is one. -/
theorem derive_sym (ha : a.WellFormed) (he : a.table.items[e]? = some (.sym t)) :
    (derive t e).Leads a fun b d => b.Literal d 1 := by
  have hnode := Arena.node_eq_of_getElem? he
  have hdifferentiates : Differentiates t a fun b e' d => e' = e → b.Literal d 1 :=
    { mono := fun _ hbc h heq => (h.related heq).mono hbc
      num := fun hn _ _ _ heq => by
        rw [heq, hnode] at hn
        cases hn
      sym := fun hn hb _ _ heq => by
        rw [heq, hnode] at hn
        cases hn
        rw [if_pos rfl]
        exact (literal_num hb Exact.one_eq).holds
      neg := fun hn _ _ _ _ heq => by
        rw [heq, hnode] at hn
        cases hn
      arith := fun hn _ _ _ _ _ _ _ heq => by
        rw [heq, hnode] at hn
        cases hn
      call := fun hn _ _ _ _ _ _ heq => by
        rw [heq, hnode] at hn
        cases hn }
  obtain ⟨d, b, hrun, hb, hab, hstands⟩ := hdifferentiates.derive ha
    (.node he trivial fun x hx => absurd hx List.not_mem_nil)
  exact ⟨d, b, hrun, hb, hab, hstands.related rfl⟩

end

end HybridPlan.Build
