import HybridPlan.Proofs.Dynamics.Vanishing

set_option autoImplicit false

/-! # Integrals by parts

Where no divisor vanishes, the response to a forcing term starts at zero and changes at the rate of the
equation. The polynomial of the integral is found by parts: after `k` summands it misses the integrand
by one term, whose coefficient is the `k`-th falling factorial with alternating sign, and after the
last summand nothing is missed. -/

namespace HybridPlan.Linear

open Build
open Exact (real)
open ExpPolynomial (Steady Totals steady_arith)
open scoped Nat

section

variable {a b : Arena Exact} {ρ : String → ℝ} {s : String} {t d sum x y : ExprId}
  {α δ κ μ γ γ' u₀ u₀' : ℝ} {n k m : ℕ} {falling : Exact}

/-! ## Sums by parts -/

theorem alternate_real (k : ℕ) (r : ℝ) : alternate k (real r) = real ((-1) ^ k * r) := by
  unfold alternate
  split
  · next hk => rw [(Nat.even_iff.2 hk).neg_one_pow, one_mul]
  · next hk => rw [(Nat.odd_iff.2 (by omega)).neg_one_pow, neg_one_mul, Exact.neg_real]

/-- The next falling factorial. -/
theorem falling_real (hk : k ≤ n) (h : falling = real (n.descFactorial (k - 1))) :
    (if k = 0 then falling else falling * Scalar.nat (n - k + 1)) = real (n.descFactorial k) := by
  cases k with
  | zero => simpa using h
  | succ k =>
    have hsub : n - (k + 1) + 1 = n - k := by omega
    rw [if_neg (Nat.succ_ne_zero k), h, hsub, Exact.nat_eq, Exact.real_mul_real,
      Nat.descFactorial_succ, Nat.add_sub_cancel, Nat.cast_mul, mul_comm]

/-- What the summand `k` takes away from what is missed, and what it leaves. -/
theorem missed_succ {τ v v' : ℝ} (hδ : δ ≠ 0)
    (h : v' + δ * v = τ ^ n - (-1) ^ k * n.descFactorial k * τ ^ (n - k) / δ ^ k) :
    v' + (-1) ^ k * n.descFactorial k * ((n - k : ℕ) * τ ^ (n - k - 1)) / δ ^ (k + 1) +
        δ * (v + (-1) ^ k * n.descFactorial k * τ ^ (n - k) / δ ^ (k + 1)) =
      τ ^ n - (-1) ^ (k + 1) * n.descFactorial (k + 1) * τ ^ (n - (k + 1)) / δ ^ (k + 1) := by
  rw [Nat.descFactorial_succ, Nat.cast_mul, ← Nat.sub_sub]
  have hsplit : v' + δ * v = τ ^ n - δ * ((-1) ^ k * n.descFactorial k * τ ^ (n - k) / δ ^ (k + 1)) := by
    rw [h, pow_succ' δ k]
    field_simp
  rw [pow_succ (-1 : ℝ) k]
  linear_combination hsplit

/-- The sum of the first `k` summands: it solves `v' + δ * v = τ ^ n` up to one term. -/
def IsPartial (a : Arena Exact) (ρ : String → ℝ) (s : String) (δ : ℝ) (n k : ℕ) (sum : ExprId) :
    Prop :=
  ∃ v v', a.Varies s ρ sum v v' ∧
    v' + δ * v = ρ s ^ n - (-1) ^ k * n.descFactorial k * ρ s ^ (n - k) / δ ^ k ∧
    (ρ s = 0 → v = if k ≤ n then 0 else (-1) ^ n * n ! / δ ^ (n + 1))

theorem isPartial_zero (h : a.Literal sum 0) : IsPartial a ρ s δ n 0 sum :=
  ⟨0, 0, h.varies, by simp, by simp⟩

/-- The powers of the symbol in the summand `k`. -/
theorem varying_timePower (ρ : String → ℝ) (ha : a.WellFormed) (ht : a.table.items[t]? = some (.sym s)) (hk : k ≤ n) :
    Varying (powInt t ((n : Int) - k)) a s ρ (ρ s ^ (n - k)) ((n - k : ℕ) * ρ s ^ (n - k - 1)) := by
  rw [← Int.ofNat_sub hk]
  exact (varying_powInt ha (.sym ht) (n - k)).imp fun _ _ h => h.congr rfl (by ring)

/-- If the divisor does not vanish, nothing is missed after the last summand. -/
theorem leads_byParts (hδ : δ ≠ 0) (ha : a.WellFormed) (ht : a.table.items[t]? = some (.sym s))
    (hd : Steady a ρ s d δ) (hkm : k + m = n + 1) (hfalling : falling = real (n.descFactorial (k - 1)))
    (hsum : IsPartial a ρ s δ n k sum) : Leads (byParts t d n m k falling sum) a
      fun b p => IsPartial b ρ s δ n (n + 1) p.1 ∧ p.2 = real n ! := by
  induction m generalizing a k falling sum with
  | zero =>
    obtain rfl : k = n + 1 := hkm
    exact .pure ha ⟨hsum, by rw [hfalling, Nat.add_sub_cancel, Nat.descFactorial_self]⟩
  | succ m ih =>
    have hk : k ≤ n := by omega
    have hfalling := falling_real hk hfalling
    unfold byParts
    dsimp only
    rw [hfalling, alternate_real]
    refine .bind (literal_num ha rfl) fun c b hb hab hc => ?_
    refine .bind (varying_timePower ρ hb (hab ht) hk) fun tPower b₁ hb₁ h₁ htPower => ?_
    have hd₁ := hd.mono ha (le_trans hab h₁)
    refine .bind (leads_powInt (k + 1) hb₁ hd₁.free hd₁.denotes) fun dPower b₂ hb₂ h₂ hdPower => ?_
    refine .bind (varying_mul hb₂ (hc.mono (le_trans h₁ h₂)).varies (htPower.mono hb₁ h₂))
      fun numerator b₃ hb₃ h₃ hnumerator => ?_
    refine .bind (varying_div hb₃ hnumerator (hdPower.1.mono h₃)
      ((Arena.agreeBelow_of_le hb₂ h₃).denotes hdPower.1.lt_size hdPower.2) (pow_ne_zero _ hδ))
      fun summand b₄ hb₄ h₄ hsummand => ?_
    have hle : a ≤ b₄ := le_trans hab (le_trans h₁ (le_trans h₂ (le_trans h₃ h₄)))
    obtain ⟨v, v', hv, hmissed, hstart⟩ := hsum
    refine .bind (varying_add hb₄ (hv.mono ha hle) hsummand) fun sum b₅ hb₅ h₅ hsum => ?_
    have hle₅ := le_trans hle h₅
    refine ih hb₅ (hle₅ ht) (hd.mono ha hle₅) (by omega) (by rw [Nat.add_sub_cancel]) ?_
    refine ⟨_, _, hsum, ?_, fun hτ => ?_⟩
    · rw [← missed_succ hδ hmissed]
      ring
    · -- at the start only the last summand is left
      rw [hstart hτ, if_pos hk, hτ]
      by_cases hlast : k = n
      · subst hlast
        simp [Nat.descFactorial_self]
      · have hpos : n - k ≠ 0 := by omega
        rw [if_pos (by omega), zero_pow hpos]
        ring

/-- The expression is a quotient or a sum. -/
def IsSum (a : Arena Exact) (e : ExprId) : Prop :=
  ∃ x y, a.table.items[e]? = some (.arith .div x y) ∨ a.table.items[e]? = some (.arith .add x y)

theorem IsSum.mono (hab : a ≤ b) (h : IsSum a sum) : IsSum b sum := by
  obtain ⟨x, y, h⟩ := h
  exact ⟨x, y, h.imp (hab ·) (hab ·)⟩

/-- If the divisor vanishes without being a number, it occurs in the polynomial. -/
theorem vanishing_byParts (hτ : ρ s ≠ 0) (ha : a.WellFormed)
    (ht : a.table.items[t]? = some (.sym s)) (hd : Steady a ρ s d 0) (hnum : a.num? d = none)
    (hkm : k + m = n + 1) (hfalling : falling = real (n.descFactorial (k - 1)))
    (hsum : a.Literal sum 0 ∧ 0 < m ∨ a.Vanishes ρ s sum ∧ IsSum a sum) :
    Leads (byParts t d n m k falling sum) a
      fun b p => (b.Vanishes ρ s p.1 ∧ IsSum b p.1) ∧ p.2 = real n ! := by
  induction m generalizing a k falling sum with
  | zero =>
    obtain rfl : k = n + 1 := hkm
    refine .pure ha ⟨hsum.resolve_left fun h => Nat.lt_irrefl 0 h.2, ?_⟩
    rw [hfalling, Nat.add_sub_cancel, Nat.descFactorial_self]
  | succ m ih =>
    have hk : k ≤ n := by omega
    have hfalling := falling_real hk hfalling
    unfold byParts
    dsimp only
    rw [hfalling, alternate_real]
    refine .bind (literal_num ha rfl) fun c b hb hab hc => ?_
    refine .bind (varying_timePower ρ hb (hab ht) hk) fun tPower b₁ hb₁ h₁ htPower => ?_
    have hle₁ := le_trans hab h₁
    refine .bind (leads_vanishingPower hb₁ k (hd.mono ha hle₁)
      (by rwa [Arena.num?_mono hle₁ hd.free.lt_size])) fun dPower b₂ hb₂ h₂ ⟨hdPower₂, hnum₂⟩ => ?_
    refine .bind (varying_mul hb₂ (hc.mono (le_trans h₁ h₂)).varies (htPower.mono hb₁ h₂))
      fun numerator b₃ hb₃ h₃ hnumerator => ?_
    have hdPower := hdPower₂.mono hb₂ h₃
    have hne : (-1) ^ k * (n.descFactorial k : ℝ) * ρ s ^ (n - k) ≠ 0 := by
      have hpos : n.descFactorial k ≠ 0 := by rwa [Ne, Nat.descFactorial_eq_zero_iff_lt, not_lt]
      exact mul_ne_zero (mul_ne_zero (pow_ne_zero _ (by norm_num)) (Nat.cast_ne_zero.2 hpos))
        (pow_ne_zero _ hτ)
    refine .bind (leads_quotient hb₃ hnumerator hne hdPower
      (by rwa [Arena.num?_mono h₃ hdPower₂.free.lt_size]))
      fun summand b₄ hb₄ h₄ hsummand => ?_
    have hle₄ : a ≤ b₄ := le_trans hle₁ (le_trans h₂ (le_trans h₃ h₄))
    have hquotient : b₄.Vanishes ρ s summand := .divisor hsummand (hdPower.mono hb₃ h₄)
    refine .bind (leads_addQuotient hb₄ (hsum.imp (fun h => h.1.mono hle₄)
      fun h => (h.1.mono ha hle₄).num?) hquotient.num?)
      fun sum b₅ hb₅ h₅ hsum => ?_
    have hle₅ := le_trans hle₄ h₅
    refine ih hb₅ (hle₅ ht) (hd.mono ha hle₅) (by rwa [Arena.num?_mono hle₅ hd.free.lt_size])
      (by omega) (by rw [Nat.add_sub_cancel]) (.inr ?_)
    rcases hsum with rfl | hsum
    · exact ⟨hquotient.mono hb₄ h₅, _, _, .inl (h₅ hsummand)⟩
    · exact ⟨.operand hsum (by simp [Node.operands]) (hquotient.mono hb₄ h₅), _, _, .inr hsum⟩

/-! ## Responses -/

/-- The expression solves the equation `u' = α * u + γ` and starts at `u₀`, except that a divisor in
it may vanish in the case `R`. -/
def Solves (a : Arena Exact) (ρ : String → ℝ) (s : String) (R : Prop) (α γ u₀ : ℝ) (e : ExprId) :
    Prop :=
  R ∧ a.Vanishes ρ s e ∨ ∃ u, a.Varies s ρ e u (α * u + γ) ∧ (ρ s = 0 → u = u₀)

variable {R R' : Prop}

theorem Solves.mono (ha : a.WellFormed) (hab : a ≤ b) (h : Solves a ρ s R α γ u₀ x) :
    Solves b ρ s R α γ u₀ x :=
  h.imp (fun h => ⟨h.1, h.2.mono ha hab⟩) fun ⟨u, hu, hstart⟩ => ⟨u, hu.mono ha hab, hstart⟩

theorem Solves.imp (hR : R → R') (h : Solves a ρ s R α γ u₀ x) : Solves a ρ s R' α γ u₀ x :=
  h.imp_left fun h => ⟨hR h.1, h.2⟩

theorem Solves.lt_size (h : Solves a ρ s R α γ u₀ x) : x < a.size := by
  rcases h with ⟨-, h⟩ | ⟨u, hu, -⟩
  · exact h.lt_size
  · exact hu.lt_size

theorem Solves.add (ha : a.WellFormed) (hx : Solves a ρ s R α γ u₀ x)
    (hy : Solves a ρ s R α γ' u₀' y) : Leads (add x y) a
      fun b e => Solves b ρ s R α (γ + γ') (u₀ + u₀') e := by
  have hlt := hx.lt_size
  have hlt' := hy.lt_size
  rcases hx with ⟨hR, hx⟩ | ⟨u, hu, hstart⟩
  · exact (vanishing_add ha hlt hlt' (.inl hx)).imp fun _ _ h => .inl ⟨hR, h⟩
  rcases hy with ⟨hR, hy⟩ | ⟨w, hw, hstart'⟩
  · exact (vanishing_add ha hlt hlt' (.inr hy)).imp fun _ _ h => .inl ⟨hR, h⟩
  refine (varying_add ha hu hw).imp fun b e he => .inr ⟨u + w, he.congr rfl (by ring), fun hτ => ?_⟩
  rw [hstart hτ, hstart' hτ]

/-- A response that starts at zero, multiplied by what does not vary. -/
theorem Solves.mul (ha : a.WellFormed) (hx : Steady a ρ s x κ) (hy : Solves a ρ s R α γ 0 y) :
    Leads (mul x y) a fun b e => Solves b ρ s R α (κ * γ) 0 e := by
  have hstill : a.Varies s ρ x κ 0 := .still hx.free hx.denotes
  rcases hy with ⟨hR, hy⟩ | ⟨u, hu, hstart⟩
  · by_cases hzero : isNum Scalar.zero (a.num? x)
    · -- a factor zero removes the divisors with the response
      obtain ⟨rfl, -⟩ := hstill.of_isNum Exact.zero_eq hzero
      have hliteral := literal_zero_mul ha (hx.free.literal_zero hzero) (y := y) fun w hw => by
        rw [hy.num?] at hw
        cases hw
      refine hliteral.imp fun b e he => .inr ⟨0, he.varies.congr rfl (by ring), fun _ => rfl⟩
    · exact (vanishing_mul ha hx.free.lt_size hzero hy).imp fun _ _ h => .inl ⟨hR, h⟩
  · refine (varying_mul ha hstill hu).imp fun b e he => .inr ⟨κ * u, he.congr rfl (by ring), ?_⟩
    intro hτ
    rw [hstart hτ, mul_zero]

/-! ## Integrals -/

/-- The same rates have the difference zero. -/
theorem literal_sub_self (ha : a.WellFormed) (h : x = y) :
    Leads (sub x y) a fun b e => b.Literal e 0 := by
  unfold sub
  rw [if_pos h]
  exact literal_num ha Exact.zero_eq

/-- The integral for two rates that are the same expression. -/
theorem leads_resonant (R : Prop) (n : ℕ) {growth : ExprId} (ha : a.WellFormed)
    (ht : a.table.items[t]? = some (.sym s))
    (hgrowth : a.Varies s ρ growth (Real.exp (α * ρ s)) (Real.exp (α * ρ s) * α)) : Leads (do
      let tPower ← powInt t (n + 1)
      let denominator ← num (Scalar.nat (n + 1))
      let quotient ← div tPower denominator
      Build.mul quotient growth) a
        fun b e => Solves b ρ s R α (ρ s ^ n * Real.exp (α * ρ s)) 0 e := by
  have htime : a.Varies s ρ t (ρ s) 1 := .sym ht
  refine .bind (varying_powInt ha htime (n + 1)) fun tPower b hb hab htPower => ?_
  refine .bind (literal_num hb (Exact.nat_eq (n + 1))) fun denominator c hc hbc hdenominator => ?_
  have hne : ((n + 1 : ℕ) : ℝ) ≠ 0 := Nat.cast_ne_zero.2 (Nat.succ_ne_zero n)
  refine .bind (varying_div hc (htPower.mono hb hbc) hdenominator.uses hdenominator.denotes hne)
    fun quotient d hd hcd hquotient => ?_
  have had := le_trans hab (le_trans hbc hcd)
  refine (varying_mul hd hquotient (hgrowth.mono ha had)).imp fun b e he => .inr ⟨_, he.congr rfl ?_, ?_⟩
  · rw [Nat.add_sub_cancel]
    field_simp
    ring
  · intro hτ
    rw [hτ]
    simp

/-- The integral for the rate `rate` and another one, less by `d`, at which `growth` grows. -/
noncomputable def integralByParts (t d growth rate : ExprId) (n : ℕ) : Build Exact ExprId := do
  let zeroExpr ← zero
  let (polynomial, falling) ← byParts t d n (n + 1) 0 Scalar.one zeroExpr
  let c ← num (alternate n falling)
  let dPower ← powInt d (n + 1)
  let atStart ← div c dPower
  let rateTime ← Build.mul rate t
  let oscillation ← call₁ .exp rateTime
  let head ← Build.mul oscillation polynomial
  let tail ← Build.mul atStart growth
  sub head tail

variable {growth rate rate' : ExprId}

theorem first_falling (n : ℕ) : (Scalar.one : Exact) = real (n.descFactorial (0 - 1)) := by simp

/-- The integral for two rates with different values. -/
theorem leads_integralByParts (R : Prop) (hδ : δ ≠ 0) (hμ : μ = α + δ) (ha : a.WellFormed)
    (ht : a.table.items[t]? = some (.sym s)) (hd : Steady a ρ s d δ) (hrate : Steady a ρ s rate μ)
    (hgrowth : a.Varies s ρ growth (Real.exp (α * ρ s)) (Real.exp (α * ρ s) * α)) :
    Leads (integralByParts t d growth rate n) a
      fun b e => Solves b ρ s R α (ρ s ^ n * Real.exp (μ * ρ s)) 0 e := by
  refine .bind (literal_num ha Exact.zero_eq) fun zeroExpr b hb hab hzero => ?_
  refine .bind (leads_byParts hδ hb (hab ht) (hd.mono ha hab) (Nat.zero_add _) (first_falling n)
    (isPartial_zero hzero)) fun p b₁ hb₁ h₁ ⟨⟨v, v', hv, hmissed, hstart⟩, hfalling⟩ => ?_
  obtain ⟨polynomial, falling⟩ := p
  obtain rfl : falling = real n ! := hfalling
  dsimp only at hv ⊢
  rw [alternate_real]
  have hle₁ := le_trans hab h₁
  refine .bind (literal_num hb₁ rfl) fun c b₂ hb₂ h₂ hc => ?_
  have hd₂ := hd.mono ha (le_trans hle₁ h₂)
  refine .bind (leads_powInt (n + 1) hb₂ hd₂.free hd₂.denotes) fun dPower b₃ hb₃ h₃ hdPower => ?_
  refine .bind (varying_div hb₃ (hc.mono h₃).varies hdPower.1 hdPower.2 (pow_ne_zero _ hδ))
    fun atStart b₄ hb₄ h₄ hatStart => ?_
  have hle₄ : a ≤ b₄ := le_trans hle₁ (le_trans h₂ (le_trans h₃ h₄))
  have htime : b₄.Varies s ρ t (ρ s) 1 := .sym (hle₄ ht)
  have hstill : b₄.Varies s ρ rate μ 0 := .still (hrate.mono ha hle₄).free (hrate.mono ha hle₄).denotes
  refine .bind (varying_mul hb₄ hstill htime) fun rateTime b₅ hb₅ h₅ hrateTime => ?_
  refine .bind (varying_exp hb₅ hrateTime) fun oscillation b₆ hb₆ h₆ hoscillation => ?_
  have hle₆ : b₁ ≤ b₆ := le_trans h₂ (le_trans h₃ (le_trans h₄ (le_trans h₅ h₆)))
  refine .bind (varying_mul hb₆ hoscillation (hv.mono hb₁ hle₆)) fun head b₇ hb₇ h₇ hhead => ?_
  have hatStart := hatStart.mono hb₄ (le_trans h₅ (le_trans h₆ h₇))
  have hgrowth := hgrowth.mono ha (le_trans hle₄ (le_trans h₅ (le_trans h₆ h₇)))
  refine .bind (varying_mul hb₇ hatStart hgrowth) fun tail b₈ hb₈ h₈ htail => ?_
  refine (varying_sub hb₈ (hhead.mono hb₇ h₈) htail).imp fun b e he =>
    .inr ⟨_, he.congr rfl ?_, fun hτ => ?_⟩
  · rw [Nat.descFactorial_of_lt (Nat.lt_succ_self n)] at hmissed
    rw [hμ]
    linear_combination -Real.exp ((α + δ) * ρ s) * hmissed
  · rw [hstart hτ, if_neg (Nat.not_succ_le_self n), hτ]
    simp

section

variable {c dPower polynomial atStart oscillation head tail : ExprId}

/-- The two halves of the integral are the same only if both exponentials are one. -/
theorem head_ne_tail (ha : a.WellFormed) (hne : rate ≠ rate') (hsum : IsSum a polynomial)
    (hatStart : a.table.items[atStart]? = some (.arith .div c dPower))
    (hoscillation : a.Exponential rate oscillation)
    (hhead : a.Literal rate 0 ∧ head = polynomial ∨
      a.table.items[head]? = some (.arith .mul oscillation polynomial))
    (htail : a.Literal rate' 0 ∧ tail = atStart ∨
      a.table.items[tail]? = some (.arith .mul atStart growth)) : head ≠ tail := by
  rintro rfl
  have hsame {n n' : Node Exact} {e : ExprId} (h : a.table.items[e]? = some n)
      (h' : a.table.items[e]? = some n') : n = n' := Option.some.inj (h.symm.trans h')
  rcases hhead with ⟨hrate, rfl⟩ | hhead
  · rcases htail with ⟨hrate', -⟩ | htail
    · exact hne (ha.number_unique hrate hrate')
    · obtain ⟨x, y, hsum | hsum⟩ := hsum
      · cases hsame htail hsum
      · cases hsame htail hsum
  · rcases htail with ⟨-, rfl⟩ | htail
    · cases hsame hhead hatStart
    · cases hsame hhead htail
      rcases hoscillation with ⟨-, hone⟩ | ⟨x, hcall⟩
      · cases hsame hatStart hone
      · cases hsame hatStart hcall

/-- The difference of the two halves keeps the divisor of the first one. -/
theorem vanishing_halves (ha : a.WellFormed) (hne : rate ≠ rate')
    (hpolynomial : a.Vanishes ρ s polynomial) (hsum : IsSum a polynomial)
    (hatStart : a.table.items[atStart]? = some (.arith .div c dPower))
    (hoscillation : a.Exponential rate oscillation)
    (hhead : a.Literal rate 0 ∧ head = polynomial ∨
      a.table.items[head]? = some (.arith .mul oscillation polynomial))
    (htail : a.Literal rate' 0 ∧ tail = atStart ∨
      a.table.items[tail]? = some (.arith .mul atStart growth)) :
    Leads (sub head tail) a fun b e => b.Vanishes ρ s e := by
  have hdifferent := head_ne_tail ha hne hsum hatStart hoscillation hhead htail
  refine vanishing_sub ha ?_ ?_ hdifferent
  · rcases hhead with ⟨-, rfl⟩ | hhead
    · exact hpolynomial
    · exact .operand hhead (by simp [Node.operands]) hpolynomial
  · rcases htail with ⟨-, rfl⟩ | htail
    · rw [Arena.num?, Arena.node_eq_of_getElem? hatStart]
    · rw [Arena.num?, Arena.node_eq_of_getElem? htail]

end

/-- The integral for two rates with one value that are not the same expression. -/
theorem vanishing_integralByParts (hτ : ρ s ≠ 0) (ha : a.WellFormed)
    (ht : a.table.items[t]? = some (.sym s)) (hd : Steady a ρ s d 0) (hnum : a.num? d = none)
    (hrate : a.IsReal rate) (hgrowth : a.Exponential rate' growth) (hne : rate ≠ rate') :
    Leads (integralByParts t d growth rate n) a fun b e => b.Vanishes ρ s e := by
  refine .bind (literal_num ha Exact.zero_eq) fun zeroExpr b hb hab hzero => ?_
  refine .bind (vanishing_byParts hτ hb (hab ht) (hd.mono ha hab)
    (by rwa [Arena.num?_mono hab hd.free.lt_size]) (Nat.zero_add _) (first_falling n)
    (.inl ⟨hzero, Nat.succ_pos n⟩)) fun p b₁ hb₁ h₁ ⟨⟨hpolynomial, hsum⟩, hfalling⟩ => ?_
  obtain ⟨polynomial, falling⟩ := p
  obtain rfl : falling = real n ! := hfalling
  dsimp only at hpolynomial hsum ⊢
  rw [alternate_real]
  have hle₁ := le_trans hab h₁
  refine .bind (literal_num hb₁ rfl) fun c b₂ hb₂ h₂ hc => ?_
  have hle₂ := le_trans hle₁ h₂
  refine .bind (leads_vanishingPower hb₂ n (hd.mono ha hle₂)
    (by rwa [Arena.num?_mono hle₂ hd.free.lt_size])) fun dPower b₃ hb₃ h₃ ⟨hdPower, hnum₃⟩ => ?_
  have hcne : (-1) ^ n * (n ! : ℝ) ≠ 0 :=
    mul_ne_zero (pow_ne_zero _ (by norm_num)) (Nat.cast_ne_zero.2 (Nat.factorial_ne_zero n))
  have hc : b₃.Varies s ρ c _ 0 := (hc.mono h₃).varies
  refine .bind (leads_quotient hb₃ hc hcne hdPower hnum₃) fun atStart b₄ hb₄ h₄ hatStart => ?_
  have hle₄ : a ≤ b₄ := le_trans hle₂ (le_trans h₃ h₄)
  refine .bind (leads_mulSym hb₄ (hrate.mono hle₄) (hle₄ ht)) fun rateTime b₅ hb₅ h₅ hrateTime => ?_
  refine .bind (leads_exponential hb₅ (hrateTime.imp_left fun h => ⟨h.1.mono h₅, h.2⟩))
    fun oscillation b₆ hb₆ h₆ hoscillation => ?_
  have hle₆ : b₁ ≤ b₆ := le_trans h₂ (le_trans h₃ (le_trans h₄ (le_trans h₅ h₆)))
  have hpolynomial := hpolynomial.mono hb₁ hle₆
  refine .bind (leads_exponentialMul hb₆ hoscillation hpolynomial.num?) fun head b₇ hb₇ h₇ hhead => ?_
  have hle₇ : b₄ ≤ b₇ := le_trans h₅ (le_trans h₆ h₇)
  have hatStart := hle₇ hatStart
  refine .bind (leads_mulExponential hb₇ (hgrowth.mono (le_trans hle₄ hle₇))
    (show b₇.num? atStart = none by rw [Arena.num?, Arena.node_eq_of_getElem? hatStart]))
    fun tail b₈ hb₈ h₈ htail => ?_
  have hle₈ : b₁ ≤ b₈ := le_trans hle₆ (le_trans h₇ h₈)
  refine vanishing_halves hb₈ hne (hpolynomial.mono hb₆ (le_trans h₇ h₈)) (hsum.mono hle₈)
    (h₈ hatStart) (hoscillation.mono (le_trans h₇ h₈)) ?_ (htail.imp_left fun h => ⟨h.1.mono h₈, h.2⟩)
  exact hhead.imp (fun h => ⟨h.1.mono (le_trans h₇ h₈), h.2⟩) fun h => h₈ h

/-- The integral solves the equation, unless the two rates have one value. -/
theorem solves_integral {term : ExpTerm} (ha : a.WellFormed)
    (ht : a.table.items[t]? = some (.sym s)) (hrate' : Steady a ρ s rate' α)
    (hrate : Steady a ρ s term.rate μ) (hexponential : a.Exponential rate' growth)
    (hgrowth : a.Varies s ρ growth (Real.exp (α * ρ s)) (Real.exp (α * ρ s) * α)) :
    Leads (integral t rate' growth term) a
      fun b e => Solves b ρ s (μ = α) α (ρ s ^ term.power * Real.exp (μ * ρ s)) 0 e := by
  have hdifference : Leads (sub term.rate rate') a
      fun b d => Steady b ρ s d (μ - α) ∧ (term.rate = rate' → b.Literal d 0) := by
    refine (steady_arith .sub ha hrate hrate' rfl).and ?_
    by_cases heq : term.rate = rate'
    · exact (literal_sub_self ha heq).imp fun _ _ h _ => h
    · exact (uses_arith .sub ha hrate.free hrate'.free).imp fun _ _ _ h => absurd h heq
  refine .bind hdifference fun d b hb hab ⟨hd, hsame⟩ => .get ?_
  have hgrowth := hgrowth.mono ha hab
  have hrate := hrate.mono ha hab
  split
  · next hzero =>
    have hδ : μ - α = 0 := hd.denotes.unique (hd.free.literal_zero hzero).denotes
    rw [sub_eq_zero.1 hδ]
    exact leads_resonant _ term.power hb (hab ht) hgrowth
  next hzero =>
  by_cases hδ : μ - α = 0
  · -- the rates have one value but are not one expression
    rw [hδ] at hd
    have hnum : b.num? d = none := by
      by_contra hnum
      obtain ⟨u, hu⟩ := Option.ne_none_iff_exists'.1 hnum
      obtain ⟨r, rfl, hr⟩ := hd.free.exists_literal hu
      obtain rfl := hd.denotes.unique hr.denotes
      exact hzero hr.isZero
    have hne : term.rate ≠ rate' := fun h => hzero (hsame h).isZero
    -- whether a divisor vanishes does not depend on the symbol
    have hone : Function.update ρ s 1 s ≠ 0 := by simp
    have helsewhere : ∀ s' ≠ s, Function.update ρ s 1 s' = ρ s' := fun s' h => by simp [h]
    have hvanishing := vanishing_integralByParts hone hb (hab ht) (hd.elsewhere helsewhere) hnum
      hrate.free.isReal (hexponential.mono hab) hne (n := term.power)
    exact hvanishing.imp fun _ _ h =>
      .inl ⟨sub_eq_zero.1 hδ, h.elsewhere fun s' hs => (helsewhere s' hs).symm⟩
  · exact leads_integralByParts _ hδ (by ring) hb (hab ht) hd hrate hgrowth

/-! ## Solutions -/

/-- Adding the responses to the terms of a forcing adds the forcing to the equation. -/
theorem solves_addResponses {terms : List ExpTerm} (ha : a.WellFormed)
    (ht : a.table.items[t]? = some (.sym s)) (hrate : Steady a ρ s rate α)
    (hexponential : a.Exponential rate growth)
    (hgrowth : a.Varies s ρ growth (Real.exp (α * ρ s)) (Real.exp (α * ρ s) * α))
    (hterms : Totals a ρ s terms γ') (hR : ∀ term ∈ terms, Steady a ρ s term.rate α → R)
    (hsum : Solves a ρ s R α γ u₀ sum) :
    Leads (addResponses t rate growth terms sum) a fun b e => Solves b ρ s R α (γ + γ') u₀ e := by
  induction terms generalizing a γ γ' sum with
  | nil =>
    cases hterms
    rw [add_zero]
    exact .pure ha hsum
  | cons term terms ih =>
    cases hterms with
    | @cons _ _ κ μ γ' hκ hμ hterms =>
      unfold addResponses
      rw [List.foldlM_cons]
      have hresponse : Leads (do
          let part ← integral t rate growth term
          let scaled ← Build.mul term.coefficient part
          Build.add sum scaled) a fun b e =>
            Solves b ρ s R α (γ + κ * ρ s ^ term.power * Real.exp (μ * ρ s)) u₀ e := by
        refine .bind (solves_integral ha ht hrate hμ hexponential hgrowth)
          fun part b hb hab hpart => ?_
        have hpart := hpart.imp fun heq : μ = α => hR term List.mem_cons_self (heq ▸ hμ)
        refine .bind (hpart.mul hb (hκ.mono ha hab)) fun scaled c hc hbc hscaled => ?_
        have hadd := (hsum.mono ha (le_trans hab hbc)).add hc hscaled
        rwa [add_zero, ← mul_assoc] at hadd
      refine .bind hresponse fun sum b hb hab hsum => ?_
      have hR (term : ExpTerm) (hterm : term ∈ terms) (h : Steady b ρ s term.rate α) : R := by
        obtain ⟨μ, hμ⟩ := hterms.exists_rate hterm
        refine hR term (List.mem_cons_of_mem _ hterm) ?_
        rwa [h.denotes.unique (hμ.mono ha hab).denotes]
      have hrest := ih hb (hab ht) (hrate.mono ha hab) (hexponential.mono hab) (hgrowth.mono ha hab)
        (Totals.mono ha hab hterms) hR hsum
      rwa [add_assoc] at hrest

/-- The solution starts at the state and solves the equation, unless the rate has the value of a rate
of the forcing. -/
theorem solves_solution {x dt : String} {forcing : List ExpTerm} (hx : x ≠ dt) (ha : a.WellFormed)
    (hrate : Steady a ρ dt rate α) (hforcing : Totals a ρ dt forcing γ) :
    Leads (solution x dt rate forcing) a fun b e =>
      Solves b ρ dt (∃ term ∈ forcing, Steady a ρ dt term.rate α) α γ (ρ x) e := by
  have htime : Leads (sym ⟨dt, none⟩) a fun b e => b.table.items[e]? = some (.sym dt) :=
    .intern ha (by simp [Node.operands]) fun _ _ _ he => he
  refine .bind htime fun t b hb hab ht => ?_
  have hstill : b.Varies dt ρ rate α 0 := .still (hrate.mono ha hab).free (hrate.mono ha hab).denotes
  have hvaries : b.Varies dt ρ t (ρ dt) 1 := .sym ht
  refine .bind ((varying_mul hb hstill hvaries).and (leads_mulSym hb hstill.isReal ht))
    fun exponent c hc hbc hproduct => ?_
  obtain ⟨hexponent, hshape⟩ := hproduct
  refine .bind ((varying_exp hc hexponent).and
    (leads_exponential hc (hshape.imp_left fun h => ⟨h.1.mono hbc, h.2⟩)))
    fun growth d hd hcd hexp => ?_
  obtain ⟨hgrowth, hexponential⟩ := hexp
  have hgrowth : d.Varies dt ρ growth (Real.exp (α * ρ dt)) (Real.exp (α * ρ dt) * α) :=
    hgrowth.congr rfl (by ring)
  refine .bind (varying_sym_of_ne hd hx ρ) fun start b' hb' hdb' hstart => ?_
  have hgrowth := hgrowth.mono hd hdb'
  refine .bind (varying_mul hb' hstart hgrowth) fun homogeneous c' hc' hbc' hhomogeneous => ?_
  have hbc := le_trans hbc (le_trans hcd (le_trans hdb' hbc'))
  have hac := le_trans hab hbc
  have hsolves : Solves c' ρ dt (∃ term ∈ forcing, Steady a ρ dt term.rate α) α 0 (ρ x)
      homogeneous := by
    refine .inr ⟨_, hhomogeneous.congr rfl (by ring), fun hτ => ?_⟩
    rw [hτ, mul_zero, Real.exp_zero, mul_one]
  have hresponses := solves_addResponses hc' (hbc ht) (hrate.mono ha hac)
    (hexponential.mono (le_trans hdb' hbc')) (hgrowth.mono hb' hbc') (hforcing.mono ha hac)
    (fun term hterm h => ?_) hsolves
  · rwa [zero_add] at hresponses
  · obtain ⟨μ, hμ⟩ := hforcing.exists_rate hterm
    refine ⟨term, hterm, ?_⟩
    rwa [h.denotes.unique (hμ.mono ha hac).denotes]

end

end HybridPlan.Linear
