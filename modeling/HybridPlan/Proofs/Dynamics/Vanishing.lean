import HybridPlan.Dynamics.Linear
import HybridPlan.Proofs.Dynamics.Decomposition

set_option autoImplicit false

/-! # Divisors that vanish

The closed form of a linear equation divides by powers of the difference of two rates. Where the two
rates have one value without being one expression, such a divisor is zero. Constructors fold much, but
they do not fold this divisor away: it occurs in the integral, so an integral without vanishing
divisors is one for rates with different values. -/

namespace HybridPlan

open Build
open Exact (real)
open ExpPolynomial (Steady)

variable {a b : Arena Exact} {ρ ρ' : String → ℝ} {t : String} {e x y : ExprId} {r : ℝ}

theorem ExpPolynomial.Steady.elsewhere (h : Steady a ρ t e r) (hρ : ∀ s ≠ t, ρ' s = ρ s) :
    Steady a ρ' t e r :=
  ⟨h.free, h.denotes.of_free h.free hρ⟩

namespace Arena

theorem num?_mono (hab : a ≤ b) (he : e < a.size) : b.num? e = a.num? e := by
  rw [num?, num?, node_mono hab he]

/-- What is no number is in the arena. -/
theorem lt_size_of_num? (h : a.num? e = none) : e < a.size := by
  by_contra hlt
  rw [num?, node_of_size_le (Nat.le_of_not_lt hlt)] at h
  cases h

/-- The expression is an exponential with the given rate: one for the rate zero, otherwise a call. -/
def Exponential (a : Arena Exact) (rate e : ExprId) : Prop :=
  a.Literal rate 0 ∧ a.Literal e 1 ∨ ∃ x, a.table.items[e]? = some (.call (.elementary .exp) [x])

theorem Exponential.mono {rate : ExprId} (hab : a ≤ b) (h : a.Exponential rate e) :
    b.Exponential rate e :=
  h.imp (fun h => ⟨h.1.mono hab, h.2.mono hab⟩) fun ⟨x, hx⟩ => ⟨x, hab hx⟩

/-- A divisor occurs in the expression that is free of the symbol and has the value zero. -/
inductive Vanishes (a : Arena Exact) (ρ : String → ℝ) (t : String) : ExprId → Prop
  | divisor {e x y : ExprId} (he : a.table.items[e]? = some (.arith .div x y))
      (hy : Steady a ρ t y 0) : Vanishes a ρ t e
  | operand {e x : ExprId} {n : Node Exact} (he : a.table.items[e]? = some n)
      (hx : x ∈ n.operands) (h : Vanishes a ρ t x) : Vanishes a ρ t e

namespace Vanishes

theorem getElem? (h : a.Vanishes ρ t e) :
    ∃ n, a.table.items[e]? = some n ∧ n.operands ≠ [] := by
  cases h with
  | divisor he _ => exact ⟨_, he, List.cons_ne_nil _ _⟩
  | operand he hx _ => exact ⟨_, he, List.ne_nil_of_mem hx⟩

theorem lt_size (h : a.Vanishes ρ t e) : e < a.size := by
  obtain ⟨n, he, -⟩ := h.getElem?
  exact lt_size_of_getElem? he

/-- There is no divisor in a number. -/
theorem num? (h : a.Vanishes ρ t e) : a.num? e = none := by
  obtain ⟨n, he, hn⟩ := h.getElem?
  rw [Arena.num?, node_eq_of_getElem? he]
  cases n with
  | num => exact absurd rfl hn
  | sym | neg | arith | call | compare | join => rfl

theorem mono (ha : a.WellFormed) (hab : a ≤ b) (h : a.Vanishes ρ t e) : b.Vanishes ρ t e := by
  induction h with
  | divisor he hy => exact .divisor (hab he) (hy.mono ha hab)
  | operand he hx _ ih => exact .operand (hab he) hx ih

/-- A divisor that is free of the symbol vanishes whatever the value of the symbol is. -/
theorem elsewhere (h : a.Vanishes ρ t e) (hρ : ∀ s ≠ t, ρ' s = ρ s) : a.Vanishes ρ' t e := by
  induction h with
  | divisor he hy => exact .divisor he (hy.elsewhere hρ)
  | operand he hx _ ih => exact .operand he hx ih

theorem of_neg (h : a.Vanishes ρ t e) (hn : a.node e = .neg x) : a.Vanishes ρ t x := by
  cases h with
  | divisor he _ =>
    rw [node_eq_of_getElem? he] at hn
    cases hn
  | operand he hx h =>
    rw [node_eq_of_getElem? he] at hn
    subst hn
    rwa [List.mem_singleton.1 hx] at h

theorem exists_divisor (ha : a.WellFormed) (h : a.Vanishes ρ t e) :
    ∃ z ∈ a.subterms e, ∃ x y, a.node z = .arith .div x y ∧
      a.Denotes (fun s => some (real (ρ s))) y 0 := by
  suffices ∀ x ∈ a.subterms e, a.Vanishes ρ t x → ∃ z ∈ a.subterms e, ∃ x y,
      a.node z = .arith .div x y ∧ a.Denotes (fun s => some (real (ρ s))) y 0 from
    this e (self_mem_subterms ha e) h
  intro x hx h
  induction h with
  | divisor he hy => exact ⟨_, hx, _, _, node_eq_of_getElem? he, hy.denotes⟩
  | operand he hy _ ih =>
    exact ih (operands_mem_subterms ha hx (by rwa [node_eq_of_getElem? he]))

end Vanishes

end Arena

namespace Build

/-! ## Constructors keep divisors -/

section

variable (ha : a.WellFormed)
include ha

theorem vanishing_neg (hx : a.Vanishes ρ t x) :
    Leads (neg x) a fun b e => b.Vanishes ρ t e := by
  refine .get ?_
  split
  · next c hc =>
    have hnum := hx.num?
    rw [Arena.num?, hc] at hnum
    cases hnum
  · next y hy => exact .pure ha (hx.of_neg hy)
  · refine .intern ha (by simpa [Node.operands] using hx.lt_size) fun b e hab he => ?_
    exact .operand he (by simp [Node.operands]) (hx.mono ha hab)

theorem vanishing_add (hx : x < a.size) (hy : y < a.size)
    (h : a.Vanishes ρ t x ∨ a.Vanishes ρ t y) :
    Leads (add x y) a fun b e => b.Vanishes ρ t e := by
  refine .get ?_
  split
  · next u w hu hw =>
    rcases h with h | h
    · rw [h.num?] at hu
      cases hu
    · rw [h.num?] at hw
      cases hw
  split
  · next hzero =>
    refine .pure ha (h.resolve_left fun h => ?_)
    rw [h.num?] at hzero
    cases hzero
  split
  · next hzero =>
    refine .pure ha (h.resolve_right fun h => ?_)
    rw [h.num?] at hzero
    cases hzero
  · refine .intern ha (by simp [Node.operands, hx, hy]) fun b e hab he => ?_
    rcases h with h | h
    · exact .operand he (by simp [Node.operands]) (h.mono ha hab)
    · exact .operand he (by simp [Node.operands]) (h.mono ha hab)

/-- A factor other than zero keeps the divisors of the other one. -/
theorem vanishing_mul (hx : x < a.size) (hzero : ¬isNum Scalar.zero (a.num? x))
    (hy : a.Vanishes ρ t y) : Leads (mul x y) a fun b e => b.Vanishes ρ t e := by
  refine .get ?_
  rw [hy.num?]
  split
  · next hw => cases hw
  split
  · next hnum => exact absurd (by simpa [isNum] using hnum) hzero
  split
  · exact .pure ha hy
  split
  · next hone => cases hone
  split
  · exact vanishing_neg ha hy
  split
  · next hone => cases hone
  · refine .intern ha (by simp [Node.operands, hx, hy.lt_size]) fun b e hab he => ?_
    exact .operand he (by simp [Node.operands]) (hy.mono ha hab)

/-- The difference of two expressions is not folded if these are neither numbers nor the same. -/
theorem vanishing_sub (hx : a.Vanishes ρ t x) (hnum : a.num? y = none) (hne : x ≠ y) : Leads (sub x y) a fun b e => b.Vanishes ρ t e := by
  unfold sub
  rw [if_neg hne]
  refine .get ?_
  rw [hx.num?, hnum]
  refine .intern ha (by simp [Node.operands, hx.lt_size, Arena.lt_size_of_num? hnum]) ?_
  intro b e hab he
  exact .operand he (by simp [Node.operands]) (hx.mono ha hab)

/-! ## What is not folded -/

/-- The quotient of something other than zero by something that vanishes and is no number. -/
theorem leads_quotient {u u' : ℝ} (hx : a.Varies t ρ x u u') (hu : u ≠ 0) (hy : Steady a ρ t y 0)
    (hnum : a.num? y = none) :
    Leads (div x y) a fun b e => b.table.items[e]? = some (.arith .div x y) := by
  have hzero : ¬isNum Scalar.zero (a.num? x) := fun h => hu (hx.of_isNum Exact.zero_eq h).1
  have hne : x ≠ y := fun h => hu (hx.denotes.unique (h ▸ hy.denotes))
  refine .get ?_
  rw [hnum]
  dsimp only
  split
  · next hw => cases hw
  rw [if_neg hzero, if_neg (by simp [isNum]), if_neg hne]
  exact .intern ha (by simp [Node.operands, hx.lt_size, hy.free.lt_size]) fun b e _ he => he

/-- A power of something that vanishes and is no number. -/
theorem leads_vanishingPower (n : ℕ) (hx : Steady a ρ t x 0) (hnum : a.num? x = none) :
    Leads (powInt x (n + 1 : ℕ)) a fun b e => Steady b ρ t e 0 ∧ b.num? e = none := by
  have hsteady : Leads (powInt x (n + 1 : ℕ)) a fun b e => Steady b ρ t e 0 :=
    (leads_powInt (n + 1) ha hx.free hx.denotes).imp fun b e h =>
      ⟨h.1, by simpa using h.2⟩
  refine hsteady.and (.bind (literal_num ha (Exact.int_natCast (n + 1)))
    fun exponent b hb hab hexponent => ?_)
  rw [← Arena.num?_mono hab hx.free.lt_size] at hnum
  have hx := hx.mono ha hab
  refine .get ?_
  dsimp only
  rw [hexponent.num?, hnum]
  split
  · next hzero =>
    have hsucc := (isNum_natCast 0 (by simp)).1 hzero
    omega
  split
  · exact .pure hb hnum
  · refine .intern hb ?_ fun c e _ he => ?_
    · simp [Node.operands, hx.free.lt_size, Arena.lt_size_of_getElem? hexponent]
    · simp [Arena.num?, Arena.node_eq_of_getElem? he]

/-- The sum with something that is no number, zero aside. -/
theorem leads_addQuotient (hx : a.Literal x 0 ∨ a.num? x = none) (hnum : a.num? y = none) : Leads (add x y) a fun b e =>
      e = y ∨ b.table.items[e]? = some (.arith .add x y) := by
  refine .get ?_
  rw [hnum]
  split
  · next hw => cases hw
  rcases hx with hzero | hx
  · rw [hzero.num?, if_pos (by simp [Exact.isZero_iff])]
    exact .pure ha (.inl rfl)
  · rw [hx]
    have hlt := Arena.lt_size_of_num? hx
    refine .intern ha (by simp [Node.operands, hlt, Arena.lt_size_of_num? hnum]) ?_
    intro b e _ he
    exact .inr he

/-! ## Exponentials of the symbol -/

/-- The product with a symbol is a number only for the factor zero. -/
theorem leads_mulSym {s : String} (hx : a.IsReal x) (hy : a.table.items[y]? = some (.sym s)) :
    Leads (mul x y) a fun b e => a.Literal x 0 ∧ b.Literal e 0 ∨ b.num? e = none := by
  have hnode : a.node y = .sym s := Arena.node_eq_of_getElem? hy
  have hnum : a.num? y = none := by rw [Arena.num?, hnode]
  refine .get ?_
  rw [hnum]
  split
  · next hw => cases hw
  split
  · next hzero =>
    have hzero : a.isZero x = true := by
      simp only [isNum, Option.any_none, Bool.or_false] at hzero
      exact hzero
    exact (literal_num ha Exact.zero_eq).imp fun b e he => .inl ⟨hx.literal_zero hzero, he⟩
  split
  · exact .pure ha (.inr hnum)
  split
  · next hone => cases hone
  split
  · refine .get ?_
    rw [hnode]
    refine .intern ha (by simpa [Node.operands] using Arena.lt_size_of_getElem? hy) ?_
    intro b e _ he
    exact .inr (by rw [Arena.num?, Arena.node_eq_of_getElem? he])
  split
  · next hone => cases hone
  · refine .intern ha (by simp [Node.operands, hx.lt_size, Arena.lt_size_of_getElem? hy]) ?_
    intro b e _ he
    exact .inr (by rw [Arena.num?, Arena.node_eq_of_getElem? he])

/-- The exponential of something that is no number other than zero. -/
theorem leads_exponential {rate : ExprId}
    (h : a.Literal rate 0 ∧ a.Literal x 0 ∨ a.num? x = none) :
    Leads (call₁ .exp x) a fun b e => b.Exponential rate e := by
  refine .get ?_
  dsimp only
  rcases h with ⟨hrate, hzero⟩ | hnum
  · have hvalue : Elementary.exp.value (real 0) = real (Real.exp 0) := rfl
    rw [hzero.num?, Option.bind_some, Func.value?, hvalue, Real.exp_zero]
    dsimp only
    rw [if_pos Exact.isFinite_real]
    have hone := literal_num ha (u := real 1) rfl
    exact ⟨hone.wellFormed, hone.le, .inl ⟨hrate.mono hone.le, hone.holds⟩⟩
  · rw [hnum]
    refine .intern ha (by simpa [Node.operands] using Arena.lt_size_of_num? hnum) ?_
    intro b e _ he
    exact .inr ⟨x, he⟩

/-- A product with an exponential is not folded unless that is one. -/
theorem leads_exponentialMul {rate g : ExprId} (hg : a.Exponential rate g)
    (hnum : a.num? x = none) : Leads (mul g x) a fun b e =>
      a.Literal rate 0 ∧ e = x ∨ b.table.items[e]? = some (.arith .mul g x) := by
  refine .get ?_
  rcases hg with ⟨hrate, hone⟩ | ⟨z, hz⟩
  · rw [hone.num?, hnum]
    simp only [isNum, Option.any_some, Option.any_none, Bool.or_false, Exact.zero_eq, Exact.one_eq,
      Exact.eq_real]
    rw [if_neg (by simp), if_pos trivial]
    exact .pure ha (.inl ⟨hrate, rfl⟩)
  · have hcall : a.num? g = none := by rw [Arena.num?, Arena.node_eq_of_getElem? hz]
    rw [hcall, hnum]
    have hlt := Arena.lt_size_of_num? hnum
    refine .intern ha (by simp [Node.operands, hlt, Arena.lt_size_of_getElem? hz]) ?_
    intro b e _ he
    exact .inr he

theorem leads_mulExponential {rate g : ExprId} (hg : a.Exponential rate g)
    (hnum : a.num? x = none) : Leads (mul x g) a fun b e =>
      a.Literal rate 0 ∧ e = x ∨ b.table.items[e]? = some (.arith .mul x g) := by
  refine .get ?_
  rcases hg with ⟨hrate, hone⟩ | ⟨z, hz⟩
  · rw [hone.num?, hnum]
    simp only [isNum, Option.any_some, Option.any_none, Bool.false_or, Exact.zero_eq, Exact.one_eq,
      Exact.eq_real]
    rw [if_neg (by simp), if_neg (by simp), if_pos trivial]
    exact .pure ha (.inl ⟨hrate, rfl⟩)
  · have hcall : a.num? g = none := by rw [Arena.num?, Arena.node_eq_of_getElem? hz]
    rw [hcall, hnum]
    have hlt := Arena.lt_size_of_num? hnum
    refine .intern ha (by simp [Node.operands, hlt, Arena.lt_size_of_getElem? hz]) ?_
    intro b e _ he
    exact .inr he

end

end Build

end HybridPlan
