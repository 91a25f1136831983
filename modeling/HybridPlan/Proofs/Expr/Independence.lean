import HybridPlan.Proofs.Expr.Calculus
import HybridPlan.Proofs.Expr.Subterms

set_option autoImplicit false

/-! # Independence of a symbol

An expression that has a value is built from real numbers. Constructors make real numbers from real
numbers, and where a symbol does not occur they do not bring it in. -/

namespace HybridPlan

open Exact (real)

/-! ## Vocabularies of real numbers -/

/-- The vocabulary of all real numbers and of certain symbols. -/
def Vocabulary.ofReals (symbol : String → Prop) : Vocabulary Exact where
  literal x := ∃ r, x = real r
  symbol := symbol

theorem Vocabulary.closed_ofReals (symbol : String → Prop) : (ofReals symbol).Closed where
  elementary _ := trivial
  nat n := ⟨n, Exact.nat_eq n⟩
  finite _ h := Exact.isFinite_iff.1 h
  neg := by
    rintro _ ⟨r, rfl⟩
    exact ⟨-r, Exact.neg_real⟩
  add := by
    rintro _ _ ⟨q, rfl⟩ ⟨r, rfl⟩
    exact ⟨q + r, Exact.real_add_real⟩
  sub := by
    rintro _ _ ⟨q, rfl⟩ ⟨r, rfl⟩
    exact ⟨q - r, Exact.real_sub_real⟩
  mul := by
    rintro _ _ ⟨q, rfl⟩ ⟨r, rfl⟩
    exact ⟨q * r, Exact.real_mul_real⟩
  div := by
    rintro _ _ ⟨q, rfl⟩ ⟨r, rfl⟩ hr
    refine ⟨q / r, Exact.real_div_real fun hzero => hr ?_⟩
    rw [hzero, Exact.isZero_iff]

theorem Node.Denotes.exists_operand {v : Valuation Exact} {n : Node Exact}
    {operand : ExprId → ℝ → Prop} {r : ℝ} (h : n.Denotes v operand r) :
    ∀ x ∈ n.operands, ∃ q, operand x q := by
  cases n with
  | num | sym => exact fun x hx => absurd hx List.not_mem_nil
  | neg x =>
    obtain ⟨q, hq, -⟩ := h
    simpa [operands] using ⟨q, hq⟩
  | arith op x y =>
    obtain ⟨q, q', hq, hq', -⟩ := h
    simpa [operands] using ⟨⟨q, hq⟩, q', hq'⟩
  | call f args =>
    rcases f with f | _
    · rcases args with _ | ⟨x, _ | _⟩
      · exact h.elim
      · obtain ⟨q, hq, -⟩ := h
        simpa [operands] using ⟨q, hq⟩
      · exact h.elim
    · exact h.elim
  | compare | join => exact h.elim

theorem Node.Denotes.imp {v : Valuation Exact} {n : Node Exact} {operand operand' : ExprId → ℝ → Prop}
    {r : ℝ} (h : n.Denotes v operand r)
    (himp : ∀ x ∈ n.operands, ∀ q, operand x q → operand' x q) : n.Denotes v operand' r := by
  cases n with
  | num | sym => exact h
  | neg x =>
    obtain ⟨q, hq, hr⟩ := h
    exact ⟨q, himp x (by simp [operands]) q hq, hr⟩
  | arith op x y =>
    obtain ⟨q, q', hq, hq', hr⟩ := h
    exact ⟨q, q', himp x (by simp [operands]) q hq, himp y (by simp [operands]) q' hq', hr⟩
  | call f args =>
    rcases f with f | _
    · rcases args with _ | ⟨x, _ | _⟩
      · exact h.elim
      · obtain ⟨q, hq, hr⟩ := h
        exact ⟨q, himp x (by simp [operands]) q hq, hr⟩
      · exact h.elim
    · exact h.elim
  | compare | join => exact h.elim

namespace Arena

/-- All numbers in the expression are real. -/
abbrev IsReal (a : Arena Exact) (e : ExprId) : Prop := a.Uses (.ofReals fun _ => True) e

/-- All numbers in the expression are real, and a symbol does not occur. -/
abbrev Free (a : Arena Exact) (t : String) (e : ExprId) : Prop := a.Uses (.ofReals (· ≠ t)) e

variable {a : Arena Exact} {t : String} {e : ExprId} {v : Valuation Exact} {r : ℝ}
  {symbol : String → Prop}

theorem Uses.weaken {symbol' : String → Prop} (he : a.Uses (.ofReals symbol) e)
    (h : ∀ s, symbol s → symbol' s) : a.Uses (.ofReals symbol') e := by
  refine he.imp fun n hn => ?_
  cases n with
  | sym s => exact h s hn
  | num | neg | arith | call | compare | join => exact hn

theorem Uses.isReal (h : a.Uses (.ofReals symbol) e) : a.IsReal e := h.weaken fun _ _ => trivial

theorem Uses.exists_real {u : Exact} (h : a.Uses (.ofReals symbol) e) (hu : a.num? e = some u) :
    ∃ r, u = real r :=
  Uses.literal h hu

theorem Uses.exists_literal {u : Exact} (h : a.Uses (.ofReals symbol) e)
    (hu : a.num? e = some u) : ∃ r, u = real r ∧ a.Literal e r := by
  obtain ⟨r, rfl⟩ := h.exists_real hu
  refine ⟨r, rfl, ?_⟩
  have hitem := h.getElem?
  unfold num? at hu
  split at hu
  · next w hw =>
    cases hu
    rw [Literal, hitem, hw]
  · cases hu

theorem Uses.literal_zero (h : a.Uses (.ofReals symbol) e) (hzero : a.isZero e) :
    a.Literal e 0 := by
  obtain ⟨u, hu, hzero⟩ := (Option.any_eq_true _ _).1 hzero
  obtain ⟨r, rfl, hr⟩ := h.exists_literal hu
  rwa [Exact.real.inj (Exact.isZero_iff.1 hzero)] at hr

theorem Literal.uses (h : a.Literal e r) : a.Uses (.ofReals symbol) e :=
  .node h ⟨r, rfl⟩ fun _ hx => absurd hx List.not_mem_nil

/-- What does not depend on certain symbols is free of them. -/
theorem Uses.avoids {l : List String} (ha : a.WellFormed) (h : a.Uses (.ofReals symbol) e)
    (hl : ∀ s ∈ l, a.dependsOn e s = false) : a.Uses (.ofReals (· ∉ l)) e := by
  refine MadeOf.of_subterms ha h fun x hx hallows => ?_
  cases hn : a.node x with
  | sym s =>
    intro hs
    have hdepends := hl s hs
    rw [dependsOn, List.any_eq_false] at hdepends
    exact hdepends x hx (by simp [sym?, hn])
  | num | neg | arith | call | compare | join =>
    rw [hn] at hallows
    exact hallows

/-- What is free of certain symbols is free of each one. -/
theorem Uses.of_avoids {l : List String} (h : a.Uses (.ofReals (· ∉ l)) e) (ht : t ∈ l) :
    a.Free t e :=
  h.weaken fun _ hs heq => hs (heq ▸ ht)

theorem Uses.free (ha : a.WellFormed) (h : a.Uses (.ofReals symbol) e)
    (ht : a.dependsOn e t = false) : a.Free t e :=
  (h.avoids ha (l := [t]) (by simpa using ht)).of_avoids List.mem_cons_self

/-! ## Expressions that denote numbers -/

/-- What denotes a number is made of nodes that denote numbers. -/
theorem Denotes.madeOf {P Q : Node Exact → Prop} (h : a.Denotes v e r) (he : a.MadeOf P e)
    (hPQ : ∀ n r, P n → n.Denotes v (a.Denotes v) r → Q n) : a.MadeOf Q e := by
  induction he generalizing r with
  | node hitem hn _ ih =>
    rw [denotes_iff, node_eq_of_getElem? hitem] at h
    refine .node hitem (hPQ _ r hn h) fun x hx => ?_
    obtain ⟨q, hq⟩ := h.exists_operand x hx
    exact ih x hx hq

theorem Denotes.uses {V : Vocabulary Exact} (h : a.Denotes v e r) (he : a.Uses V e) :
    a.Uses (.ofReals V.symbol) e := by
  refine h.madeOf he fun n r hn hr => ?_
  cases n with
  | num => exact ⟨r, hr⟩
  | sym => exact hn
  | neg | arith | call => trivial
  | compare | join => exact hr.elim

theorem Denotes.differentiable {V : Vocabulary Exact} (h : a.Denotes v e r) (he : a.Uses V e) :
    a.MadeOf Node.Differentiable e := by
  refine h.madeOf he fun n r _ hr => ?_
  cases n with
  | num | sym | neg | arith => trivial
  | call f args =>
    rcases f with f | _
    · rcases args with _ | ⟨x, _ | _⟩
      · exact hr.elim
      · trivial
      · exact hr.elim
    · exact hr.elim
  | compare | join => exact hr.elim

/-- The value of an expression does not depend on what it is free of. -/
theorem Denotes.of_free {ρ ρ' : String → ℝ} (h : a.Denotes (fun s => some (real (ρ s))) e r)
    (he : a.Free t e) (hρ : ∀ s ≠ t, ρ' s = ρ s) : a.Denotes (fun s => some (real (ρ' s))) e r := by
  refine h.congr he fun s u hs hu => ?_
  rw [hρ s hs]
  exact hu

end Arena

/-! ## Constructions -/

namespace Build

variable {a : Arena Exact} {x y : ExprId} {v : Valuation Exact} {V : Vocabulary Exact}

/-- A product with a factor zero is zero. -/
theorem literal_mul_zero (ha : a.WellFormed) (hx : ∀ u, a.num? x = some u → ∃ r, u = real r)
    (hy : a.Literal y 0) : Leads (mul x y) a fun b e => b.Literal e 0 := by
  refine .get ?_
  rw [hy.num?]
  split
  · next u w hu hw =>
    cases hw
    obtain ⟨r, rfl⟩ := hx u hu
    rw [Exact.real_mul_real, mul_zero]
    exact literal_num ha rfl
  · rw [if_pos]
    · exact literal_num ha Exact.zero_eq
    · simp [isNum]

end Build

end HybridPlan
