import HybridPlan.Proofs.Expr.Value
import Mathlib.Algebra.DualNumber
import Mathlib.Algebra.TrivSqZeroExt.Basic

set_option autoImplicit false

/-! # Evaluation over dual numbers

A dual number `u + u' ε`, where `ε ^ 2 = 0`, is a number together with its rate of change.
Expressions are evaluated over dual numbers as they are over real ones: operations of the ring are
those of the ring of dual numbers, and a function adds its derivative. An operation without a
derivative has no result. -/

namespace HybridPlan

open Exact (real)
open TrivSqZeroExt (fst snd inl inr)

/-! ## Operations on dual numbers -/

/-- The derivative of a function, where it has one. -/
noncomputable def Elementary.slope? : Elementary → ℝ → Option ℝ
  | exp, x => some (Real.exp x)
  | log, x => if 0 < x then some (1 / x) else none
  | sqrt, x => if 0 < x then some (1 / ((2 : ℕ) * Real.sqrt x)) else none
  | sin, x => some (Real.cos x)
  | cos, x => some (-Real.sin x)
  | abs, x => if x = 0 then none else some (x / |x|)

open Classical in
/-- The operations on dual numbers. A power whose exponent does not change has the rate of a power
function, any other one has the rate of `exp (y * log x)`. -/
noncomputable def ArithOp.dual? : ArithOp → DualNumber ℝ → DualNumber ℝ → Option (DualNumber ℝ)
  | add, p, q => some (p + q)
  | sub, p, q => some (p - q)
  | mul, p, q => some (p * q)
  | div, p, q => if fst q = 0 then none else some (p * q⁻¹)
  | pow, p, q =>
    if snd q = 0 then do
      let power ← Exact.pow (fst p) (fst q)
      let lower ← Exact.pow (fst p) (fst q - 1)
      return inl power + inr (fst q * lower * snd p)
    else if 0 < fst p then
      let power := fst p ^ fst q
      some (inl power + inr (power * (snd q * Real.log (fst p) + fst q * snd p / fst p)))
    else none

/-! ## Expressions -/

namespace Arena

/-- The expression has this value over dual numbers, the symbol `t` changing at the rate of one. -/
inductive Dual (t : String) (a : Arena Exact) (v : Valuation Exact) : ExprId → DualNumber ℝ → Prop
  | num {e : ExprId} {r : ℝ} (he : a.node e = .num (real r)) : Dual t a v e (inl r)
  | sym {e : ExprId} {s : String} {r : ℝ} (he : a.node e = .sym s) (hs : v s = some (real r)) :
      Dual t a v e (inl r + if s = t then DualNumber.eps else 0)
  | neg {e x : ExprId} {p : DualNumber ℝ} (he : a.node e = .neg x) (hx : Dual t a v x p) :
      Dual t a v e (-p)
  | arith {op : ArithOp} {e x y : ExprId} {p q w : DualNumber ℝ} (he : a.node e = .arith op x y)
      (hx : Dual t a v x p) (hy : Dual t a v y q) (hw : op.dual? p q = some w) : Dual t a v e w
  | call {f : Elementary} {e x : ExprId} {p : DualNumber ℝ} {r s : ℝ}
      (he : a.node e = .call (.elementary f) [x]) (hx : Dual t a v x p)
      (hr : f.value (real (fst p)) = real r) (hs : f.slope? (fst p) = some s) :
      Dual t a v e (inl r + inr (s * snd p))

end Arena

/-- The dual number of a node over those of its operands. -/
def Node.Dual (t : String) (v : Valuation Exact) (operand : ExprId → DualNumber ℝ → Prop) :
    Node Exact → DualNumber ℝ → Prop
  | num x, w => ∃ r, x = real r ∧ inl r = w
  | sym s, w => ∃ r, v s = some (real r) ∧ (inl r + if s = t then DualNumber.eps else 0) = w
  | neg x, w => ∃ p, operand x p ∧ -p = w
  | arith op x y, w => ∃ p q, operand x p ∧ operand y q ∧ op.dual? p q = some w
  | call (.elementary f) [x], w => ∃ p r s, operand x p ∧ f.value (real (fst p)) = real r ∧
      f.slope? (fst p) = some s ∧ inl r + inr (s * snd p) = w
  | call _ _, _ | compare _ _ _, _ | join _ _, _ => False

namespace Arena

variable {t : String} {a b : Arena Exact} {v : Valuation Exact} {e : ExprId} {n : Nat}
  {p q : DualNumber ℝ}

theorem dual_iff : a.Dual t v e p ↔ (a.node e).Dual t v (a.Dual t v) p := by
  constructor
  · intro h
    cases h with
    | num he => rw [he]; exact ⟨_, rfl, rfl⟩
    | sym he hs => rw [he]; exact ⟨_, hs, rfl⟩
    | neg he hx => rw [he]; exact ⟨_, hx, rfl⟩
    | arith he hx hy hw => rw [he]; exact ⟨_, _, hx, hy, hw⟩
    | call he hx hr hs => rw [he]; exact ⟨_, _, _, hx, hr, hs, rfl⟩
  · intro h
    cases he : a.node e with
    | num x =>
      rw [he] at h
      obtain ⟨r, rfl, rfl⟩ := h
      exact .num he
    | sym s =>
      rw [he] at h
      obtain ⟨r, hs, rfl⟩ := h
      exact .sym he hs
    | neg x =>
      rw [he] at h
      obtain ⟨p, hx, rfl⟩ := h
      exact .neg he hx
    | arith op x y =>
      rw [he] at h
      obtain ⟨p, q, hx, hy, hw⟩ := h
      exact .arith he hx hy hw
    | call f args =>
      rw [he] at h
      rcases f with f | _
      · rcases args with _ | ⟨x, _ | _⟩
        · exact h.elim
        · obtain ⟨p, r, s, hx, hr, hs, rfl⟩ := h
          exact .call he hx hr hs
        · exact h.elim
      · exact h.elim
    | compare | join =>
      rw [he] at h
      exact h.elim

/-- The value of an expression over dual numbers, by its node. -/
theorem Dual.of_node {k : Node Exact} (h : a.Dual t v e p) (hn : a.node e = k) :
    k.Dual t v (a.Dual t v) p :=
  hn ▸ dual_iff.1 h

/-- An expression has one value over dual numbers at most. -/
theorem Dual.unique (h : a.Dual t v e p) (h' : a.Dual t v e q) : p = q := by
  induction h generalizing q with
  | num he =>
    obtain ⟨r, hr, rfl⟩ := h'.of_node he
    rw [Exact.real.inj hr]
  | sym he hs =>
    obtain ⟨r, hs', rfl⟩ := h'.of_node he
    rw [hs] at hs'
    rw [Exact.real.inj (Option.some.inj hs')]
  | neg he _ ih =>
    obtain ⟨p', hx, rfl⟩ := h'.of_node he
    rw [ih hx]
  | arith he _ _ hw ihx ihy =>
    obtain ⟨p', q', hx, hy, hw'⟩ := h'.of_node he
    rw [ihx hx, ihy hy] at hw
    exact Option.some.inj (hw.symm.trans hw')
  | call he _ hr hs ih =>
    obtain ⟨p', r', s', hx, hr', hs', rfl⟩ := h'.of_node he
    obtain rfl := ih hx
    rw [Exact.real.inj (hr.symm.trans hr'), Option.some.inj (hs.symm.trans hs')]

theorem AgreeBelow.dual (h : AgreeBelow n a b) (he : e < n) (hp : a.Dual t v e p) :
    b.Dual t v e p := by
  induction hp with
  | num hnode => exact .num ((h _ he).1.trans hnode)
  | sym hnode hs => exact .sym ((h _ he).1.trans hnode) hs
  | neg hnode _ ih =>
    exact .neg ((h _ he).1.trans hnode) (ih ((h _ he).2 _ (by simp [hnode, Node.operands])))
  | arith hnode _ _ hw ihx ihy =>
    exact .arith ((h _ he).1.trans hnode) (ihx ((h _ he).2 _ (by simp [hnode, Node.operands])))
      (ihy ((h _ he).2 _ (by simp [hnode, Node.operands]))) hw
  | call hnode _ hr hs ih =>
    exact .call ((h _ he).1.trans hnode) (ih ((h _ he).2 _ (by simp [hnode, Node.operands]))) hr hs

end Arena

/-! ## Values and rates -/

namespace ArithOp

variable {p q w : DualNumber ℝ}

theorem dual?_div : div.dual? p q = some w ↔ fst q ≠ 0 ∧ p * q⁻¹ = w := by
  by_cases hq : fst q = 0 <;> simp [dual?, hq]

/-- A power whose exponent does not change. -/
theorem dual?_pow_of_snd_eq_zero (hq : snd q = 0) : pow.dual? p q = some w ↔
    ∃ power lower, Exact.pow (fst p) (fst q) = some power ∧
      Exact.pow (fst p) (fst q - 1) = some lower ∧
      inl power + inr (fst q * lower * snd p) = w := by
  simp [dual?, hq, Option.bind_eq_some_iff]

/-- A power whose exponent changes has a positive base. -/
theorem pos_of_dual?_pow (h : pow.dual? p q = some w) (hq : snd q ≠ 0) : 0 < fst p := by
  by_contra hp
  simp [dual?, hq, hp] at h

/-- The two rates of a power agree where the base is positive. -/
theorem dual?_pow_of_pos (hp : 0 < fst p) : pow.dual? p q = some
    (inl (fst p ^ fst q) +
      inr (fst p ^ fst q * (snd q * Real.log (fst p) + fst q * snd p / fst p))) := by
  by_cases hq : snd q = 0
  · refine (dual?_pow_of_snd_eq_zero hq).2
      ⟨_, _, Exact.pow_of_pos hp _, Exact.pow_of_pos hp _, ?_⟩
    rw [hq, zero_mul, zero_add, Real.rpow_sub_one hp.ne']
    congr 2
    ring
  · simp [dual?, hq, hp]

/-- The numbers themselves are combined as before. -/
theorem apply_of_dual? {op : ArithOp} (h : op.dual? p q = some w) :
    op.apply (real (fst p)) (real (fst q)) = real (fst w) := by
  cases op with
  | add =>
    obtain rfl := Option.some.inj h
    exact Exact.real_add_real
  | sub =>
    obtain rfl := Option.some.inj h
    exact Exact.real_sub_real
  | mul =>
    obtain rfl := Option.some.inj h
    exact Exact.real_mul_real
  | div =>
    obtain ⟨hq, rfl⟩ := dual?_div.1 h
    rw [TrivSqZeroExt.fst_mul, TrivSqZeroExt.fst_inv, ← div_eq_mul_inv]
    exact Exact.real_div_real hq
  | pow =>
    rw [apply, Exact.powReal_real, Exact.pow_eq_real]
    refine ⟨_, _, rfl, rfl, ?_⟩
    by_cases hq : snd q = 0
    · obtain ⟨power, lower, hpower, -, rfl⟩ := (dual?_pow_of_snd_eq_zero hq).1 h
      simpa using hpower
    · have hp := pos_of_dual?_pow h hq
      rw [dual?_pow_of_pos hp] at h
      obtain rfl := Option.some.inj h
      simpa using Exact.pow_of_pos hp (fst q)

end ArithOp

namespace Arena

variable {t : String} {a : Arena Exact} {v : Valuation Exact} {e : ExprId} {s : String} {r : ℝ}
  {p : DualNumber ℝ}

/-- The value of a symbol does not depend on which one changes. -/
theorem fst_symbol : fst (inl r + if s = t then DualNumber.eps else 0 : DualNumber ℝ) = r := by
  split <;> simp

/-- The number itself is the value of the expression. -/
theorem Dual.value (h : a.Dual t v e p) : a.Value ArithOp.apply v e (real (fst p)) := by
  induction h with
  | num he => exact .num he
  | sym he hs =>
    rw [fst_symbol]
    exact .sym he hs
  | neg he _ ih => exact .neg he ih
  | arith he _ _ hw ihx ihy =>
    rw [← ArithOp.apply_of_dual? hw]
    exact .arith he ihx ihy
  | call he _ hr _ ih =>
    have hvalue := Value.call he ih
    rw [hr] at hvalue
    simpa using hvalue

end Arena

end HybridPlan
