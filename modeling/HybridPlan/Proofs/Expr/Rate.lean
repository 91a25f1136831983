import HybridPlan.Proofs.Expr.Dual
import HybridPlan.Proofs.Expr.Interning
import HybridPlan.Proofs.Expr.Residual

set_option autoImplicit false

/-! # Rates

The rule of powers writes a logarithm if it does not see that the exponent is a constant. Where the
exponent does not change and the base is not positive, the derivative that the rule makes has no value,
although the power has a rate. Such a derivative may yet become part of an expression that has a value,
since constructors simplify: what is subtracted from itself is zero. Derivatives are therefore
interpreted by their rates, which are their values except that derivatives of powers always have the
rate of the power. -/

namespace HybridPlan

open Exact (real Refines)
open TrivSqZeroExt (fst snd inl inr)

namespace Arena

/-! ## Numbers in the place of nodes -/

section

variable {α : Type} [Scalar α] {a : Arena α} {given : ExprId → Option α} {e : ExprId}

/-- The arena with some numbers given, whatever the expressions are. -/
def override (a : Arena α) (given : ExprId → Option α) : Arena α :=
  { a with table := { a.table with
      items := a.table.items.mapIdx fun e n => (given e).elim n Node.num } }

theorem node_override (he : a.Has e) :
    (a.override given).node e = (given e).elim (a.node e) Node.num := by
  refine node_eq_of_getElem? ?_
  change (a.table.items.mapIdx _)[e]? = _
  rw [Array.getElem?_mapIdx, getElem?_of_lt_size he]
  rfl

theorem node_override_of_none (he : given e = none) : (a.override given).node e = a.node e := by
  rcases Nat.lt_or_ge e a.size with h | h
  · rw [node_override h, he]
    rfl
  · have hsize : (a.override given).size = a.size := Array.size_mapIdx
    rw [node_of_size_le h, node_of_size_le (hsize.symm ▸ h)]

end

/-! ## Derivatives of powers without a value -/

/-- The expression is a multiple of the logarithm of `x`. -/
def IsLogProduct (a : Arena Exact) (x m : ExprId) : Prop :=
  ∃ k l, a.node m = .arith .mul k l ∧ a.node l = .call (.elementary .log) [x]

/-- The expression is a multiple of the logarithm of `x`, or starts with one. -/
def IsLogSum (a : Arena Exact) (x s : ExprId) : Prop :=
  a.IsLogProduct x s ∨ ∃ m r, a.node s = .arith .add m r ∧ a.IsLogProduct x m

/-- The expression `d` is a power with a rate, times a logarithm of its base, which is not positive. -/
def Exceptional (t : String) (a : Arena Exact) (v : Valuation Exact) (d : ExprId) (r : ℝ) : Prop :=
  ∃ e s x y p q, a.node d = .arith .mul e s ∧ a.node e = .arith .pow x y ∧ a.IsLogSum x s ∧
    a.Dual t v e p ∧ a.Dual t v x q ∧ fst q ≤ 0 ∧ snd p = r

variable {t : String} {a b : Arena Exact} {v : Valuation Exact} {d e s x m : ExprId} {n : Nat}
  {r r' : ℝ} {u w : Exact} {p q : DualNumber ℝ}

theorem Exceptional.unique (h : a.Exceptional t v d r) (h' : a.Exceptional t v d r') : r = r' := by
  obtain ⟨e, s, x, y, p, q, hd, -, -, hp, -, -, rfl⟩ := h
  obtain ⟨e', s', x', y', p', q', hd', -, -, hp', -, -, rfl⟩ := h'
  rw [hd] at hd'
  cases hd'
  rw [hp.unique hp']

theorem IsLogSum.num? (h : a.IsLogSum x s) : a.num? s = none := by
  rcases h with ⟨k, l, hs, -⟩ | ⟨m, r, hs, -⟩
  · simp [Arena.num?, hs]
  · simp [Arena.num?, hs]

/-- A multiple of a logarithm is not exceptional itself. -/
theorem IsLogProduct.not_exceptional (h : a.IsLogProduct x m) : ¬a.Exceptional t v m r := by
  obtain ⟨k, l, hm, hl⟩ := h
  rintro ⟨e, s, x', y, p, q, hm', -, hs, -⟩
  rw [hm] at hm'
  cases hm'
  -- the second factor is a call, and neither a product nor a sum
  rcases hs with ⟨k', l', hs, -⟩ | ⟨m', r', hs, -⟩
  · rw [hl] at hs
    cases hs
  · rw [hl] at hs
    cases hs

section

variable (h : AgreeBelow n a b)
include h

theorem AgreeBelow.isLogProduct (hm : m < n) (hlog : a.IsLogProduct x m) : b.IsLogProduct x m := by
  obtain ⟨k, l, hnode, hl⟩ := hlog
  have hlt : l < n := (h m hm).2 l (by simp [hnode, Node.operands])
  exact ⟨k, l, (h m hm).1.trans hnode, (h l hlt).1.trans hl⟩

theorem AgreeBelow.isLogSum (hs : s < n) (hlog : a.IsLogSum x s) : b.IsLogSum x s := by
  rcases hlog with hlog | ⟨m, k, hnode, hm⟩
  · exact .inl (h.isLogProduct hs hlog)
  · have hmlt : m < n := (h s hs).2 m (by simp [hnode, Node.operands])
    exact .inr ⟨m, k, (h s hs).1.trans hnode, h.isLogProduct hmlt hm⟩

theorem AgreeBelow.exceptional (hd : d < n) (hr : a.Exceptional t v d r) :
    b.Exceptional t v d r := by
  obtain ⟨e, s, x, y, p, q, hnode, hpow, hs, hp, hq, hnonpos, hr⟩ := hr
  have he : e < n := (h d hd).2 e (by simp [hnode, Node.operands])
  have hslt : s < n := (h d hd).2 s (by simp [hnode, Node.operands])
  have hx : x < n := (h e he).2 x (by simp [hpow, Node.operands])
  exact ⟨e, s, x, y, p, q, (h d hd).1.trans hnode, (h e he).1.trans hpow, h.isLogSum hslt hs,
    h.dual he hp, h.dual hx hq, hnonpos, hr⟩

end

/-! ## Rates -/

open Classical in
/-- The rates of the derivatives that have no value. -/
noncomputable def exceptions (t : String) (a : Arena Exact) (v : Valuation Exact) (d : ExprId) :
    Option Exact :=
  if h : ∃ r, a.Exceptional t v d r then some (real h.choose) else none

/-- The value of an expression where derivatives of powers have the rates of the powers. -/
def Rate (t : String) (a : Arena Exact) (v : Valuation Exact) (d : ExprId) (u : Exact) : Prop :=
  (a.override (a.exceptions t v)).Value ArithOp.apply v d u

theorem node_of_regular (h : ∀ r, ¬a.Exceptional t v d r) :
    (a.override (a.exceptions t v)).node d = a.node d := by
  refine node_override_of_none ?_
  unfold exceptions
  rw [dif_neg fun hr => hr.elim h]

theorem node_of_exceptional (h : a.Exceptional t v d r) :
    (a.override (a.exceptions t v)).node d = .num (real r) := by
  have hd : a.Has d := by
    obtain ⟨e, s, x, y, p, q, hd, -⟩ := h
    by_contra hlt
    rw [node_of_size_le (Nat.le_of_not_lt hlt)] at hd
    cases hd
  have hr : ∃ r, a.Exceptional t v d r := ⟨r, h⟩
  rw [node_override hd, exceptions, dif_pos hr, Option.elim_some, hr.choose_spec.unique h]

/-- Only products are exceptional. -/
theorem node_of_node {k : Node Exact} (hd : a.node d = k) (hk : ∀ x y, k ≠ .arith .mul x y) :
    (a.override (a.exceptions t v)).node d = k := by
  rw [node_of_regular, hd]
  rintro r ⟨e, s, x, y, p, q, hnode, -⟩
  exact hk e s (hd.symm.trans hnode)

theorem Exceptional.rate (h : a.Exceptional t v d r) : a.Rate t v d (real r) :=
  .num (node_of_exceptional h)

theorem Rate.unique (h : a.Rate t v d u) (h' : a.Rate t v d w) : u = w :=
  Value.unique h h'

/-- The logarithm of what is not positive makes sums and products undefined. -/
theorem Rate.not_real_of_isLogProduct (hm : a.IsLogProduct x m) (hx : a.Rate t v x (real r'))
    (hnonpos : r' ≤ 0) : ¬a.Rate t v m (real r) := by
  intro h
  have hregular := node_of_regular fun r => hm.not_exceptional (t := t) (v := v) (r := r)
  obtain ⟨k, l, hnode, hl⟩ := hm
  rw [hnode] at hregular
  rw [Rate, value_iff, hregular] at h
  obtain ⟨w, w', -, hw', hr⟩ := h
  obtain ⟨-, q, -, rfl, -⟩ := Exact.mul_eq_real.1 hr
  obtain ⟨u, hu, hlog⟩ := hw'.of_node (node_of_node hl (by simp))
  rw [Value.unique hu hx] at hlog
  obtain ⟨z, hz, hpos, -⟩ := Exact.log_eq_real.1 hlog
  cases hz
  exact hnonpos.not_gt hpos

theorem Rate.not_real_of_isLogSum (hs : a.IsLogSum x s) (hx : a.Rate t v x (real r'))
    (hnonpos : r' ≤ 0) : ¬a.Rate t v s (real r) := by
  intro h
  rcases hs with hs | ⟨m, k, hnode, hm⟩
  · exact not_real_of_isLogProduct hs hx hnonpos h
  · rw [Rate, value_iff, node_of_node hnode (by simp)] at h
    obtain ⟨w, w', hw, -, hr⟩ := h
    obtain ⟨q, -, rfl, -⟩ := Exact.add_eq_real.1 hr
    exact not_real_of_isLogProduct hm hx hnonpos hw

/-- What has a value over dual numbers has no exceptional parts. -/
theorem Dual.pos_of_isLogProduct (hm : a.IsLogProduct x m) (hp : a.Dual t v m p)
    (hx : a.Dual t v x q) : 0 < fst q := by
  obtain ⟨k, l, hnode, hl⟩ := hm
  obtain ⟨-, q', -, hq', -⟩ := hp.of_node hnode
  obtain ⟨p', -, s, hp', -, hs, -⟩ := hq'.of_node hl
  rw [hp'.unique hx] at hs
  by_contra hnonpos
  simp [Elementary.slope?, hnonpos] at hs

theorem Dual.pos_of_isLogSum (hs : a.IsLogSum x s) (hp : a.Dual t v s p) (hx : a.Dual t v x q) :
    0 < fst q := by
  rcases hs with hs | ⟨m, k, hnode, hm⟩
  · exact pos_of_isLogProduct hs hp hx
  · obtain ⟨p', -, hp', -⟩ := hp.of_node hnode
    exact pos_of_isLogProduct hm hp' hx

theorem Dual.rate (h : a.Dual t v e p) : a.Rate t v e (real (fst p)) := by
  induction h with
  | num he => exact .num (node_of_node he (by simp))
  | sym he hs =>
    rw [fst_symbol]
    exact .sym (node_of_node he (by simp)) hs
  | neg he _ ih => exact .neg (node_of_node he (by simp)) ih
  | @arith op e x y p q w he hx hy hw ihx ihy =>
    have hnode : (a.override (a.exceptions t v)).node e = .arith op x y := by
      rw [node_of_regular, he]
      rintro r ⟨e', s, x', y', p', q', hmul, -, hs, -, hx', hnonpos, -⟩
      rw [he] at hmul
      cases hmul
      exact hnonpos.not_gt (hy.pos_of_isLogSum hs hx')
    rw [← ArithOp.apply_of_dual? hw]
    exact .arith hnode ihx ihy
  | @call f e x p r s he hx hr hs ih =>
    have hvalue : a.Rate t v e (f.value (real (fst p))) := .call (node_of_node he (by simp)) ih
    rw [hr] at hvalue
    simpa using hvalue

theorem AgreeBelow.rate (h : AgreeBelow n a b) :
    AgreeBelow n (a.override (a.exceptions t v)) (b.override (b.exceptions t v)) := by
  intro e he
  by_cases hr : ∃ r, a.Exceptional t v e r
  · obtain ⟨r, hr⟩ := hr
    rw [node_of_exceptional hr, node_of_exceptional (h.exceptional he hr)]
    exact ⟨rfl, by simp [Node.operands]⟩
  · rw [not_exists] at hr
    have hr' : ∀ r, ¬b.Exceptional t v e r := fun r hb => hr r (h.symm.exceptional he hb)
    rw [node_of_regular hr, node_of_regular hr']
    exact h e he

end Arena

/-- Rates interpret expressions. -/
theorem interprets_rate (t : String) (v : Valuation Exact) :
    Interprets ArithOp.apply fun a => a.Rate t v where
  unique := Arena.Rate.unique
  num hn := .num (Arena.node_of_node hn (by simp))
  neg {a e x u} hn := by
    rw [Arena.Rate, Arena.value_iff, Arena.node_of_node hn (by simp)]
    exact Iff.rfl
  arith {a op e x y u w} hn hx hy := by
    by_cases h : ∃ r, a.Exceptional t v e r
    · obtain ⟨r, h⟩ := h
      refine ⟨real r, h.rate, fun r' hr => ?_⟩
      -- the product has no value
      obtain ⟨e', s, x', y', p, q, hmul, -, hs, -, hq, hnonpos, -⟩ := h
      rw [hn] at hmul
      cases hmul
      obtain ⟨-, r'', -, rfl, -⟩ := Exact.mul_eq_real.1 hr
      exact absurd hy (Arena.Rate.not_real_of_isLogSum hs hq.rate hnonpos)
    · rw [not_exists] at h
      exact ⟨_, .arith ((Arena.node_of_regular h).trans hn) hx hy, .rfl⟩
  call hn hx := .call (Arena.node_of_node hn (by simp)) hx
  mono {a b e u} ha hab he hu := by
    exact (Arena.agreeBelow_of_le ha hab).rate.value he hu

/-- Where an expression has a real value, this is its rate. -/
theorem Arena.Value.rate {t : String} {a : Arena Exact} {v : Valuation Exact} {e : ExprId} {u : Exact}
    (h : a.Value ArithOp.apply v e u) : ∃ u', a.Rate t v e u' ∧ Refines u u' := by
  have hV := interprets_rate t v
  induction h with
  | num he => exact ⟨_, hV.num he, .rfl⟩
  | sym he hs => exact ⟨_, .sym (node_of_node he (by simp)) hs, .rfl⟩
  | neg he _ ih =>
    obtain ⟨u', hu', hrefines⟩ := ih
    exact ⟨-u', (hV.neg he).2 ⟨u', hu', rfl⟩, hrefines.neg⟩
  | arith he _ _ ihx ihy =>
    obtain ⟨u', hu', hrefines⟩ := ihx
    obtain ⟨w', hw', hrefines'⟩ := ihy
    obtain ⟨r, hr, hrefines''⟩ := hV.arith he hu' hw'
    exact ⟨r, hr, (ArithOp.lawful_apply.refines hrefines hrefines').trans hrefines''⟩
  | @call f _ _ _ he _ ih =>
    obtain ⟨u', hu', hrefines⟩ := ih
    exact ⟨f.value u', hV.call he hu', hrefines.value⟩

end HybridPlan
