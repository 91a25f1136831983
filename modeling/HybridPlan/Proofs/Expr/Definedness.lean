import HybridPlan.Proofs.Expr.Differential

set_option autoImplicit false

/-! # Where derivatives are defined

A derivative can be undefined where the expression is defined: that of a square root is undefined at
zero. The rules bring this about only where the symbol stays in the derivative. A derivative that is
free of the symbol has a value wherever the expression has one. -/

namespace HybridPlan

open Exact (real)

section

variable {a b : Arena Exact} {t : String} {v : Valuation Exact} {e x y dx dy : ExprId} {q r : ℝ}

namespace Arena

/-- An expression of a smaller arena is made of the same nodes there. -/
theorem MadeOf.of_le {P Q : Node Exact → Prop} (hab : a ≤ b) (he : a.MadeOf Q e)
    (h : b.MadeOf P e) : a.MadeOf P e := by
  induction he with
  | node hitem _ _ ih =>
    have hnode := node_eq_of_getElem? (hab hitem)
    refine .node hitem (hnode ▸ h.holds) fun x hx => ih x hx ?_
    exact h.operand (hnode ▸ hx)

/-- The expression has a value if it is free of the symbol. -/
structure Settled (a : Arena Exact) (t : String) (v : Valuation Exact) (e : ExprId) : Prop where
  isReal : a.IsReal e
  denotes : a.Free t e → ∃ r, a.Denotes v e r

theorem Settled.mono (ha : a.WellFormed) (hab : a ≤ b) (h : a.Settled t v e) : b.Settled t v e := by
  refine ⟨h.isReal.mono hab, fun hfree => ?_⟩
  obtain ⟨r, hr⟩ := h.denotes (h.isReal.of_le hab hfree)
  exact ⟨r, (agreeBelow_of_le ha hab).denotes h.isReal.lt_size hr⟩

theorem Denotes.settled (h : a.Denotes v e r) (he : a.IsReal e) : a.Settled t v e :=
  ⟨he, fun _ => ⟨r, h⟩⟩

theorem Literal.settled (h : a.Literal e r) : a.Settled t v e := h.denotes.settled h.uses

theorem settled_of_not_free (he : a.IsReal e) (h : ¬a.Free t e) : a.Settled t v e :=
  ⟨he, fun hfree => absurd hfree h⟩

/-- What contains the symbol is no number. -/
theorem num?_eq_none_of_not_free (he : a.IsReal e) (h : ¬a.Free t e) : a.num? e = none := by
  cases hu : a.num? e with
  | none => rfl
  | some u =>
    obtain ⟨r, -, hr⟩ := he.exists_literal hu
    exact absurd hr.uses h

end Arena

/-! ## Constructors -/

namespace Build

/-- The construction makes an expression that has a value if it is free of the symbol. -/
abbrev Settling (m : Build Exact ExprId) (a : Arena Exact) (t : String) (v : Valuation Exact) :
    Prop :=
  Leads m a fun b e => b.Settled t v e

theorem settling_num (ha : a.WellFormed) {u : Exact} (hu : u = real r) :
    Settling (num u) a t v :=
  (literal_num ha hu).imp fun _ _ he => he.settled

/-- A new node has a value if its operands being free of the symbol gives it one. -/
theorem settling_intern {n : Node Exact} (ha : a.WellFormed)
    (hn : (Vocabulary.ofReals fun _ => True).Allows n) (hoperands : ∀ x ∈ n.operands, a.IsReal x)
    (h : (∀ x ∈ n.operands, a.Free t x) → ∃ r, n.Denotes v (a.Denotes v) r) :
    Settling (intern n) a t v := by
  refine .intern ha (fun x hx => (hoperands x hx).lt_size) fun b e hab he => ?_
  refine ⟨.node he hn fun x hx => (hoperands x hx).mono hab, fun hfree => ?_⟩
  have hnode := Arena.node_eq_of_getElem? he
  obtain ⟨r, hr⟩ := h fun x hx => (hoperands x hx).of_le hab (hfree.operand (hnode ▸ hx))
  refine ⟨r, ?_⟩
  rw [Arena.denotes_iff, hnode]
  exact Node.Denotes.imp hr fun x hx q hq =>
    (Arena.agreeBelow_of_le ha hab).denotes (hoperands x hx).lt_size hq

/-- A new operation has a value where its operands have values for which it is defined. -/
theorem settling_operation {op : ArithOp} (ha : a.WellFormed) (hx : a.IsReal x) (hy : a.IsReal y)
    (h : a.Free t x → a.Free t y → ∃ q q' r, a.Denotes v x q ∧ a.Denotes v y q' ∧
      op.apply (real q) (real q') = real r) : Settling (intern (.arith op x y)) a t v := by
  refine settling_intern ha trivial (by simp [Node.operands, hx, hy]) fun hfree => ?_
  obtain ⟨q, q', r, hq, hq', hr⟩ :=
    h (hfree x (by simp [Node.operands])) (hfree y (by simp [Node.operands]))
  exact ⟨r, q, q', hq, hq', hr⟩

section

variable (ha : a.WellFormed) (hx : a.Settled t v x) (hy : a.Settled t v y)
include ha hx

theorem settling_neg : Settling (neg x) a t v := by
  refine .get ?_
  split
  · next u hu =>
    obtain ⟨r, rfl⟩ := hx.isReal.exists_real (show a.num? x = some u by simp [Arena.num?, hu])
    exact settling_num ha Exact.neg_real
  · next y hy =>
    have hyx : y ∈ (a.node x).operands := by simp [hy, Node.operands]
    refine .pure ha ⟨hx.isReal.operand hyx, fun hfree => ?_⟩
    have hxfree : a.Free t x := .node hx.isReal.getElem? (by rw [hy]; trivial) fun z hz => by
      rw [hy] at hz
      rwa [List.mem_singleton.1 hz]
    obtain ⟨r, hr⟩ := hx.denotes hxfree
    obtain ⟨q, hq, -⟩ := hr.of_node hy
    exact ⟨q, hq⟩
  · refine settling_intern ha trivial (by simp [Node.operands, hx.isReal]) fun hfree => ?_
    obtain ⟨r, hr⟩ := hx.denotes (hfree x (by simp [Node.operands]))
    exact ⟨-r, r, hr, rfl⟩

include hy

theorem settling_add : Settling (add x y) a t v := by
  refine .get ?_
  split
  · next u w hu hw =>
    obtain ⟨q, rfl⟩ := hx.isReal.exists_real hu
    obtain ⟨r, rfl⟩ := hy.isReal.exists_real hw
    exact settling_num ha Exact.real_add_real
  split
  · exact .pure ha hy
  split
  · exact .pure ha hx
  · refine settling_operation ha hx.isReal hy.isReal fun hxfree hyfree => ?_
    obtain ⟨q, hq⟩ := hx.denotes hxfree
    obtain ⟨r, hr⟩ := hy.denotes hyfree
    exact ⟨q, r, _, hq, hr, rfl⟩

theorem settling_sub : Settling (sub x y) a t v := by
  unfold sub
  split
  · exact settling_num ha Exact.zero_eq
  refine .get ?_
  split
  · next u w hu hw =>
    obtain ⟨q, rfl⟩ := hx.isReal.exists_real hu
    obtain ⟨r, rfl⟩ := hy.isReal.exists_real hw
    exact settling_num ha Exact.real_sub_real
  split
  · exact settling_neg ha hy
  split
  · exact .pure ha hx
  · refine settling_operation ha hx.isReal hy.isReal fun hxfree hyfree => ?_
    obtain ⟨q, hq⟩ := hx.denotes hxfree
    obtain ⟨r, hr⟩ := hy.denotes hyfree
    exact ⟨q, r, _, hq, hr, rfl⟩

theorem settling_mul : Settling (mul x y) a t v := by
  refine .get ?_
  split
  · next u w hu hw =>
    obtain ⟨q, rfl⟩ := hx.isReal.exists_real hu
    obtain ⟨r, rfl⟩ := hy.isReal.exists_real hw
    exact settling_num ha Exact.real_mul_real
  split
  · exact settling_num ha Exact.zero_eq
  split
  · exact .pure ha hy
  split
  · exact .pure ha hx
  split
  · exact settling_neg ha hy
  split
  · exact settling_neg ha hx
  · refine settling_operation ha hx.isReal hy.isReal fun hxfree hyfree => ?_
    obtain ⟨q, hq⟩ := hx.denotes hxfree
    obtain ⟨r, hr⟩ := hy.denotes hyfree
    exact ⟨q, r, _, hq, hr, rfl⟩

end

/-- A product has a value if it is free of the symbol, when a factor is not. -/
theorem settling_mul_of_not_free (ha : a.WellFormed) (hx : a.IsReal x) (hfree : ¬a.Free t x)
    (hy : a.IsReal y) : Settling (mul x y) a t v := by
  have hsettled : a.Settled t v x := Arena.settled_of_not_free hx hfree
  refine .get ?_
  rw [Arena.num?_eq_none_of_not_free hx hfree]
  dsimp only
  split
  · exact settling_num ha Exact.zero_eq
  rw [if_neg (by simp [isNum])]
  split
  · exact .pure ha hsettled
  rw [if_neg (by simp [isNum])]
  split
  · exact settling_neg ha hsettled
  · exact settling_operation ha hx hy fun hxfree _ => absurd hxfree hfree

/-- A quotient by something other than zero. -/
theorem settling_div (ha : a.WellFormed) (hx : a.Settled t v x) (hy : a.IsReal y)
    (hr : a.Denotes v y r) (hne : r ≠ 0) : Settling (div x y) a t v := by
  have otherwise : Settling (if isNum Scalar.zero (a.num? x) then pure x
      else if isNum Scalar.one (a.num? y) then pure x else if x = y then one
      else intern (.arith .div x y)) a t v := by
    split
    · exact .pure ha hx
    split
    · exact .pure ha hx
    split
    · exact settling_num ha Exact.one_eq
    · refine settling_operation ha hx.isReal hy fun hxfree _ => ?_
      obtain ⟨q, hq⟩ := hx.denotes hxfree
      exact ⟨q, r, _, hq, hr, Exact.real_div_real hne⟩
  refine .get ?_
  dsimp only
  split
  · next u w hu hw =>
    rw [hu, hw] at otherwise
    split
    · exact otherwise
    · obtain ⟨q, rfl⟩ := hx.isReal.exists_real hu
      obtain ⟨r', rfl, hr'⟩ := hy.exists_literal hw
      obtain rfl := hr'.denotes.unique hr
      exact settling_num ha (Exact.real_div_real hne)
  · exact otherwise

/-- A quotient has a value if it is free of the symbol, when the divisor is not. -/
theorem settling_div_of_not_free (ha : a.WellFormed) (hx : a.Settled t v x) (hy : a.IsReal y)
    (hfree : ¬a.Free t y) : Settling (div x y) a t v := by
  refine .get ?_
  dsimp only
  rw [Arena.num?_eq_none_of_not_free hy hfree]
  split
  · next hw => cases hw
  split
  · exact .pure ha hx
  rw [if_neg (by simp [isNum])]
  split
  · exact settling_num ha Exact.one_eq
  · exact settling_operation ha hx.isReal hy fun _ hyfree => absurd hyfree hfree

/-- A power has a value if it is free of the symbol, when the base is not. -/
theorem settling_pow_of_not_free (ha : a.WellFormed) (hx : a.IsReal x) (hfree : ¬a.Free t x)
    (hy : a.IsReal y) : Settling (pow x y) a t v := by
  refine .get ?_
  dsimp only
  rw [Arena.num?_eq_none_of_not_free hx hfree]
  split
  · exact settling_num ha Exact.one_eq
  split
  · exact .pure ha (Arena.settled_of_not_free hx hfree)
  · exact settling_operation ha hx hy fun hxfree _ => absurd hxfree hfree

/-- Twice an expression with the symbol has the symbol. -/
theorem not_free_double (ha : a.WellFormed) (hx : a.Literal x 2) (hy : a.IsReal y)
    (hfree : ¬a.Free t y) : Leads (mul x y) a fun b e => b.IsReal e ∧ ¬b.Free t e := by
  have hnum (r : ℝ) (hr : (2 : ℝ) ≠ r) {u : Exact} (hu : u = real r) :
      isNum u (some (real 2)) = false := by
    rw [hu, isNum, Option.any_some, ← Bool.not_eq_true, Exact.eq_real, Exact.real.injEq]
    exact hr
  refine .get ?_
  rw [hx.num?, Arena.num?_eq_none_of_not_free hy hfree]
  dsimp only
  rw [hnum 0 (by norm_num) Exact.zero_eq, hnum 1 (by norm_num) Exact.one_eq,
    hnum (-1) (by norm_num) (by simp)]
  refine .intern ha (by simp [Node.operands, hy.lt_size, Arena.lt_size_of_getElem? hx])
    fun b e hab he => ⟨?_, fun h => hfree ?_⟩
  · have hx : b.IsReal x := (hx.mono hab).uses
    exact .node he trivial (by simp [Node.operands, hy.mono hab, hx])
  · exact hy.of_le hab (h.operand (by simp [Arena.node_eq_of_getElem? he, Node.operands]))

/-! ## Rules -/

/-- The expression `d` of the arena `b` is the derivative of `e` in the arena `a`, and has a value if
`e` has one and it is free of the symbol. -/
structure Settles (t : String) (v : Valuation Exact) (a b : Arena Exact) (e d : ExprId) : Prop
    extends Differential t a b e d where
  settled : a.IsReal e → ∀ r, a.Denotes v e r → b.Settled t v d

theorem settling_derivePow {q' : ℝ} (ha : a.WellFormed) (he : a.IsReal e) (hx : a.IsReal x)
    (hy : a.IsReal y) (hq' : a.Denotes v y q') (hdx : a.Settled t v dx) (hdy : a.IsReal dy)
    (hxfree : a.Free t x → a.Literal dx 0) (hefree : a.Free t e → a.Literal dy 0) :
    Settling (derivePow e x y dx dy) a t v := by
  by_cases hzero : a.isZero dy
  · by_cases hfree : a.Free t x
    · exact (literal_derivePow ha hx hy (hxfree hfree) (hdy.literal_zero hzero)).imp fun _ _ h => h.settled
    · refine .get ?_
      rw [if_pos hzero]
      refine .bind (literal_num ha Exact.one_eq) fun one b hb hab hone => ?_
      refine .bind (uses_arith .sub hb (hy.mono hab) hone.uses) fun lower c hc hbc hlower => ?_
      have hac : a ≤ c := le_trans hab hbc
      have hpower : Settling (pow x lower) c t v :=
        settling_pow_of_not_free hc (hx.mono hac) (fun h => hfree (hx.of_le hac h)) hlower
      refine .bind hpower fun p d hd hcd hp => ?_
      have had : a ≤ d := le_trans hac hcd
      refine .bind (settling_mul hd ((hq'.settled hy).mono ha had) hp)
        fun coefficient b' hb' hdb' hcoefficient => ?_
      exact settling_mul hb' hcoefficient (hdx.mono ha (le_trans had hdb'))
  · have hfree : ¬a.Free t e := fun h => hzero (hefree h).isZero
    have hV := Vocabulary.closed_ofReals fun _ => True
    refine .get ?_
    rw [if_neg hzero]
    have hlog : Yields (.ofReals fun _ => True) {x} (call₁ .log x) ({·}) := yields_call₁ hV rfl
    refine .bind (hlog.leads ha (by simp [hx])) fun log b hb hab hlog => ?_
    refine .bind (uses_arith .mul hb (hdy.mono hab) hlog) fun l c hc hbc hl => ?_
    have hac : a ≤ c := le_trans hab hbc
    refine .bind (uses_arith .mul hc (hy.mono hac) (hdx.isReal.mono hac)) fun s d hd hcd hs => ?_
    have had : a ≤ d := le_trans hac hcd
    refine .bind (uses_arith .div hd hs (hx.mono had)) fun r b' hb' hdb' hr => ?_
    refine .bind (uses_arith .add hb' (hl.mono (le_trans hcd hdb')) hr) fun sum c' hc' hbc' hsum => ?_
    have hac' : a ≤ c' := le_trans had (le_trans hdb' hbc')
    exact settling_mul_of_not_free hc' (he.mono hac') (fun h => hfree (he.of_le hac' h)) hsum

theorem settling_deriveArith {op : ArithOp} {q' : ℝ} (ha : a.WellFormed) (he : a.IsReal e)
    (hx : a.IsReal x) (hy : a.IsReal y) (hq : a.Denotes v x q) (hq' : a.Denotes v y q')
    (hr : op.apply (real q) (real q') = real r) (hdx : a.Settled t v dx) (hdy : a.Settled t v dy)
    (hxfree : a.Free t x → a.Literal dx 0) (hefree : a.Free t e → a.Literal dy 0) :
    Settling (deriveArith op e x y dx dy) a t v := by
  have hxs : a.Settled t v x := hq.settled hx
  have hys : a.Settled t v y := hq'.settled hy
  cases op with
  | add => exact settling_add ha hdx hdy
  | sub => exact settling_sub ha hdx hdy
  | mul =>
    refine .bind (settling_mul ha hdx hys) fun l b hb hab hl => ?_
    refine .bind (settling_mul hb (hxs.mono ha hab) (hdy.mono ha hab)) fun r c hc hbc hr => ?_
    exact settling_add hc (hl.mono hb hbc) hr
  | div =>
    obtain ⟨_, _, ⟨⟩, ⟨⟩, hne, -⟩ := Exact.div_eq_real.1 hr
    refine .bind (settling_mul ha hdx hys) fun l b hb hab hl => ?_
    refine .bind (settling_mul hb (hxs.mono ha hab) (hdy.mono ha hab)) fun r c hc hbc hr => ?_
    refine .bind (settling_sub hc (hl.mono hb hbc) hr) fun numerator d hd hcd hnumerator => ?_
    have had : a ≤ d := le_trans hab (le_trans hbc hcd)
    refine .bind (leads_powInt 2 hd (hy.mono had)
      ((Arena.agreeBelow_of_le ha had).denotes hy.lt_size hq')) fun denominator b' hb' hdb' h => ?_
    exact settling_div hb' (hnumerator.mono hd hdb') h.1 h.2 (pow_ne_zero 2 hne)
  | pow => exact settling_derivePow ha he hx hy hq' hdx hdy.isReal hxfree hefree

/-- The derivative of a function, at an argument in which the symbol occurs. -/
theorem settling_deriveOuter {f : Elementary} (ha : a.WellFormed) (he : a.IsReal e)
    (hx : a.IsReal x) (hq : a.Denotes v x q) (hr : a.Denotes v e r) (hxfree : ¬a.Free t x)
    (hefree : ¬a.Free t e) : Settling (deriveOuter f e x) a t v := by
  have hes : a.Settled t v e := hr.settled he
  cases f with
  | exp => exact .pure ha hes
  | log =>
    refine .bind (literal_num ha Exact.one_eq) fun one b hb hab hone => ?_
    exact settling_div_of_not_free hb hone.settled (hx.mono hab) fun h => hxfree (hx.of_le hab h)
  | sqrt =>
    refine .bind (literal_num ha (Exact.nat_eq 2)) fun two b hb hab htwo => ?_
    rw [Nat.cast_ofNat] at htwo
    refine .bind (not_free_double hb htwo (he.mono hab) fun h => hefree (he.of_le hab h))
      fun denominator c hc hbc hdenominator => ?_
    refine .bind (literal_num hc Exact.one_eq) fun one d hd hcd hone => ?_
    exact settling_div_of_not_free hd hone.settled (hdenominator.1.mono hcd)
      fun h => hdenominator.2 (hdenominator.1.of_le hcd h)
  | sin => exact (leads_call .cos ha hx hq rfl).imp fun _ _ h => h.2.settled h.1
  | cos =>
    refine .bind (leads_call .sin ha hx hq rfl) fun s b hb hab hs => ?_
    exact (leads_neg hb hs.1 hs.2).imp fun _ _ h => h.2.settled h.1
  | abs => exact settling_div_of_not_free ha (hq.settled hx) he hefree

theorem settling_deriveCall {f : Elementary} (ha : a.WellFormed) (he : a.IsReal e)
    (hx : a.IsReal x) (hq : a.Denotes v x q) (hr : a.Denotes v e r)
    (hdx : a.Settled t v dx) (hxfree : a.Free t x → a.Literal dx 0)
    (hefree : a.Free t e → a.Free t x) :
    Settling (do let outer ← deriveOuter f e x; mul outer dx) a t v := by
  by_cases hfree : a.Free t x
  · have houter : Yields (.ofReals fun _ => True) {e, x} (deriveOuter f e x) ({·}) :=
      yields_deriveOuter (Vocabulary.closed_ofReals _) f (by simp) (by simp)
    refine .bind (houter.leads ha (by simp [he, hx])) fun outer b hb hab hreal => ?_
    have hproduct := literal_mul_zero hb (fun _ => hreal.exists_real) ((hxfree hfree).mono hab)
    exact hproduct.imp fun _ _ h => h.settled
  · have houter : Settling (deriveOuter f e x) a t v :=
      settling_deriveOuter ha he hx hq hr hfree fun h => hfree (hefree h)
    exact .bind houter fun outer b hb hab houter => settling_mul hb houter (hdx.mono ha hab)

/-- The rules of differentiation pass on that values settle. -/
theorem differentiates_settles (t : String) (v : Valuation Exact) (ha : a.WellFormed) :
    Differentiates t a (Settles t v a) where
  mono hb hbc h :=
    ⟨(differentiates_differential t ha).mono hb hbc ⟨h.uses, h.related.toDifferential⟩,
      fun he r hr => (h.related.settled he r hr).mono hb hbc⟩
  num hn hb hle huses :=
    ⟨(differentiates_differential t ha).num hn hb hle huses, fun _ _ _ =>
      (literal_num hb Exact.zero_eq).holds.settled⟩
  sym hn hb hle huses := by
    refine ⟨(differentiates_differential t ha).sym hn hb hle huses, fun _ _ _ => ?_⟩
    split
    · exact (literal_num hb Exact.one_eq).holds.settled
    · exact (literal_num hb Exact.zero_eq).holds.settled
  neg {b e x dx} hn hb hx hle huses := by
    refine ⟨(differentiates_differential t ha).neg hn hb ⟨hx.uses, hx.related.toDifferential⟩ hle
      huses, fun he r hr => ?_⟩
    obtain ⟨q, hq, -⟩ := hr.of_node hn
    have hxr : a.IsReal x := he.operand (by simp [hn, Node.operands])
    exact (settling_neg hb (hx.related.settled hxr q hq)).holds
  arith {b op e x y dx dy} hn huses₀ hb hab hx hy hle huses := by
    refine ⟨(differentiates_differential t ha).arith hn huses₀ hb hab
      ⟨hx.uses, hx.related.toDifferential⟩ ⟨hy.uses, hy.related.toDifferential⟩ hle huses,
      fun he r hr => ?_⟩
    have hagree := Arena.agreeBelow_of_le ha hab
    obtain ⟨q, q', hq, hq', hr⟩ := hr.of_node hn
    have hye : y ∈ (a.node e).operands := by simp [hn, Node.operands]
    have hxr : a.IsReal x := he.operand (by simp [hn, Node.operands])
    have hyr : a.IsReal y := he.operand hye
    refine (settling_deriveArith hb (he.mono hab) (hxr.mono hab) (hyr.mono hab)
      (hagree.denotes hxr.lt_size hq) (hagree.denotes hyr.lt_size hq') hr
      (hx.related.settled hxr q hq) (hy.related.settled hyr q' hq') (fun hfree => ?_)
      fun hfree => ?_).holds
    · exact hx.related.free (hxr.of_le hab hfree)
    · have hfree : a.Free t e := he.of_le hab hfree
      exact hy.related.free (hfree.operand hye)
  call {b f e x dx} hn huses₀ hb hab hx hle huses := by
    refine ⟨(differentiates_differential t ha).call hn huses₀ hb hab
      ⟨hx.uses, hx.related.toDifferential⟩ hle huses, fun he r hr => ?_⟩
    have hagree := Arena.agreeBelow_of_le ha hab
    have hrb := hagree.denotes he.lt_size hr
    obtain ⟨q, hq, -⟩ := hr.of_node hn
    have hxe : x ∈ (b.node e).operands := by
      rw [Arena.node_mono hab he.lt_size, hn]
      simp [Node.operands]
    have hxr : a.IsReal x := he.operand (by simp [hn, Node.operands])
    exact (settling_deriveCall hb (he.mono hab) (hxr.mono hab) (hagree.denotes hxr.lt_size hq) hrb
      (hx.related.settled hxr q hq) (fun hfree => hx.related.free (hxr.of_le hab hfree))
      fun hfree => hfree.operand hxe).holds

/-- A derivative that is free of the symbol has a value where the expression has one. -/
theorem derive_denotes (ha : a.WellFormed) (he : a.IsReal e) (hr : a.Denotes v e r) :
    (derive t e).Leads a fun b d => b.IsReal d ∧ (b.Free t d → ∃ r', b.Denotes v d r') := by
  obtain ⟨d, b, hrun, hb, hab, hstands⟩ :=
    (differentiates_settles t v ha).derive ha (hr.differentiable he)
  have hsettled := hstands.related.settled he r hr
  exact ⟨d, b, hrun, hb, hab, hsettled.isReal, hsettled.denotes⟩

end Build

end

end HybridPlan
