import HybridPlan.Proofs.Expr.Independence

set_option autoImplicit false

/-! # Rates of change

Where an expression is built from a symbol by sums, products, natural powers, exponentials, and
quotients by what is free of the symbol, it changes with the symbol at a rate that is found together
with its value, operation by operation. The folding constructors keep values and rates, and the
symbolic derivative has the rate as its value. -/

namespace HybridPlan

open Exact (real)

namespace Arena

/-- Where the symbols have the values `ρ`, the expression has the value `u` and changes with the
symbol `t` at the rate `u'`. What is free of the symbol does not change. -/
inductive Varies (a : Arena Exact) (t : String) (ρ : String → ℝ) : ExprId → ℝ → ℝ → Prop
  | still {e : ExprId} {u : ℝ} (he : a.Free t e)
      (hu : a.Denotes (fun s => some (real (ρ s))) e u) : Varies a t ρ e u 0
  | sym {e : ExprId} (he : a.table.items[e]? = some (.sym t)) : Varies a t ρ e (ρ t) 1
  | neg {e x : ExprId} {u u' : ℝ} (he : a.table.items[e]? = some (.neg x))
      (hx : Varies a t ρ x u u') : Varies a t ρ e (-u) (-u')
  | add {e x y : ExprId} {u u' w w' : ℝ} (he : a.table.items[e]? = some (.arith .add x y))
      (hx : Varies a t ρ x u u') (hy : Varies a t ρ y w w') : Varies a t ρ e (u + w) (u' + w')
  | sub {e x y : ExprId} {u u' w w' : ℝ} (he : a.table.items[e]? = some (.arith .sub x y))
      (hx : Varies a t ρ x u u') (hy : Varies a t ρ y w w') : Varies a t ρ e (u - w) (u' - w')
  | mul {e x y : ExprId} {u u' w w' : ℝ} (he : a.table.items[e]? = some (.arith .mul x y))
      (hx : Varies a t ρ x u u') (hy : Varies a t ρ y w w') :
      Varies a t ρ e (u * w) (u' * w + u * w')
  | div {e x y : ExprId} {u u' w : ℝ} (he : a.table.items[e]? = some (.arith .div x y))
      (hx : Varies a t ρ x u u') (hy : a.Free t y)
      (hw : a.Denotes (fun s => some (real (ρ s))) y w) (hne : w ≠ 0) :
      Varies a t ρ e (u / w) (u' / w)
  | pow {e x y : ExprId} {u u' : ℝ} {n : ℕ} (he : a.table.items[e]? = some (.arith .pow x y))
      (hx : Varies a t ρ x u u') (hy : a.Literal y n) :
      Varies a t ρ e (u ^ n) (n * u ^ (n - 1) * u')
  | exp {e x : ExprId} {u u' : ℝ} (he : a.table.items[e]? = some (.call (.elementary .exp) [x]))
      (hx : Varies a t ρ x u u') : Varies a t ρ e (Real.exp u) (Real.exp u * u')

/-- The node stands for an operation with the value `u` that changes with the symbol at the rate `u'`
because its operands vary. -/
inductive Changes (a : Arena Exact) (t : String) (ρ : String → ℝ) : Node Exact → ℝ → ℝ → Prop
  | sym : Changes a t ρ (.sym t) (ρ t) 1
  | neg {x : ExprId} {u u' : ℝ} (hx : a.Varies t ρ x u u') : Changes a t ρ (.neg x) (-u) (-u')
  | add {x y : ExprId} {u u' w w' : ℝ} (hx : a.Varies t ρ x u u') (hy : a.Varies t ρ y w w') :
      Changes a t ρ (.arith .add x y) (u + w) (u' + w')
  | sub {x y : ExprId} {u u' w w' : ℝ} (hx : a.Varies t ρ x u u') (hy : a.Varies t ρ y w w') :
      Changes a t ρ (.arith .sub x y) (u - w) (u' - w')
  | mul {x y : ExprId} {u u' w w' : ℝ} (hx : a.Varies t ρ x u u') (hy : a.Varies t ρ y w w') :
      Changes a t ρ (.arith .mul x y) (u * w) (u' * w + u * w')
  | div {x y : ExprId} {u u' w : ℝ} (hx : a.Varies t ρ x u u') (hy : a.Free t y)
      (hw : a.Denotes (fun s => some (real (ρ s))) y w) (hne : w ≠ 0) :
      Changes a t ρ (.arith .div x y) (u / w) (u' / w)
  | pow {x y : ExprId} {u u' : ℝ} {n : ℕ} (hx : a.Varies t ρ x u u') (hy : a.Literal y n) :
      Changes a t ρ (.arith .pow x y) (u ^ n) (n * u ^ (n - 1) * u')
  | exp {x : ExprId} {u u' : ℝ} (hx : a.Varies t ρ x u u') :
      Changes a t ρ (.call (.elementary .exp) [x]) (Real.exp u) (Real.exp u * u')

variable {a b : Arena Exact} {t : String} {ρ : String → ℝ} {e x : ExprId} {u u' w r : ℝ}

theorem Literal.denotes {v : Valuation Exact} (h : a.Literal e r) : a.Denotes v e r :=
  .num (node_eq_of_getElem? h)

theorem Literal.varies (h : a.Literal e r) : a.Varies t ρ e r 0 := .still h.uses h.denotes

namespace Varies

theorem denotes (h : a.Varies t ρ e u u') : a.Denotes (fun s => some (real (ρ s))) e u := by
  induction h with
  | still _ hu => exact hu
  | sym he => exact .sym (node_eq_of_getElem? he) rfl
  | neg he _ ih => exact .neg (node_eq_of_getElem? he) ih
  | add he _ _ ihx ihy | sub he _ _ ihx ihy | mul he _ _ ihx ihy =>
    exact .arith (node_eq_of_getElem? he) ihx ihy rfl
  | div he _ _ hw hne ih =>
    exact .arith (node_eq_of_getElem? he) ih hw (Exact.real_div_real hne)
  | pow he _ hy ih =>
    refine .arith (node_eq_of_getElem? he) ih hy.denotes ?_
    rw [ArithOp.apply, Exact.powReal_real, Exact.pow_natCast]
  | exp he _ ih => exact .call (node_eq_of_getElem? he) ih rfl

theorem isReal (h : a.Varies t ρ e u u') : a.IsReal e := by
  induction h with
  | still he _ => exact he.isReal
  | sym he => exact .node he trivial fun x hx => absurd hx List.not_mem_nil
  | neg he _ ih | exp he _ ih => exact .node he trivial (by simpa [Node.operands] using ih)
  | add he _ _ ihx ihy | sub he _ _ ihx ihy | mul he _ _ ihx ihy =>
    exact .node he trivial (by simp [Node.operands, ihx, ihy])
  | div he _ hy _ _ ih => exact .node he trivial (by simp [Node.operands, ih, hy.isReal])
  | pow he _ hy ih =>
    have hy : a.IsReal _ := hy.uses
    exact .node he trivial (by simp [Node.operands, ih, hy])

theorem lt_size (h : a.Varies t ρ e u u') : e < a.size := h.isReal.lt_size

theorem mono (ha : a.WellFormed) (hab : a ≤ b) (h : a.Varies t ρ e u u') : b.Varies t ρ e u u' := by
  have hagree := agreeBelow_of_le ha hab
  induction h with
  | still he hu => exact .still (he.mono hab) (hagree.denotes he.lt_size hu)
  | sym he => exact .sym (hab he)
  | neg he _ ih => exact .neg (hab he) ih
  | add he _ _ ihx ihy => exact .add (hab he) ihx ihy
  | sub he _ _ ihx ihy => exact .sub (hab he) ihx ihy
  | mul he _ _ ihx ihy => exact .mul (hab he) ihx ihy
  | div he _ hy hw hne ih => exact .div (hab he) ih (hy.mono hab) (hagree.denotes hy.lt_size hw) hne
  | pow he _ hy ih => exact .pow (hab he) ih (hab hy)
  | exp he _ ih => exact .exp (hab he) ih

/-- What is free of the symbol does not change with it. -/
theorem rate_eq_zero (h : a.Varies t ρ e u u') (he : a.Free t e) : u' = 0 := by
  have hoperand {n : Node Exact} {e x : ExprId} (hn : a.table.items[e]? = some n)
      (hx : x ∈ n.operands) (he : a.Free t e) : a.Free t x :=
    he.operand (node_eq_of_getElem? hn ▸ hx)
  induction h with
  | still => rfl
  | sym hn =>
    have hs := he.holds
    rw [node_eq_of_getElem? hn] at hs
    exact absurd rfl hs
  | neg hn _ ih => rw [ih (hoperand hn (by simp [Node.operands]) he), neg_zero]
  | add hn _ _ ihx ihy =>
    rw [ihx (hoperand hn (by simp [Node.operands]) he),
      ihy (hoperand hn (by simp [Node.operands]) he), add_zero]
  | sub hn _ _ ihx ihy =>
    rw [ihx (hoperand hn (by simp [Node.operands]) he),
      ihy (hoperand hn (by simp [Node.operands]) he), sub_zero]
  | mul hn _ _ ihx ihy =>
    rw [ihx (hoperand hn (by simp [Node.operands]) he),
      ihy (hoperand hn (by simp [Node.operands]) he), zero_mul, mul_zero, add_zero]
  | div hn _ _ _ _ ih => rw [ih (hoperand hn (by simp [Node.operands]) he), zero_div]
  | pow hn _ _ ih | exp hn _ ih => rw [ih (hoperand hn (by simp [Node.operands]) he), mul_zero]

/-- Where the symbol occurs, an operation on operands that vary is behind the change. -/
theorem changes (h : a.Varies t ρ e u u') (he : ¬a.Free t e) : a.Changes t ρ (a.node e) u u' := by
  cases h with
  | still hfree => exact absurd hfree he
  | sym hn => exact node_eq_of_getElem? hn ▸ .sym
  | neg hn hx => exact node_eq_of_getElem? hn ▸ .neg hx
  | add hn hx hy => exact node_eq_of_getElem? hn ▸ .add hx hy
  | sub hn hx hy => exact node_eq_of_getElem? hn ▸ .sub hx hy
  | mul hn hx hy => exact node_eq_of_getElem? hn ▸ .mul hx hy
  | div hn hx hy hw hne => exact node_eq_of_getElem? hn ▸ .div hx hy hw hne
  | pow hn hx hy => exact node_eq_of_getElem? hn ▸ .pow hx hy
  | exp hn hx => exact node_eq_of_getElem? hn ▸ .exp hx

/-- An expression changes at one rate at most. -/
theorem rate_unique {w' : ℝ} (h : a.Varies t ρ e u u') (h' : a.Varies t ρ e w w') : u' = w' := by
  -- only where the symbol occurs does the operation matter
  have hoperation {n : Node Exact} {e : ExprId} {u u' w w' : ℝ}
      (hn : a.table.items[e]? = some n) (h : a.Varies t ρ e u u') (h' : a.Varies t ρ e w w')
      (hsame : a.Changes t ρ n w w' → u' = w') : u' = w' := by
    by_cases he : a.Free t e
    · rw [h.rate_eq_zero he, h'.rate_eq_zero he]
    · exact hsame (node_eq_of_getElem? hn ▸ h'.changes he)
  induction h generalizing w w' with
  | still he _ => exact (h'.rate_eq_zero he).symm
  | sym hn => exact hoperation hn (.sym (ρ := ρ) hn) h' fun | .sym => rfl
  | neg hn hx ih => exact hoperation hn (.neg hn hx) h' fun | .neg hx' => by rw [ih hx']
  | add hn hx hy ihx ihy =>
    exact hoperation hn (.add hn hx hy) h' fun | .add hx' hy' => by rw [ihx hx', ihy hy']
  | sub hn hx hy ihx ihy =>
    exact hoperation hn (.sub hn hx hy) h' fun | .sub hx' hy' => by rw [ihx hx', ihy hy']
  | mul hn hx hy ihx ihy =>
    refine hoperation hn (.mul hn hx hy) h' fun | .mul hx' hy' => ?_
    rw [ihx hx', ihy hy', hx.denotes.unique hx'.denotes, hy.denotes.unique hy'.denotes]
  | div hn hx hy hw hne ih =>
    refine hoperation hn (.div hn hx hy hw hne) h' fun | .div hx' _ hw' _ => ?_
    rw [ih hx', hw.unique hw']
  | pow hn hx hy ih =>
    refine hoperation hn (.pow hn hx hy) h' fun | .pow hx' hy' => ?_
    obtain rfl := Nat.cast_injective (hy.unique hy')
    rw [ih hx', hx.denotes.unique hx'.denotes]
  | exp hn hx ih =>
    refine hoperation hn (.exp hn hx) h' fun | .exp hx' => ?_
    rw [ih hx', hx.denotes.unique hx'.denotes]

/-- A number has its value, and does not change. -/
theorem literal (h : a.Varies t ρ e u u') {x : Exact} (hx : a.num? e = some x) :
    a.Literal e u ∧ x = real u ∧ u' = 0 := by
  obtain ⟨r, rfl, hr⟩ := h.isReal.exists_literal hx
  obtain rfl := h.denotes.unique hr.denotes
  exact ⟨hr, rfl, h.rate_eq_zero hr.uses⟩

/-- What is checked to be a certain number has its value, and does not change. -/
theorem of_isNum (h : a.Varies t ρ e u u') {x : Exact} (hx : x = real r)
    (hnum : Build.isNum x (a.num? e)) : u = r ∧ u' = 0 := by
  obtain ⟨y, hy, heq⟩ := (Option.any_eq_true _ _).1 hnum
  obtain ⟨-, rfl, hrate⟩ := h.literal hy
  rw [hx, Exact.eq_real] at heq
  exact ⟨Exact.real.inj heq, hrate⟩

theorem of_isZero (h : a.Varies t ρ e u u') (hzero : (a.num? e).any Scalar.isZero) :
    u = 0 ∧ u' = 0 :=
  h.of_isNum Exact.zero_eq hzero

theorem congr {w' : ℝ} (h : a.Varies t ρ e u u') (hu : w = u) (hu' : w' = u') :
    a.Varies t ρ e w w' := by
  rwa [hu, hu']

/-- The operand of an opposite. -/
theorem of_neg (h : a.Varies t ρ e u u') (hn : a.node e = .neg x) : a.Varies t ρ x (-u) (-u') := by
  cases h with
  | still he hu =>
    obtain ⟨q, hq, rfl⟩ := hu.of_node hn
    rw [neg_neg, neg_zero]
    exact .still (he.operand (by simp [hn, Node.operands])) hq
  | neg he hx =>
    obtain rfl := Node.neg.inj ((node_eq_of_getElem? he).symm.trans hn)
    rwa [neg_neg, neg_neg]
  | sym he | add he | sub he | mul he | div he | pow he | exp he =>
    rw [node_eq_of_getElem? he] at hn
    cases hn

end Varies

end Arena

/-! ## Constructors -/

namespace Build

/-- The construction makes an expression with a value and a rate of change. -/
abbrev Varying (m : Build Exact ExprId) (a : Arena Exact) (t : String) (ρ : String → ℝ)
    (u u' : ℝ) : Prop :=
  Leads m a fun b e => b.Varies t ρ e u u'

variable {a : Arena Exact} {t : String} {ρ : String → ℝ} {x y : ExprId} {u u' w w' r : ℝ}

theorem varying_num (ha : a.WellFormed) {c : Exact} (hc : c = real r) :
    Varying (num c) a t ρ r 0 :=
  (literal_num ha hc).imp fun _ _ he => he.varies

/-- A symbol does not change with another one. -/
theorem varying_sym_of_ne (ha : a.WellFormed) {s : String} (hs : s ≠ t) (ρ : String → ℝ) :
    Varying (sym ⟨s, none⟩) a t ρ (ρ s) 0 :=
  .intern ha (by simp [Node.operands]) fun _ _ _ he =>
    .still (.node he hs fun _ hx => absurd hx List.not_mem_nil)
      (.sym (Arena.node_eq_of_getElem? he) rfl)

variable (ha : a.WellFormed) (hx : a.Varies t ρ x u u') (hy : a.Varies t ρ y w w')
include ha hx

theorem varying_neg : Varying (neg x) a t ρ (-u) (-u') := by
  refine .get ?_
  split
  · next c hc =>
    obtain ⟨-, rfl, rfl⟩ := hx.literal (show a.num? x = some c by simp [Arena.num?, hc])
    rw [neg_zero]
    exact varying_num ha Exact.neg_real
  · next y hy => exact .pure ha (hx.of_neg hy)
  · exact .intern ha (by simpa [Node.operands] using hx.lt_size) fun b e hab he =>
      .neg he (hx.mono ha hab)

include hy

theorem varying_add : Varying (add x y) a t ρ (u + w) (u' + w') := by
  refine .get ?_
  split
  · next c d hc hd =>
    obtain ⟨-, rfl, rfl⟩ := hx.literal hc
    obtain ⟨-, rfl, rfl⟩ := hy.literal hd
    rw [add_zero]
    exact varying_num ha Exact.real_add_real
  split
  · next hzero =>
    obtain ⟨rfl, rfl⟩ := hx.of_isZero hzero
    exact .pure ha (hy.congr (zero_add w) (zero_add w'))
  split
  · next hzero =>
    obtain ⟨rfl, rfl⟩ := hy.of_isZero hzero
    exact .pure ha (hx.congr (add_zero u) (add_zero u'))
  · exact .intern ha (by simp [Node.operands, hx.lt_size, hy.lt_size]) fun b e hab he =>
      .add he (hx.mono ha hab) (hy.mono ha hab)

theorem varying_sub : Varying (sub x y) a t ρ (u - w) (u' - w') := by
  unfold sub
  split
  · next heq =>
    subst heq
    have hresult : Varying zero a t ρ 0 0 := varying_num ha Exact.zero_eq
    rw [hx.denotes.unique hy.denotes, hx.rate_unique hy, sub_self, sub_self]
    exact hresult
  refine .get ?_
  split
  · next c d hc hd =>
    obtain ⟨-, rfl, rfl⟩ := hx.literal hc
    obtain ⟨-, rfl, rfl⟩ := hy.literal hd
    rw [sub_zero]
    exact varying_num ha Exact.real_sub_real
  split
  · next hzero =>
    obtain ⟨rfl, rfl⟩ := hx.of_isZero hzero
    rw [zero_sub, zero_sub]
    exact varying_neg ha hy
  split
  · next hzero =>
    obtain ⟨rfl, rfl⟩ := hy.of_isZero hzero
    exact .pure ha (hx.congr (sub_zero u) (sub_zero u'))
  · exact .intern ha (by simp [Node.operands, hx.lt_size, hy.lt_size]) fun b e hab he =>
      .sub he (hx.mono ha hab) (hy.mono ha hab)

theorem varying_mul : Varying (mul x y) a t ρ (u * w) (u' * w + u * w') := by
  have hminus : (-Scalar.one : Exact) = real (-1) := by simp
  refine .get ?_
  split
  · next c d hc hd =>
    obtain ⟨-, rfl, rfl⟩ := hx.literal hc
    obtain ⟨-, rfl, rfl⟩ := hy.literal hd
    rw [zero_mul, mul_zero, add_zero]
    exact varying_num ha Exact.real_mul_real
  split
  · next hzero =>
    have hresult : Varying zero a t ρ 0 0 := varying_num ha Exact.zero_eq
    refine hresult.imp fun b e he => ?_
    rcases Bool.or_eq_true_iff.1 hzero with hzero | hzero
    · obtain ⟨rfl, rfl⟩ := hx.of_isNum Exact.zero_eq hzero
      exact he.congr (by ring) (by ring)
    · obtain ⟨rfl, rfl⟩ := hy.of_isNum Exact.zero_eq hzero
      exact he.congr (by ring) (by ring)
  split
  · next hone =>
    obtain ⟨rfl, rfl⟩ := hx.of_isNum Exact.one_eq hone
    exact .pure ha (hy.congr (by ring) (by ring))
  split
  · next hone =>
    obtain ⟨rfl, rfl⟩ := hy.of_isNum Exact.one_eq hone
    exact .pure ha (hx.congr (by ring) (by ring))
  split
  · next hone =>
    obtain ⟨rfl, rfl⟩ := hx.of_isNum hminus hone
    exact (varying_neg ha hy).imp fun b e he => he.congr (by ring) (by ring)
  split
  · next hone =>
    obtain ⟨rfl, rfl⟩ := hy.of_isNum hminus hone
    exact (varying_neg ha hx).imp fun b e he => he.congr (by ring) (by ring)
  · exact .intern ha (by simp [Node.operands, hx.lt_size, hy.lt_size]) fun b e hab he =>
      .mul he (hx.mono ha hab) (hy.mono ha hab)

omit hy

/-- The quotient by something other than zero that does not change. -/
theorem varying_div (hy : a.Free t y) (hw : a.Denotes (fun s => some (real (ρ s))) y w)
    (hne : w ≠ 0) : Varying (div x y) a t ρ (u / w) (u' / w) := by
  have hstill : a.Varies t ρ y w 0 := .still hy hw
  have otherwise : Varying (if isNum Scalar.zero (a.num? x) then pure x
      else if isNum Scalar.one (a.num? y) then pure x else if x = y then one
      else intern (.arith .div x y)) a t ρ (u / w) (u' / w) := by
    split
    · next hzero =>
      obtain ⟨rfl, rfl⟩ := hx.of_isNum Exact.zero_eq hzero
      exact .pure ha (hx.congr (zero_div w) (zero_div w))
    split
    · next hone =>
      obtain ⟨rfl, -⟩ := hstill.of_isNum Exact.one_eq hone
      exact .pure ha (hx.congr (div_one u) (div_one u'))
    split
    · next heq =>
      subst heq
      have hresult : Varying one a t ρ 1 0 := varying_num ha Exact.one_eq
      refine hresult.imp fun b e he => he.congr ?_ ?_
      · rw [hx.denotes.unique hw, div_self hne]
      · rw [hx.rate_eq_zero hy, zero_div]
    · exact .intern ha (by simp [Node.operands, hx.lt_size, hy.lt_size]) fun b e hab he =>
        .div he (hx.mono ha hab) (hy.mono hab) ((Arena.agreeBelow_of_le ha hab).denotes hy.lt_size hw)
          hne
  refine .get ?_
  dsimp only
  split
  · next c d hc hd =>
    rw [hc, hd] at otherwise
    split
    · exact otherwise
    · obtain ⟨-, rfl, rfl⟩ := hx.literal hc
      obtain ⟨-, rfl, -⟩ := hstill.literal hd
      rw [zero_div]
      exact varying_num ha (Exact.real_div_real hne)
  · exact otherwise

/-- The power with a natural exponent. -/
theorem varying_pow {n : ℕ} (hy : a.Literal y n) :
    Varying (pow x y) a t ρ (u ^ n) (n * u ^ (n - 1) * u') := by
  refine .get ?_
  dsimp only
  rw [hy.num?]
  split
  · next hzero =>
    obtain rfl := (isNum_natCast 0 (by simp)).1 hzero
    have hresult : Varying one a t ρ 1 0 := varying_num ha Exact.one_eq
    exact hresult.imp fun b e he => he.congr (by simp) (by simp)
  split
  · next hone =>
    obtain rfl := (isNum_natCast 1 (by simp)).1 hone
    exact .pure ha (hx.congr (by simp) (by simp))
  split
  · next c d hc hd =>
    cases hd
    obtain ⟨-, rfl, rfl⟩ := hx.literal hc
    rw [Exact.pow_natCast, if_pos Exact.isFinite_real, mul_zero]
    exact varying_num ha rfl
  · exact .intern ha (by simp [Node.operands, hx.lt_size, Arena.lt_size_of_getElem? hy])
      fun b e hab he => .pow he (hx.mono ha hab) (hab hy)

theorem varying_powInt (n : ℕ) :
    Varying (powInt x n) a t ρ (u ^ n) (n * u ^ (n - 1) * u') :=
  .bind (literal_num ha (Exact.int_natCast n)) fun _ _ hb hab hn =>
    varying_pow hb (hx.mono ha hab) hn

theorem varying_exp : Varying (call₁ .exp x) a t ρ (Real.exp u) (Real.exp u * u') := by
  have hnode : Varying (intern (.call (.elementary .exp) [x])) a t ρ (Real.exp u)
      (Real.exp u * u') :=
    .intern ha (by simp [Node.operands, hx.lt_size]) fun b e hab he => .exp he (hx.mono ha hab)
  refine .get ?_
  dsimp only
  split
  · next c hc =>
    obtain ⟨d, hd, hc⟩ := Option.bind_eq_some_iff.1 hc
    cases hc
    obtain ⟨-, rfl, rfl⟩ := hx.literal hd
    have hexp : Elementary.exp.value (real u) = real (Real.exp u) := rfl
    rw [hexp, if_pos Exact.isFinite_real, mul_zero]
    exact varying_num ha rfl
  · exact hnode

end Build

end HybridPlan
