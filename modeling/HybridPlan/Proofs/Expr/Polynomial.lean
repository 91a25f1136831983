import HybridPlan.Proofs.Expr.Denotation
import HybridPlan.Proofs.Expr.Differentiation
import HybridPlan.Proofs.Expr.Outcome
import Mathlib.Algebra.MvPolynomial.Monad
import Mathlib.Algebra.MvPolynomial.PDeriv

set_option autoImplicit false

/-! # Polynomials

Expressions that are built from real numbers and symbols by sums, differences, products, natural
powers and quotients by numbers stand for polynomials in the symbols. What the folding constructors
make of such expressions, and the results of substitution and differentiation, stand for what the
corresponding operations make of the polynomials. -/

namespace HybridPlan

open Exact (real)
open MvPolynomial (bind₁ pderiv)

/-- Polynomials in the symbols of expressions. -/
abbrev Poly := MvPolynomial String ℝ

/-- The operators that rings have. -/
noncomputable def ArithOp.ring? : ArithOp → Option (Poly → Poly → Poly)
  | add => some fun p q => p + q
  | sub => some fun p q => p - q
  | mul => some fun p q => p * q
  | div | pow => none

namespace Arena

/-! ## Expressions that stand for polynomials -/

/-- The expression is the literal of a real number. -/
def Literal (a : Arena Exact) (e : ExprId) (r : ℝ) : Prop :=
  a.table.items[e]? = some (.num (real r))

/-- The expression stands for a polynomial. -/
inductive Represents (a : Arena Exact) : ExprId → Poly → Prop
  | num {e : ExprId} {r : ℝ} (he : a.Literal e r) : Represents a e (.C r)
  | sym {e : ExprId} {s : String} (he : a.table.items[e]? = some (.sym s)) : Represents a e (.X s)
  | neg {e x : ExprId} {p : Poly} (he : a.table.items[e]? = some (.neg x))
      (hx : Represents a x p) : Represents a e (-p)
  | ring {op : ArithOp} {f : Poly → Poly → Poly} {e x y : ExprId}
      {p q : Poly} (he : a.table.items[e]? = some (.arith op x y)) (hop : op.ring? = some f)
      (hx : Represents a x p) (hy : Represents a y q) : Represents a e (f p q)
  | pow {e x y : ExprId} {p : Poly} {n : ℕ}
      (he : a.table.items[e]? = some (.arith .pow x y)) (hx : Represents a x p)
      (hy : a.Literal y n) : Represents a e (p ^ n)
  | div {e x y : ExprId} {p : Poly} {r : ℝ}
      (he : a.table.items[e]? = some (.arith .div x y)) (hx : Represents a x p)
      (hy : a.Literal y r) (hr : r ≠ 0) : Represents a e (.C r⁻¹ * p)

/-- The polynomial that a node stands for over those of its operands. -/
def NodeRepresents (a : Arena Exact) : Node Exact → Poly → Prop
  | .num u, p => ∃ r, u = real r ∧ p = .C r
  | .sym s, p => p = .X s
  | .neg x, p => ∃ q, a.Represents x q ∧ p = -q
  | .arith .pow x y, p => ∃ q, ∃ n : ℕ, a.Represents x q ∧ a.Literal y n ∧ p = q ^ n
  | .arith .div x y, p => ∃ q r, a.Represents x q ∧ a.Literal y r ∧ r ≠ 0 ∧ p = .C r⁻¹ * q
  | .arith op x y, p => ∃ f q q', op.ring? = some f ∧ a.Represents x q ∧ a.Represents y q' ∧
      p = f q q'
  | .call _ _, _ | .compare _ _ _, _ | .join _ _, _ => False

variable {a b : Arena Exact} {e x y : ExprId} {p q : Poly} {q' r : ℝ}

theorem Literal.mono (hab : a ≤ b) (h : a.Literal e r) : b.Literal e r := hab h

theorem Literal.num? (h : a.Literal e r) : a.num? e = some (real r) := by
  rw [Arena.num?, node_eq_of_getElem? h]

theorem Literal.isZero (h : a.Literal e 0) : a.isZero e = true := by
  rw [Arena.isZero, h.num?]
  simp [Exact.isZero_iff]

theorem Literal.unique (h : a.Literal e q') (h' : a.Literal e r) : q' = r :=
  Exact.real.inj (Node.num.inj (Option.some.inj (h.symm.trans h')))

namespace Represents

theorem node (h : a.Represents e p) : a.NodeRepresents (a.node e) p := by
  cases h with
  | num he => exact node_eq_of_getElem? he ▸ ⟨_, rfl, rfl⟩
  | sym he => exact node_eq_of_getElem? he ▸ rfl
  | neg he hx => exact node_eq_of_getElem? he ▸ ⟨_, hx, rfl⟩
  | @ring op f _ _ _ _ _ he hop hx hy =>
    rw [node_eq_of_getElem? he]
    cases op with
    | add | sub | mul => exact ⟨f, _, _, hop, hx, hy, rfl⟩
    | div | pow => cases hop
  | pow he hx hy => exact node_eq_of_getElem? he ▸ ⟨_, _, hx, hy, rfl⟩
  | div he hx hy hr => exact node_eq_of_getElem? he ▸ ⟨_, _, hx, hy, hr, rfl⟩

theorem getElem? (h : a.Represents e p) : a.table.items[e]? = some (a.node e) := by
  cases h with
  | num he | sym he | neg he | ring he | pow he | div he => rw [he, node_eq_of_getElem? he]

/-- An expression stands for one polynomial at most. -/
theorem unique (h : a.Represents e p) (h' : a.Represents e q) : p = q := by
  induction h generalizing q with
  | num he =>
    have hnode := h'.node
    rw [node_eq_of_getElem? he] at hnode
    obtain ⟨r, hr, rfl⟩ := hnode
    rw [Exact.real.inj hr]
  | sym he =>
    have hnode := h'.node
    rw [node_eq_of_getElem? he] at hnode
    exact hnode.symm
  | neg he _ ih =>
    have hnode := h'.node
    rw [node_eq_of_getElem? he] at hnode
    obtain ⟨q', hq', rfl⟩ := hnode
    rw [ih hq']
  | @ring op f _ _ _ _ _ he hop _ _ ihx ihy =>
    have hnode := h'.node
    rw [node_eq_of_getElem? he] at hnode
    cases op with
    | add | sub | mul =>
      obtain ⟨f', q₁, q₂, hop', hx', hy', rfl⟩ := hnode
      cases hop.symm.trans hop'
      rw [ihx hx', ihy hy']
    | div | pow => cases hop
  | pow he _ hy ih =>
    have hnode := h'.node
    rw [node_eq_of_getElem? he] at hnode
    obtain ⟨q', n, hx', hy', rfl⟩ := hnode
    rw [ih hx', Nat.cast_injective (hy.unique hy')]
  | div he _ hy _ ih =>
    have hnode := h'.node
    rw [node_eq_of_getElem? he] at hnode
    obtain ⟨q', r, hx', hy', -, rfl⟩ := hnode
    rw [ih hx', hy.unique hy']

theorem mono (hab : a ≤ b) (h : a.Represents e p) : b.Represents e p := by
  induction h with
  | num he => exact .num (hab he)
  | sym he => exact .sym (hab he)
  | neg he _ ih => exact .neg (hab he) ih
  | ring he hop _ _ ihx ihy => exact .ring (hab he) hop ihx ihy
  | pow he _ hy ih => exact .pow (hab he) ih (hab hy)
  | div he _ hy hr ih => exact .div (hab he) ih (hab hy) hr

/-- A literal stands for its number. -/
theorem literal (h : a.Represents e p) {u : Exact} (hu : a.num? e = some u) :
    ∃ r, u = real r ∧ p = .C r ∧ a.Literal e r := by
  have hitem := h.getElem?
  have hnode := h.node
  unfold Arena.num? at hu
  split at hu
  · next w hw =>
    cases hu
    rw [hw] at hitem hnode
    obtain ⟨r, rfl, rfl⟩ := hnode
    exact ⟨r, rfl, rfl, hitem⟩
  · cases hu

/-- All parts can be differentiated. -/
theorem differentiable (h : a.Represents e p) : a.MadeOf Node.Differentiable e := by
  induction h with
  | num he => exact .node he trivial fun x hx => absurd hx List.not_mem_nil
  | sym he => exact .node he trivial fun x hx => absurd hx List.not_mem_nil
  | neg he _ ih => exact .node he trivial (by simpa [Node.operands] using ih)
  | ring he _ _ _ ihx ihy => exact .node he trivial (by simp [Node.operands, ihx, ihy])
  | pow he _ hy ih | div he _ hy _ ih =>
    have hy : a.MadeOf Node.Differentiable _ :=
      .node hy trivial fun x hx => absurd hx List.not_mem_nil
    exact .node he trivial (by simp [Node.operands, ih, hy])

theorem uses (h : a.Represents e p) : a.Uses (.all Exact) e := h.differentiable.uses

/-- The value of an expression is that of its polynomial. -/
theorem denotes (h : a.Represents e p) (ρ : String → ℝ) :
    a.Denotes (fun s => some (real (ρ s))) e (MvPolynomial.eval ρ p) := by
  induction h with
  | num he =>
    rw [MvPolynomial.eval_C]
    exact .num (node_eq_of_getElem? he)
  | sym he =>
    rw [MvPolynomial.eval_X]
    exact .sym (node_eq_of_getElem? he) rfl
  | neg he _ ih =>
    rw [map_neg]
    exact .neg (node_eq_of_getElem? he) ih
  | @ring op f e x y p q he hop _ _ ihx ihy =>
    refine .arith (node_eq_of_getElem? he) ihx ihy ?_
    cases op with
    | add | sub | mul =>
      cases hop
      simp [ArithOp.apply]
    | div | pow => cases hop
  | @pow e x y p n he _ hy ih =>
    refine .arith (node_eq_of_getElem? he) ih (.num (node_eq_of_getElem? hy)) ?_
    rw [ArithOp.apply, Exact.powReal_real, Exact.pow_natCast, map_pow]
  | div he _ hy hr ih =>
    refine .arith (node_eq_of_getElem? he) ih (.num (node_eq_of_getElem? hy)) ?_
    rw [ArithOp.apply, Exact.real_div_real hr, map_mul, MvPolynomial.eval_C, div_eq_inv_mul]

end Represents

end Arena

/-! ## Constructors -/

namespace Build

/-- The construction makes an expression that stands for a polynomial. -/
abbrev Represented (m : Build Exact ExprId) (a : Arena Exact) (p : Poly) : Prop :=
  Leads m a fun b e => b.Represents e p

variable {a : Arena Exact} {x y : ExprId} {p q : Poly} {r r' : ℝ}

theorem literal_num (ha : a.WellFormed) {u : Exact} (hu : u = real r) :
    Leads (num u) a fun b e => b.Literal e r := by
  unfold num
  rw [Exact.unsignedZero_eq, hu]
  exact .intern ha (by simp [Node.operands]) fun b e _ he => he

theorem represented_num (ha : a.WellFormed) {u : Exact} (hu : u = real r) :
    Represented (num u) a (.C r) :=
  (literal_num ha hu).imp fun _ _ he => .num he

theorem represented_zero (ha : a.WellFormed) : Represented zero a 0 := by
  rw [← map_zero MvPolynomial.C]
  exact represented_num ha Exact.zero_eq

theorem represented_one (ha : a.WellFormed) : Represented one a 1 := by
  rw [← map_one MvPolynomial.C]
  exact represented_num ha Exact.one_eq

theorem represented_sym (ha : a.WellFormed) (name : Name) :
    Represented (sym name) a (.X name.text) :=
  .intern ha (by simp [Node.operands]) fun b e _ he => .sym he

theorem isNum_natCast {n : ℕ} (k : ℕ) {w : Exact} (hw : w = real k) :
    isNum w (some (real (n : ℝ))) = true ↔ n = k := by
  rw [hw, isNum, Option.any_some, Exact.eq_real, Exact.real.injEq, Nat.cast_inj]

/-- What is checked to be a certain number stands for it. -/
theorem eq_of_represents_isNum (h : a.Represents x p) {w : Exact} (hw : w = real r)
    (hnum : isNum w (a.num? x)) : p = .C r := by
  obtain ⟨u, hu, heq⟩ := (Option.any_eq_true _ _).1 hnum
  obtain ⟨r', rfl, rfl, -⟩ := h.literal hu
  rw [hw, Exact.eq_real] at heq
  rw [Exact.real.inj heq]

theorem eq_zero_of_represents_isNum (h : a.Represents x p) (hnum : isNum Scalar.zero (a.num? x)) :
    p = 0 := by
  rw [eq_of_represents_isNum h Exact.zero_eq hnum, map_zero]

theorem eq_one_of_represents_isNum (h : a.Represents x p) (hnum : isNum Scalar.one (a.num? x)) :
    p = 1 := by
  rw [eq_of_represents_isNum h Exact.one_eq hnum, map_one]

variable (ha : a.WellFormed) (hx : a.Represents x p) (hy : a.Represents y q)
include ha hx

theorem represented_neg : Represented (neg x) a (-p) := by
  refine .get ?_
  split
  · next u hu =>
    obtain ⟨r, rfl, rfl, -⟩ := hx.literal (show a.num? x = some u by simp [Arena.num?, hu])
    rw [← map_neg]
    exact represented_num ha (Exact.neg_real)
  · next y hy =>
    have hnode := hx.node
    rw [hy] at hnode
    obtain ⟨q, hq, rfl⟩ := hnode
    rw [neg_neg]
    exact .pure ha hq
  · refine .intern ha (by simpa [Node.operands] using hx.uses.lt_size) fun b e hab he => ?_
    exact .neg he (hx.mono hab)

include hy

theorem represented_intern {op : ArithOp} {f : Poly → Poly → Poly}
    (hop : op.ring? = some f) : Represented (intern (.arith op x y)) a (f p q) := by
  refine .intern ha ?_ fun b e hab he => .ring he hop (hx.mono hab) (hy.mono hab)
  simpa [Node.operands] using ⟨hx.uses.lt_size, hy.uses.lt_size⟩

theorem represented_add : Represented (add x y) a (p + q) := by
  refine .get ?_
  split
  · next u w hu hw =>
    obtain ⟨r, rfl, rfl, -⟩ := hx.literal hu
    obtain ⟨r', rfl, rfl, -⟩ := hy.literal hw
    rw [← map_add]
    exact represented_num ha Exact.real_add_real
  · split
    · next hzero =>
      rw [eq_zero_of_represents_isNum hx hzero, zero_add]
      exact .pure ha hy
    · split
      · next hzero =>
        rw [eq_zero_of_represents_isNum hy hzero, add_zero]
        exact .pure ha hx
      · exact represented_intern ha hx hy rfl

theorem represented_sub : Represented (sub x y) a (p - q) := by
  unfold sub
  split
  · next heq =>
    subst heq
    rw [hx.unique hy, sub_self]
    exact represented_zero ha
  · refine .get ?_
    split
    · next u w hu hw =>
      obtain ⟨r, rfl, rfl, -⟩ := hx.literal hu
      obtain ⟨r', rfl, rfl, -⟩ := hy.literal hw
      rw [← map_sub]
      exact represented_num ha Exact.real_sub_real
    · split
      · next hzero =>
        rw [eq_zero_of_represents_isNum hx hzero, zero_sub]
        exact represented_neg ha hy
      · split
        · next hzero =>
          rw [eq_zero_of_represents_isNum hy hzero, sub_zero]
          exact .pure ha hx
        · exact represented_intern ha hx hy rfl

theorem represented_mul : Represented (mul x y) a (p * q) := by
  have hminus : (-Scalar.one : Exact) = real (-1) := by simp
  refine .get ?_
  split
  · next u w hu hw =>
    obtain ⟨r, rfl, rfl, -⟩ := hx.literal hu
    obtain ⟨r', rfl, rfl, -⟩ := hy.literal hw
    rw [← map_mul]
    exact represented_num ha Exact.real_mul_real
  · split
    · next hzero =>
      have hproduct : p * q = 0 := by
        rcases Bool.or_eq_true_iff.1 hzero with hzero | hzero
        · rw [eq_zero_of_represents_isNum hx hzero, zero_mul]
        · rw [eq_zero_of_represents_isNum hy hzero, mul_zero]
      rw [hproduct]
      exact represented_zero ha
    split
    · next hone =>
      rw [eq_one_of_represents_isNum hx hone, one_mul]
      exact .pure ha hy
    split
    · next hone =>
      rw [eq_one_of_represents_isNum hy hone, mul_one]
      exact .pure ha hx
    split
    · next hone =>
      rw [eq_of_represents_isNum hx hminus hone, map_neg, map_one, neg_one_mul]
      exact represented_neg ha hy
    split
    · next hone =>
      rw [eq_of_represents_isNum hy hminus hone, map_neg, map_one, mul_neg_one]
      exact represented_neg ha hx
    · exact represented_intern ha hx hy rfl

omit hy

/-- A quotient by a number other than zero. -/
theorem represented_div (hy : a.Literal y r) (hr : r ≠ 0) :
    Represented (div x y) a (.C r⁻¹ * p) := by
  refine .get ?_
  dsimp only
  rw [hy.num?]
  split
  · next u w hu hw =>
    cases hw
    obtain ⟨r', rfl, rfl, -⟩ := hx.literal hu
    have hzero : ¬Scalar.isZero (real r) = true := by
      rw [Exact.isZero_iff]
      exact fun h => hr (Exact.real.inj h)
    rw [if_neg hzero, ← map_mul]
    exact represented_num ha (by rw [Exact.real_div_real hr, div_eq_inv_mul])
  · next hnone =>
    split
    · next hzero =>
      rw [eq_zero_of_represents_isNum hx hzero, mul_zero, ← eq_zero_of_represents_isNum hx hzero]
      exact .pure ha hx
    split
    · next hone =>
      have hr' : real r = real 1 := by simpa [isNum] using hone
      rw [Exact.real.inj hr', inv_one, map_one, one_mul]
      exact .pure ha hx
    split
    · next heq =>
      subst heq
      exact absurd hy.num? (by simpa using hnone (real r))
    · refine .intern ha ?_ fun b e hab he => .div he (hx.mono hab) (hy.mono hab) hr
      simpa [Node.operands] using ⟨hx.uses.lt_size, (Arena.Represents.num hy).uses.lt_size⟩

/-- A power with a natural exponent. -/
theorem represented_pow {n : ℕ} (hy : a.Literal y n) : Represented (pow x y) a (p ^ n) := by
  refine .get ?_
  dsimp only
  rw [hy.num?]
  split
  · next hzero =>
    rw [(isNum_natCast 0 (by simp)).1 hzero, pow_zero]
    exact represented_one ha
  split
  · next hone =>
    rw [(isNum_natCast 1 (by simp)).1 hone, pow_one]
    exact .pure ha hx
  split
  · next u w hu hw =>
    cases hw
    obtain ⟨r, rfl, rfl, -⟩ := hx.literal hu
    rw [Exact.pow_natCast, if_pos Exact.isFinite_real, ← map_pow]
    exact represented_num ha rfl
  · refine .intern ha ?_ fun b e hab he => .pow he (hx.mono hab) (hy.mono hab)
    simpa [Node.operands] using ⟨hx.uses.lt_size, (Arena.Represents.num hy).uses.lt_size⟩

end Build

end HybridPlan
