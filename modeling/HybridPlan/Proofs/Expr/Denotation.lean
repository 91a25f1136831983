import HybridPlan.Proofs.Expr.Value

set_option autoImplicit false

/-! # What expressions denote

Over exact numbers an arithmetic expression denotes a real number if all of its parts do and every
operation has a result. This number is the value of the expression for operators that insist on real
numbers. -/

namespace HybridPlan

open Exact (real)

/-! ## Numbers -/

/-- The real number that a node denotes over the numbers of its operands. -/
def Node.Denotes (v : Valuation Exact) (operand : ExprId → ℝ → Prop) : Node Exact → ℝ → Prop
  | num x, r => x = real r
  | sym s, r => v s = some (real r)
  | neg x, r => ∃ q, operand x q ∧ -q = r
  | arith op x y, r => ∃ q q', operand x q ∧ operand y q' ∧ op.apply (real q) (real q') = real r
  | call (.elementary f) [x], r => ∃ q, operand x q ∧ f.value (real q) = real r
  | call _ _, _ | compare _ _ _, _ | join _ _, _ => False

namespace Arena

/-- The real number that an arithmetic expression denotes. -/
inductive Denotes (a : Arena Exact) (v : Valuation Exact) : ExprId → ℝ → Prop
  | num {e : ExprId} {r : ℝ} (he : a.node e = .num (real r)) : Denotes a v e r
  | sym {e : ExprId} {s : String} {r : ℝ} (he : a.node e = .sym s) (hs : v s = some (real r)) :
      Denotes a v e r
  | neg {e x : ExprId} {q : ℝ} (he : a.node e = .neg x) (hx : Denotes a v x q) : Denotes a v e (-q)
  | arith {op : ArithOp} {e x y : ExprId} {q q' r : ℝ} (he : a.node e = .arith op x y)
      (hx : Denotes a v x q) (hy : Denotes a v y q')
      (hr : op.apply (real q) (real q') = real r) : Denotes a v e r
  | call {f : Elementary} {e x : ExprId} {q r : ℝ} (he : a.node e = .call (.elementary f) [x])
      (hx : Denotes a v x q) (hr : f.value (real q) = real r) : Denotes a v e r

end Arena

/-- The operator, with an undefined result unless both numbers are real. -/
noncomputable def ArithOp.strictly (op : ArithOp) : Exact → Exact → Exact
  | .real q, .real q' => op.apply (real q) (real q')
  | _, _ => .undefined

theorem ArithOp.strictly_eq_real {op : ArithOp} {u w : Exact} {r : ℝ} :
    op.strictly u w = real r ↔
      ∃ q q', u = real q ∧ w = real q' ∧ op.apply (real q) (real q') = real r := by
  cases u <;> cases w <;> simp [strictly]

theorem ArithOp.lawful_strictly : Lawful ArithOp.strictly where
  apply := rfl
  real h := .inl (strictly_eq_real.1 h)
  refines hu hw r hr := by
    obtain ⟨q, q', hq, hq', hr⟩ := strictly_eq_real.1 hr
    exact strictly_eq_real.2 ⟨q, q', hu q hq, hw q' hq', hr⟩

namespace Arena

variable {a b : Arena Exact} {v v' : Valuation Exact} {e : ExprId} {n : Nat} {q r : ℝ}

theorem denotes_iff_value : a.Denotes v e r ↔ a.Value ArithOp.strictly v e (real r) := by
  constructor
  · intro h
    induction h with
    | num he => exact .num he
    | sym he hs => exact .sym he hs
    | neg he _ ih => exact .neg he ih
    | arith he _ _ hr ihx ihy => exact hr ▸ .arith he ihx ihy
    | call he _ hr ih => exact hr ▸ .call he ih
  · intro h
    generalize hu : real r = u at h
    induction h generalizing r with
    | num he => exact .num (hu ▸ he)
    | sym he hs => exact .sym he (hu ▸ hs)
    | neg he _ ih =>
      obtain ⟨q, hq, rfl⟩ := Exact.neg_eq_real.1 hu.symm
      exact .neg he (ih hq.symm)
    | arith he _ _ ihx ihy =>
      obtain ⟨q, q', hq, hq', hr⟩ := ArithOp.strictly_eq_real.1 hu.symm
      exact .arith he (ihx hq.symm) (ihy hq'.symm) hr
    | call he _ ih =>
      obtain ⟨q, hq, hr⟩ := Exact.value_eq_real.1 hu.symm
      exact .call he (ih hq.symm) hr

theorem denotes_iff : a.Denotes v e r ↔ (a.node e).Denotes v (a.Denotes v) r := by
  rw [denotes_iff_value, value_iff]
  cases a.node e with
  | num x => exact Iff.rfl
  | sym s => exact Iff.rfl
  | neg x => simp [Node.Value, Node.Denotes, Exact.neg_eq_real, denotes_iff_value]
  | arith op x y =>
    simp [Node.Value, Node.Denotes, ArithOp.strictly_eq_real, denotes_iff_value]
  | call f args =>
    rcases f with f | _
    · rcases args with _ | ⟨x, _ | _⟩
      · exact Iff.rfl
      · constructor
        · rintro ⟨w, hw, hr⟩
          obtain ⟨q, rfl, hr⟩ := Exact.value_eq_real.1 hr
          exact ⟨q, denotes_iff_value.2 hw, hr⟩
        · rintro ⟨q, hq, hr⟩
          exact ⟨real q, denotes_iff_value.1 hq, hr⟩
      · exact Iff.rfl
    · exact Iff.rfl
  | compare | join => exact Iff.rfl

/-- What an expression denotes, by its node. -/
theorem Denotes.of_node {k : Node Exact} (h : a.Denotes v e r) (hn : a.node e = k) :
    k.Denotes v (a.Denotes v) r :=
  hn ▸ denotes_iff.1 h

/-- An expression denotes one number at most. -/
theorem Denotes.unique (h : a.Denotes v e q) (h' : a.Denotes v e r) : q = r :=
  Exact.real.inj ((denotes_iff_value.1 h).unique (denotes_iff_value.1 h'))

/-- What is denoted depends on the values of the symbols that the expression uses. -/
theorem Denotes.congr {V : Vocabulary Exact} (h : a.Denotes v e r) (he : a.Uses V e)
    (hv : ∀ s u, V.symbol s → v s = some u → v' s = some u) : a.Denotes v' e r :=
  denotes_iff_value.2 ((denotes_iff_value.1 h).congr he hv)

theorem AgreeBelow.denotes (h : AgreeBelow n a b) (he : e < n) (hr : a.Denotes v e r) :
    b.Denotes v e r :=
  denotes_iff_value.2 (h.value he (denotes_iff_value.1 hr))

end Arena

end HybridPlan
