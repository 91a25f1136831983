import HybridPlan.Proofs.Expr.Constructors
import HybridPlan.Proofs.Expr.Outcome
import HybridPlan.Proofs.Expr.Reduced

set_option autoImplicit false

/-! # What arithmetic keeps

Constructors of arithmetic give an operand, its opposite, a number or a new node. A property that all
nodes of the operands have, and that the new nodes have too, is one of all nodes of the result. -/

namespace HybridPlan

variable {α : Type} [Scalar α] {P : Node α → Prop} {a : Arena α} {x y : ExprId}

open Build

/-- Arithmetic with expressions made of such nodes is made of such nodes. -/
structure Arithmetical (P : Node α → Prop) : Prop where
  zero : P (.num (Scalar.unsignedZero Scalar.zero))
  one : P (.num (Scalar.unsignedZero Scalar.one))
  neg : ∀ {a : Arena α} {x : ExprId}, a.WellFormed → a.MadeOf P x →
    Leads (Build.neg x) a fun b => b.MadeOf P
  arith : ∀ {a : Arena α} {x y : ExprId} (op : ArithOp), a.WellFormed → a.MadeOf P x → a.MadeOf P y →
    Leads (Build.arith op x y) a fun b => b.MadeOf P
  call : ∀ {a : Arena α} {x : ExprId} (f : Elementary), a.WellFormed → a.MadeOf P x →
    Leads (call₁ f x) a fun b => b.MadeOf P

theorem arithmetical_allows {V : Vocabulary α} (hV : V.Closed) : Arithmetical V.Allows where
  zero := hV.unsignedZero hV.zero
  one := hV.unsignedZero hV.one
  neg {a x} ha hx := (yields_neg hV (C := {x}) rfl).leads ha (by simpa using hx)
  arith {a x y} op ha hx hy :=
    (yields_arith hV (C := {x, y}) op (by simp) (by simp)).leads ha (by simp [hx, hy])
  call {a x} f ha hx := (yields_call₁ hV (C := {x}) rfl).leads ha (by simpa using hx)

section

variable (hP : ∀ n : Node α, (∀ s, n ≠ .sym s) → P n) (ha : a.WellFormed)
include hP ha

theorem madeOf_intern {n : Node α} (hn : ∀ s, n ≠ .sym s) (hx : ∀ x ∈ n.operands, a.MadeOf P x) :
    Leads (intern n) a fun b => b.MadeOf P :=
  .intern ha (fun x h => (hx x h).lt_size) fun _ _ hab he =>
    .node he (hP n hn) fun x h => (hx x h).mono hab

theorem madeOf_num (u : α) : Leads (num u) a fun b => b.MadeOf P :=
  madeOf_intern hP ha (by simp) (by simp [Node.operands])

theorem madeOf_neg (hx : a.MadeOf P x) : Leads (neg x) a fun b => b.MadeOf P := by
  refine .get ?_
  split
  · exact madeOf_num hP ha _
  · next y hy => exact .pure ha (hx.operand (by simp [hy, Node.operands]))
  · exact madeOf_intern hP ha (by simp) (by simpa [Node.operands] using hx)

theorem madeOf_arith (op : ArithOp) (hx : a.MadeOf P x) (hy : a.MadeOf P y) :
    Leads (arith op x y) a fun b => b.MadeOf P := by
  have houtcome := outcome_combine op x y (a.num? x) (a.num? y)
  refine .congr (run_arith op x y a) ?_
  generalize combine op x y (a.num? x) (a.num? y) = m at houtcome
  cases houtcome with
  | num u => exact madeOf_num hP ha u
  | left => exact .pure ha hx
  | right => exact .pure ha hy
  | negLeft => exact madeOf_neg hP ha hx
  | negRight => exact madeOf_neg hP ha hy
  | node => exact madeOf_intern hP ha (by simp) (by simp [Node.operands, hx, hy])

theorem madeOf_call₁ (f : Elementary) (hx : a.MadeOf P x) :
    Leads (call₁ f x) a fun b => b.MadeOf P := by
  rcases call_cases (.elementary f) [x] a with ⟨u, -, -, hu⟩ | hnode
  · exact .congr hu (madeOf_num hP ha u)
  · exact .congr (hnode a rfl) (madeOf_intern hP ha (by simp) (by simpa [Node.operands] using hx))

end

/-- Arithmetic brings in no symbols. -/
theorem arithmetical_of_not_sym (hP : ∀ n : Node α, (∀ s, n ≠ .sym s) → P n) : Arithmetical P where
  zero := hP _ (by simp)
  one := hP _ (by simp)
  neg ha hx := madeOf_neg hP ha hx
  arith op ha hx hy := madeOf_arith hP ha op hx hy
  call f ha hx := madeOf_call₁ hP ha f hx

end HybridPlan
