import HybridPlan.Expr.Printer
import HybridPlan.Proofs.Expr.Growth

set_option autoImplicit false

/-! # Trees of expressions

An arena shares what a tree repeats. The tree of an expression is its node with the trees of its operands,
and it is the same in a larger arena. -/

namespace HybridPlan

variable {α : Type} [Scalar α]

/-- The tree of a node whose operands have the given trees. -/
def Node.unfold (f : ExprId → Expr α) : Node α → Expr α
  | num v => .num v
  | sym s => .sym s
  | neg x => .neg (f x)
  | arith op x y => .arith op (f x) (f y)
  | call g args => .call g (args.map f)
  | compare op x y => .compare op (f x) (f y)
  | join c items => .join c (items.map f)

omit [Scalar α] in
theorem Node.unfold_congr {f g : ExprId → Expr α} {n : Node α} (h : ∀ x ∈ n.operands, f x = g x) :
    n.unfold f = n.unfold g := by
  cases n with
  | num v => rfl
  | sym s => rfl
  | neg x => rw [unfold, unfold, h x (by simp [operands])]
  | arith op x y | compare op x y =>
    rw [unfold, unfold, h x (by simp [operands]), h y (by simp [operands])]
  | call g args | join c items => simpa [unfold, operands] using h

namespace Arena

variable {a b : Arena α} {e : ExprId}

theorem treeBelow_succ (a : Arena α) (n : Nat) (e : ExprId) :
    a.treeBelow (n + 1) e = (a.node e).unfold (a.treeBelow n) := by
  rw [treeBelow]
  cases a.node e <;> rfl

namespace WellFormed

variable (ha : a.WellFormed)
include ha

/-- More levels than the expression has show nothing new. -/
theorem treeBelow_eq {n m : Nat} (hn : e < n) (hm : e < m) : a.treeBelow n e = a.treeBelow m e := by
  induction e using Nat.strongRecOn generalizing n m with
  | ind e ih =>
    obtain ⟨n, rfl⟩ := Nat.exists_eq_add_one.2 (Nat.zero_lt_of_lt hn)
    obtain ⟨m, rfl⟩ := Nat.exists_eq_add_one.2 (Nat.zero_lt_of_lt hm)
    rw [treeBelow_succ, treeBelow_succ]
    refine Node.unfold_congr fun x hx => ?_
    have hxe : x < e := ha.lt_of_mem_operands hx
    exact ih x hxe (Nat.lt_of_lt_of_le hxe (Nat.le_of_lt_succ hn))
      (Nat.lt_of_lt_of_le hxe (Nat.le_of_lt_succ hm))

theorem tree_eq (e : ExprId) : a.tree e = (a.node e).unfold a.tree := by
  rw [tree, treeBelow_succ]
  exact Node.unfold_congr fun x hx =>
    ha.treeBelow_eq (ha.lt_of_mem_operands hx) (Nat.lt_succ_self x)

/-- An expression keeps its tree in a larger arena. -/
theorem tree_mono (hb : b.WellFormed) (hab : a ≤ b) (he : e < a.size) : b.tree e = a.tree e := by
  induction e using Nat.strongRecOn with
  | ind e ih =>
    rw [ha.tree_eq, hb.tree_eq, node_mono hab he]
    refine Node.unfold_congr fun x hx => ?_
    have hxe := ha.lt_of_mem_operands hx
    exact ih x hxe (Nat.lt_trans hxe he)

end WellFormed

end Arena

end HybridPlan
