import HybridPlan.Expr.Arena
import Mathlib.Order.Basic

set_option autoImplicit false

/-! # Growth of arenas

Constructions only ever add nodes to an arena. `a ≤ b` says that `b` has all nodes of `a` under
their numbers, so that an expression of `a` is the same expression in `b`. In a well-formed arena
every node has one number, and operands come before the nodes that use them. -/

namespace HybridPlan

variable {α : Type} [Scalar α]

namespace Arena

/-! ## Larger arenas -/

/-- `a ≤ b` if the nodes of `a` are nodes of `b`, with the same numbers. -/
instance : LE (Arena α) where
  le a b := ∀ ⦃e : ExprId⦄ ⦃n : Node α⦄, a.table.items[e]? = some n → b.table.items[e]? = some n

instance : Preorder (Arena α) where
  le_refl _ _ _ h := h
  le_trans _ _ _ hab hbc _ _ h := hbc (hab h)

theorem node_eq_of_getElem? {a : Arena α} {e : ExprId} {n : Node α}
    (h : a.table.items[e]? = some n) : a.node e = n := by
  simp [node, Array.getD_eq_getD_getElem?, h]

theorem getElem?_of_lt_size {a : Arena α} {e : ExprId} (h : e < a.size) :
    a.table.items[e]? = some (a.node e) := by
  have h : a.table.items[e]? = some a.table.items[e] := Array.getElem?_eq_getElem h
  rw [node_eq_of_getElem? h, h]

theorem lt_size_of_getElem? {a : Arena α} {e : ExprId} {n : Node α}
    (h : a.table.items[e]? = some n) : e < a.size :=
  (Array.getElem?_eq_some_iff.1 h).1

/-- Outside the arena there are only zeros. -/
theorem node_of_size_le {a : Arena α} {e : ExprId} (h : a.size ≤ e) :
    a.node e = .num Scalar.zero := by
  have h : a.table.items[e]? = none := Array.getElem?_eq_none h
  simp [node, Array.getD_eq_getD_getElem?, h]

theorem node_mono {a b : Arena α} (hab : a ≤ b) {e : ExprId} (he : e < a.size) :
    b.node e = a.node e :=
  node_eq_of_getElem? (hab (getElem?_of_lt_size he))

theorem size_mono {a b : Arena α} (hab : a ≤ b) : a.size ≤ b.size := by
  by_contra hlt
  have hb : b.size < a.size := Nat.lt_of_not_le hlt
  have h := lt_size_of_getElem? (hab (getElem?_of_lt_size hb))
  exact Nat.lt_irrefl _ h

/-! ## Well-formed arenas -/

/-- Every node has one number, and it is larger than the numbers of its operands. -/
structure WellFormed (a : Arena α) : Prop where
  table : a.table.WellFormed
  operands_lt : ∀ ⦃e : ExprId⦄ ⦃n : Node α⦄, a.table.items[e]? = some n → ∀ x ∈ n.operands, x < e

theorem wellFormed_empty : WellFormed ({} : Arena α) where
  table := Interner.wellFormed_empty
  operands_lt e n h := by simp at h

theorem WellFormed.lt_of_mem_operands {a : Arena α} (ha : a.WellFormed) {e x : ExprId}
    (hx : x ∈ (a.node e).operands) : x < e := by
  by_cases he : e < a.size
  · exact ha.operands_lt (getElem?_of_lt_size he) x hx
  · rw [node_of_size_le (Nat.le_of_not_lt he)] at hx
    exact absurd hx List.not_mem_nil

/-- Two numbers of one node are the same. -/
theorem WellFormed.number_unique {a : Arena α} (ha : a.WellFormed) {e e' : ExprId} {n : Node α}
    (he : a.table.items[e]? = some n) (he' : a.table.items[e']? = some n) : e = e' :=
  Option.some.inj (((ha.table n e).2 he).symm.trans ((ha.table n e').2 he'))

end Arena

/-! ## Interning -/

namespace Build

variable (a : Arena α) (n : Node α) (origin : Option (String × Span))

theorem table_intern : ((intern n origin).run a).2.table = (a.table.intern n).2 := rfl

theorem fst_intern : ((intern n origin).run a).1 = (a.table.intern n).1 := rfl

/-- A place is added only with a new node. -/
theorem origins_intern : ((intern n origin).run a).2.origins = a.origins ∨
    a.table.find? n = none ∧ ∃ s span, origin = some (s, span) ∧
      ((intern n origin).run a).2.origins = a.origins.insert s span := by
  unfold intern
  rw [StateT.run_modifyGet]
  dsimp only
  cases a.table.find? n with
  | none =>
    cases origin with
    | none => exact .inl rfl
    | some place => exact .inr ⟨rfl, place.1, place.2, rfl, rfl⟩
  | some e => exact .inl rfl

theorem le_intern : a ≤ ((intern n origin).run a).2 := by
  intro e m h
  rw [table_intern]
  exact Interner.getElem?_intern_of_some h n

variable {a} (ha : a.WellFormed)
include ha

theorem getElem?_intern :
    ((intern n origin).run a).2.table.items[((intern n origin).run a).1]? = some n := by
  rw [table_intern, fst_intern]
  exact ha.table.getElem?_intern n

omit ha in
/-- The only node that interning can add is the given one. -/
theorem eq_of_getElem?_intern {e : ExprId} {m : Node α}
    (h : ((intern n origin).run a).2.table.items[e]? = some m) :
    a.table.items[e]? = some m ∨ m = n ∧ a.size ≤ e := by
  rw [table_intern, Interner.items_intern] at h
  split at h
  · exact .inl h
  · rw [Array.getElem?_push] at h
    split at h
    · next he =>
      exact .inr ⟨(Option.some.inj h).symm, Nat.le_of_eq he.symm⟩
    · exact .inl h

theorem wellFormed_intern (hn : ∀ x ∈ n.operands, x < a.size) :
    ((intern n origin).run a).2.WellFormed where
  table := ha.table.intern n
  operands_lt e m h x hx := by
    rcases eq_of_getElem?_intern n origin h with h | ⟨rfl, he⟩
    · exact ha.operands_lt h x hx
    · exact Nat.lt_of_lt_of_le (hn x hx) he

end Build

end HybridPlan
