import Std.Data.HashMap

set_option autoImplicit false

/-! # Interning

A table that numbers distinct values in the order of their first appearance: equal values get equal
numbers, and a number that was given once keeps its meaning. -/

namespace HybridPlan

structure Interner (κ : Type) [BEq κ] [Hashable κ] where
  /-- The values, by number. -/
  items : Array κ := #[]
  /-- The number of each value. -/
  index : Std.HashMap κ Nat := {}

namespace Interner

variable {κ : Type} [BEq κ] [Hashable κ]

/-- The number of values. -/
def size (t : Interner κ) : Nat := t.items.size

/-- The number of a value, if it has one. -/
def find? (t : Interner κ) (k : κ) : Option Nat := t.index[k]?

/-- The number of a value, which gets the next one if it is new. -/
def intern (t : Interner κ) (k : κ) : Nat × Interner κ :=
  match t.index[k]? with
  | some i => (i, t)
  | none => (t.items.size, ⟨t.items.push k, t.index.insert k t.items.size⟩)

/-! ## Laws -/

/-- Every value, and nothing else, has the number of its place. -/
def WellFormed (t : Interner κ) : Prop :=
  ∀ (k : κ) (i : Nat), t.index[k]? = some i ↔ t.items[i]? = some k

theorem items_intern (t : Interner κ) (k : κ) :
    (t.intern k).2.items = if t.index[k]?.isSome then t.items else t.items.push k := by
  unfold intern
  split <;> simp_all

/-- A number that was given once keeps its meaning. -/
theorem getElem?_intern_of_some {t : Interner κ} {i : Nat} {k : κ} (hi : t.items[i]? = some k)
    (k' : κ) : (t.intern k').2.items[i]? = some k := by
  rw [items_intern]
  split
  · exact hi
  · obtain ⟨hlt, _⟩ := Array.getElem?_eq_some_iff.1 hi
    rw [Array.getElem?_push, if_neg (Nat.ne_of_lt hlt)]
    exact hi

variable [LawfulBEq κ] {t : Interner κ}

theorem wellFormed_empty : WellFormed ({} : Interner κ) := by
  intro k i
  simp

omit [LawfulBEq κ] in
/-- The number of a value stands for it. -/
theorem WellFormed.getElem?_intern (h : t.WellFormed) (k : κ) :
    (t.intern k).2.items[(t.intern k).1]? = some k := by
  unfold Interner.intern
  split
  · next i hi => exact (h k i).1 hi
  · simp

theorem WellFormed.intern (h : t.WellFormed) (k : κ) : (t.intern k).2.WellFormed := by
  unfold Interner.intern
  split
  · exact h
  · next hnone =>
    have hnew (j : Nat) : t.items[j]? ≠ some k := fun hj => by
      rw [(h k j).2 hj] at hnone
      contradiction
    intro k' i
    rw [Std.HashMap.getElem?_insert, Array.getElem?_push]
    have hout : ∀ j : Nat, t.items[j]? = some k' → j ≠ t.items.size := fun j hj hs => by
      simp [hs] at hj
    by_cases hk : k = k'
    · subst hk
      simp only [beq_self_eq_true, if_true]
      by_cases hi : i = t.items.size
      · simp [hi]
      · simp [hi, hnew i, Ne.symm hi]
    · have hk' : (k == k') = false := by simpa using hk
      simp only [hk']
      by_cases hi : i = t.items.size
      · subst hi
        simp [h k', hk]
      · simp [hi, h k' i]
end Interner

end HybridPlan
