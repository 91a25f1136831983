import Mathlib.Algebra.BigOperators.Group.Finset.Basic
import HybridPlan.Expr.Subterms
import HybridPlan.Proofs.Expr.Interning

set_option autoImplicit false

/-! # The stack of a walk

The walk from an expression works off a stack. It does what the recursion over the operands does, and
what is left on the stack below an expression waits until the expression is finished. Every expression
is met once, so the number of steps is enough. -/

namespace HybridPlan

variable {α : Type} [Scalar α]

namespace Arena

variable {a : Arena α} {w w' : Walk} {m n : Nat} {e x : ExprId}

/-- The walk down from `e` as a recursion of at most the given number of levels, skipping what was met
before. -/
def walkBelow (a : Arena α) : Nat → Walk → ExprId → Walk
  | 0, w, _ => w
  | n + 1, w, e =>
    if w.met.contains e then w
    else
      let w := { w with met := w.met.insert e }
      let w := (a.node e).operands.foldl (walkBelow a n) w
      { w with finished := w.finished.push e }

/-! ## What was met stays met -/

theorem walkBelow_of_met (h : w.met.contains e) : a.walkBelow n w e = w := by
  cases n with
  | zero => rfl
  | succ n => rw [walkBelow, if_pos h]

theorem met_walkBelow (h : w.met.contains x) : (a.walkBelow n w e).met.contains x := by
  induction n generalizing w e with
  | zero => exact h
  | succ n ih =>
    unfold walkBelow
    split
    · exact h
    · exact List.foldlRecOn (motive := fun w : Walk => w.met.contains x) _ _ (by simp [h])
        fun w hw y _ => ih hw

/-! ## The steps that are left -/

/-- What the expressions below `m` that were not met yet put on the stack when they are met. -/
def Walk.pending (a : Arena α) (w : Walk) (m : Nat) : Nat :=
  ∑ x ∈ Finset.range m, if w.met.contains x then 0 else (a.node x).operands.length + 1

theorem Walk.pending_insert (he : e < m) (hmet : ¬w.met.contains e) :
    Walk.pending a { w with met := w.met.insert e } m + ((a.node e).operands.length + 1) =
      w.pending a m := by
  have he : e ∈ Finset.range m := Finset.mem_range.2 he
  rw [pending, pending, ← Finset.add_sum_erase _ _ he, ← Finset.add_sum_erase _ _ he]
  have hothers : ∀ x ∈ (Finset.range m).erase e,
      (if (w.met.insert e).contains x then 0 else (a.node x).operands.length + 1) =
        if w.met.contains x then 0 else (a.node x).operands.length + 1 := by
    intro x hx
    have hne : e ≠ x := (Finset.ne_of_mem_erase hx).symm
    simp [hne]
  rw [if_pos (by simp), if_neg hmet, Finset.sum_congr rfl hothers, Nat.zero_add, Nat.add_comm]

/-- The walk from `e` begins with all steps left. -/
theorem walkLength_eq (a : Arena α) (e : ExprId) : a.walkLength e = 1 + Walk.pending a {} (e + 1) := by
  have hempty (x : ExprId) : ({} : Walk).met.contains x = false := by simp
  simp only [walkLength, Walk.pending, hempty, Bool.false_eq_true, if_false, List.length_flatMap,
    List.length_cons]
  rfl

/-! ## The stack and the recursion -/

/-- Within the steps that are left, the entries `top` of the stack are worked off, which brings the
walk from `w` to `w'`. -/
def WorksOff (a : Arena α) (m : Nat) (top : List (ExprId × Bool)) (w w' : Walk) : Prop :=
  ∃ k, k + w'.pending a m ≤ top.length + w.pending a m ∧
    ∀ j stack, a.walk (k + j) w (top ++ stack) = a.walk j w' stack

theorem WorksOff.nil (w : Walk) : a.WorksOff m [] w w :=
  ⟨0, by simp, fun j stack => by rw [Nat.zero_add, List.nil_append]⟩

theorem WorksOff.append {top top' : List (ExprId × Bool)} {w₁ : Walk} (h : a.WorksOff m top w w₁)
    (h' : a.WorksOff m top' w₁ w') : a.WorksOff m (top ++ top') w w' := by
  obtain ⟨k, hk, hwalk⟩ := h
  obtain ⟨k', hk', hwalk'⟩ := h'
  refine ⟨k + k', ?_, fun j stack => ?_⟩
  · rw [List.length_append]
    omega
  · rw [Nat.add_assoc, List.append_assoc, hwalk, hwalk']

/-- Operands that were met before are left out on the stack, as the recursion skips them. -/
theorem worksOff_operands {l : List ExprId} {p : ExprId → Bool}
    (hl : ∀ x ∈ l, ∀ w : Walk, a.WorksOff m [(x, false)] w (a.walkBelow n w x))
    (hp : ∀ x ∈ l, p x = false → w.met.contains x) :
    a.WorksOff m ((l.filter p).map (·, false)) w (l.foldl (a.walkBelow n) w) := by
  induction l generalizing w with
  | nil => exact .nil w
  | cons x l ih =>
    have hrest := ih (w := a.walkBelow n w x) (fun y hy => hl y (List.mem_cons_of_mem _ hy))
      fun y hy hskip => met_walkBelow (hp y (List.mem_cons_of_mem _ hy) hskip)
    rw [List.foldl_cons, List.filter_cons]
    split
    · exact (hl x List.mem_cons_self w).append hrest
    · next hskip =>
      have hmet : w.met.contains x := hp x List.mem_cons_self (by simpa using hskip)
      rwa [walkBelow_of_met hmet] at hrest ⊢

theorem worksOff_walkBelow (ha : a.WellFormed) (hn : e < n) (hm : e < m) (w : Walk) :
    a.WorksOff m [(e, false)] w (a.walkBelow n w e) := by
  induction n generalizing e w with
  | zero => exact absurd hn (Nat.not_lt_zero e)
  | succ n ih =>
    by_cases hmet : w.met.contains e
    · rw [walkBelow_of_met hmet]
      refine ⟨1, by simp, fun j stack => ?_⟩
      rw [Nat.add_comm, List.singleton_append, walk, if_pos hmet]
    · have hoperands := worksOff_operands (m := m) (n := n) (l := (a.node e).operands)
        (w := { w with met := w.met.insert e }) (p := fun x => !(w.met.insert e).contains x)
        (fun x hx w => by
          have hlt : x < e := ha.lt_of_mem_operands hx
          exact ih (Nat.lt_of_lt_of_le hlt (Nat.le_of_lt_succ hn)) (hlt.trans hm) w)
        fun x _ hskip => by simpa only [Bool.not_eq_false'] using hskip
      obtain ⟨k, hk, hwalk⟩ := hoperands
      rw [walkBelow, if_neg hmet]
      dsimp only
      generalize (a.node e).operands.foldl (a.walkBelow n) { w with met := w.met.insert e } = w₁
        at hk hwalk ⊢
      refine ⟨k + 2, ?_, fun j stack => ?_⟩
      · -- the expression is met once and finished once
        have hfilter := List.length_filter_le (fun x => !(w.met.insert e).contains x)
          (a.node e).operands
        have hpending := Walk.pending_insert (a := a) hm hmet
        have hfinish : Walk.pending a { w₁ with finished := w₁.finished.push e } m =
            w₁.pending a m := rfl
        rw [List.length_map] at hk
        rw [hfinish, List.length_singleton]
        omega
      · have hsteps : k + 2 + j = k + (j + 1) + 1 := by omega
        rw [hsteps, List.singleton_append, walk, if_neg hmet]
        dsimp only
        rw [hwalk, walk]

/-- The subterms are what the recursion finishes. -/
theorem subterms_eq (ha : a.WellFormed) (e : ExprId) :
    a.subterms e = (a.walkBelow (e + 1) {} e).finished.toList := by
  have hdone (j : Nat) (w : Walk) : a.walk j w [] = w := by cases j <;> rfl
  obtain ⟨k, hk, hwalk⟩ := worksOff_walkBelow ha (Nat.lt_succ_self e) (Nat.lt_succ_self e) {}
  rw [List.length_singleton, ← walkLength_eq] at hk
  obtain ⟨j, hj⟩ := Nat.exists_eq_add_of_le (Nat.le_trans (Nat.le_add_right _ _) hk)
  have hwalk := hwalk j []
  rw [List.append_nil, ← hj, hdone] at hwalk
  rw [subterms, hwalk]

end Arena

end HybridPlan
