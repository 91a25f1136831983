import HybridPlan.Proofs.Expr.Evaluation
import HybridPlan.Proofs.Expr.Judgement
import HybridPlan.Proofs.Simulation.Findings

set_option autoImplicit false

/-! # Residuals of constraints

Over exact numbers the residual of a constraint is what its comparisons fail by, the worst of them in
a conjunction and the best of them in a disjunction. It is not positive if the constraint holds,
strict comparisons being read as weak ones. -/

namespace HybridPlan

open Exact (real)

/-! ## Residuals of real numbers -/

/-- By how much a comparison of real numbers fails, relative to them. -/
noncomputable def Comparison.excess (op : Comparison) (q r : ℝ) : ℝ :=
  let gap := match op with
    | .lt | .le => q - r
    | .gt | .ge => r - q
    | .eq => |q - r|
  gap / max (max 1 |q|) |r|

theorem Comparison.excess_nonpos_iff {op : Comparison} {q r : ℝ} :
    op.excess q r ≤ 0 ↔ op.weaken.Holds q r := by
  have hpos : (0 : ℝ) < max (max 1 |q|) |r| :=
    lt_of_lt_of_le one_pos (le_trans (le_max_left 1 |q|) (le_max_left _ |r|))
  have hsign (gap : ℝ) : gap / max (max 1 |q|) |r| ≤ 0 ↔ gap ≤ 0 := by
    rw [div_le_iff₀ hpos, zero_mul]
  -- what the gap between the numbers is divided by does not change its sign
  cases op with
  | lt | le => exact (hsign _).trans sub_nonpos
  | gt | ge => exact (hsign _).trans sub_nonpos
  | eq => exact (hsign _).trans (abs_nonpos_iff.trans sub_eq_zero)

theorem Comparison.residual_real (op : Comparison) (q r : ℝ) :
    op.residual (real q) (real r) = real (op.excess q r) := by
  have hpos : (0 : ℝ) < max (max 1 |q|) |r| :=
    lt_of_lt_of_le one_pos (le_trans (le_max_left 1 |q|) (le_max_left _ |r|))
  have hquotient (gap : ℝ) : real gap / Scalar.max (Scalar.max Scalar.one (Scalar.abs (real q)))
      (Scalar.abs (real r)) = real (gap / max (max 1 |q|) |r|) := by
    simp [Exact.real_div_real hpos.ne']
  cases op with
  | lt | le | gt | ge | eq => exact hquotient _

theorem Comparison.residual_eq_real {op : Comparison} {u w : Exact} {ρ : ℝ} :
    op.residual u w = real ρ ↔ ∃ q r, u = real q ∧ w = real r ∧ op.excess q r = ρ := by
  constructor
  · intro h
    -- the gap between the numbers is real only if both of them are
    have hreal : ∃ q r, u = real q ∧ w = real r := by
      obtain ⟨gap, _, hgap, -⟩ := Exact.div_eq_real.1 h
      cases op with
      | lt | le =>
        obtain ⟨q, r, hq, hr, -⟩ := Exact.sub_eq_real.1 hgap
        exact ⟨q, r, hq, hr⟩
      | gt | ge =>
        obtain ⟨r, q, hr, hq, -⟩ := Exact.sub_eq_real.1 hgap
        exact ⟨q, r, hq, hr⟩
      | eq =>
        cases u <;> cases w <;> first | exact ⟨_, _, rfl, rfl⟩ | cases hgap
    obtain ⟨q, r, rfl, rfl⟩ := hreal
    rw [residual_real] at h
    exact ⟨q, r, rfl, rfl, Exact.real.inj h⟩
  · rintro ⟨q, r, rfl, rfl, rfl⟩
    exact residual_real op q r

/-- The worse or the better of two residuals. -/
noncomputable def Connective.pick : Connective → ℝ → ℝ → ℝ
  | and => max
  | or => min

theorem Connective.choose_real (c : Connective) (q r : ℝ) :
    c.choose (real q) (real r) = real (c.pick q r) := by
  cases c with
  | and => exact Exact.max_real
  | or => exact Exact.min_real

theorem Exact.isUndefined_iff {u : Exact} : Scalar.isUndefined u = true ↔ u = .undefined := by
  constructor
  · intro hu
    by_contra hne
    rw [Scalar.isUndefined, Exact.eq_iff.2 ⟨rfl, hne⟩] at hu
    cases hu
  · rintro rfl
    exact Exact.isUndefined_undefined

namespace Connective

theorem isUndefined_unit (c : Connective) : Scalar.isUndefined (c.unit : Exact) = false := by
  rw [Bool.eq_false_iff, Ne, Exact.isUndefined_iff]
  cases c with
  | and | or => rintro ⟨⟩

variable {c : Connective} {u w : Exact}

/-- The worse or the better of two numbers is one of them. -/
theorem choose_cases (hu : Scalar.isUndefined u = false) (hw : Scalar.isUndefined w = false) :
    c.choose u w = u ∨ c.choose u w = w := by
  cases c with
  | and =>
    change Scalar.max u w = u ∨ Scalar.max u w = w
    unfold Scalar.max
    simp only [hu, hw, Bool.false_eq_true, if_false]
    split
    · exact .inl rfl
    · exact .inr rfl
  | or =>
    change Scalar.min u w = u ∨ Scalar.min u w = w
    unfold Scalar.min
    simp only [hu, hw, Bool.false_eq_true, if_false]
    split
    · exact .inl rfl
    · exact .inr rfl

/-- Nothing is better than where a conjunction starts, or worse than where a disjunction does. -/
theorem choose_unit (hu : Scalar.isUndefined u = false) : c.choose c.unit u = u := by
  have hunit := c.isUndefined_unit
  cases c with
  | and =>
    have hleast : ¬Exact.Lt u (.infinite true) := by cases u <;> simp [Exact.Lt]
    have hlt : Scalar.lt u (unit .and) = false := Bool.eq_false_iff.2 fun h => hleast (Exact.lt_iff.1 h)
    change Scalar.max (unit .and) u = u
    simp [Scalar.max, hunit, hu, hlt]
  | or =>
    have hgreatest : ¬Exact.Lt (.infinite false) u := by cases u <;> simp [Exact.Lt]
    have hlt : Scalar.lt (unit .or) u = false :=
      Bool.eq_false_iff.2 fun h => hgreatest (Exact.lt_iff.1 h)
    change Scalar.min (unit .or) u = u
    simp [Scalar.min, hunit, hu, hlt]

/-- The choice between defined numbers is defined. -/
theorem isUndefined_foldl {us : List Exact} (hu : Scalar.isUndefined u = false)
    (hus : ∀ w ∈ us, Scalar.isUndefined w = false) :
    Scalar.isUndefined (us.foldl c.choose u) = false := by
  induction us generalizing u with
  | nil => exact hu
  | cons w us ih =>
    rw [List.forall_mem_cons] at hus
    refine ih ?_ hus.2
    rcases choose_cases (c := c) hu hus.1 with h | h
    · rwa [h]
    · rw [h]
      exact hus.1

theorem foldl_choose_real (ρ : ℝ) (l : List ℝ) :
    (l.map real).foldl c.choose (real ρ) = real (l.foldl c.pick ρ) := by
  induction l generalizing ρ with
  | nil => rfl
  | cons σ l ih => rw [List.map_cons, List.foldl_cons, choose_real, ih, List.foldl_cons]

end Connective

/-- The residual of a constraint that joins something everywhere. -/
noncomputable def Judgement.residual : Judgement ℝ where
  compare := Comparison.excess
  join
    | _, [] => 0
    | c, ρ :: l => l.foldl c.pick ρ
  join_singleton _ _ := rfl

/-- The residual of a constraint. It is infinite if nothing is joined. -/
noncomputable def Judgement.extended : Judgement Exact where
  compare op q r := real (op.excess q r)
  join c us := if ∀ u ∈ us, Scalar.isUndefined u = false then us.foldl c.choose c.unit else .undefined
  join_singleton c u := by
    by_cases hu : Scalar.isUndefined u = false
    · rw [if_pos (by simpa using hu), List.foldl_cons, List.foldl_nil, Connective.choose_unit hu]
    · obtain rfl : u = .undefined := Exact.isUndefined_iff.1 (by simpa using hu)
      exact if_neg (by simp)

theorem Judgement.extended_join {c : Connective} {us : List Exact}
    (hus : ∀ u ∈ us, Scalar.isUndefined u = false) :
    extended.join c us = us.foldl c.choose c.unit := if_pos hus

namespace Judgement

variable {c : Connective} {l : List ℝ}

/-- Something is joined, so the choice ends with a real number. -/
theorem extended_join_real (hl : l ≠ []) :
    extended.join c (l.map real) = real (residual.join c l) := by
  have hdefined : ∀ u ∈ l.map real, Scalar.isUndefined u = false := by simp
  obtain ⟨ρ, l, rfl⟩ := List.exists_cons_of_ne_nil hl
  rw [extended_join hdefined, List.map_cons, List.foldl_cons,
    Connective.choose_unit Exact.isUndefined_real, Connective.foldl_choose_real]
  rfl

theorem foldl_max_nonpos {m : ℝ} : l.foldl max m ≤ 0 ↔ m ≤ 0 ∧ ∀ ρ ∈ l, ρ ≤ 0 := by
  induction l generalizing m with
  | nil => simp
  | cons ρ l ih => rw [List.foldl_cons, ih, max_le_iff, List.forall_mem_cons, and_assoc]

theorem foldl_min_nonpos {m : ℝ} : l.foldl min m ≤ 0 ↔ m ≤ 0 ∨ ∃ ρ ∈ l, ρ ≤ 0 := by
  induction l generalizing m with
  | nil => simp
  | cons ρ l ih => simp [ih, or_assoc]

/-- The worst residual is not positive if none is. -/
theorem residual_join_and (hl : l ≠ []) : residual.join .and l ≤ 0 ↔ ∀ ρ ∈ l, ρ ≤ 0 := by
  obtain ⟨ρ, l, rfl⟩ := List.exists_cons_of_ne_nil hl
  rw [List.forall_mem_cons]
  exact foldl_max_nonpos

/-- The best residual is not positive if one is not. -/
theorem residual_join_or (hl : l ≠ []) : residual.join .or l ≤ 0 ↔ ∃ ρ ∈ l, ρ ≤ 0 := by
  obtain ⟨ρ, l, rfl⟩ := List.exists_cons_of_ne_nil hl
  rw [List.exists_mem_cons_iff]
  exact foldl_min_nonpos

end Judgement

namespace Arena

variable {ops : ArithOp → Exact → Exact → Exact} {a : Arena Exact} {v : Valuation Exact} {e : ExprId}
  {u : Exact}

theorem Judges.isUndefined (h : a.Judges ops .extended v e u) : Scalar.isUndefined u = false := by
  induction h with
  | compare => exact Exact.isUndefined_real
  | join he f _ ih =>
    have hus : ∀ u ∈ List.map f _, Scalar.isUndefined u = false := List.forall_mem_map.2 ih
    rw [Judgement.extended_join hus]
    exact Connective.isUndefined_foldl (Connective.isUndefined_unit _) hus

/-- A constraint that joins something everywhere has a real residual. -/
theorem judges_extended_iff (he : a.Uses (.all Exact) e) :
    a.Judges ops .extended v e u ↔ ∃ ρ, u = real ρ ∧ a.Judges ops .residual v e ρ := by
  induction he generalizing u with
  | @node e n hitem hallows _ ih =>
    have hn := node_eq_of_getElem? hitem
    cases n with
    | compare op x y =>
      rw [judges_compare hn]
      constructor
      · rintro ⟨q, r, hq, hr, rfl⟩
        exact ⟨_, rfl, (judges_compare hn).2 ⟨q, r, hq, hr, rfl⟩⟩
      · rintro ⟨ρ, rfl, hρ⟩
        obtain ⟨q, r, hq, hr, rfl⟩ := (judges_compare hn).1 hρ
        exact ⟨q, r, hq, hr, rfl⟩
    | join c items =>
      have hjoin (f : ExprId → ℝ) : Judgement.extended.join c (items.map fun i => real (f i)) =
          real (Judgement.residual.join c (items.map f)) := by
        rw [← Judgement.extended_join_real (by simpa using hallows.2), List.map_map]
        rfl
      rw [judges_join hn]
      constructor
      · rintro ⟨f, hf, rfl⟩
        have hreal : ∀ i ∈ items, ∃ ρ, f i = real ρ ∧ a.Judges ops .residual v i ρ :=
          fun i hi => (ih i hi).1 (hf i hi)
        choose! g hg hjudges using hreal
        rw [List.map_congr_left hg, hjoin]
        exact ⟨_, rfl, .join hn g hjudges⟩
      · rintro ⟨ρ, rfl, hρ⟩
        obtain ⟨g, hg, rfl⟩ := (judges_join hn).1 hρ
        exact ⟨fun i => real (g i), fun i hi => (ih i hi).2 ⟨_, rfl, hg i hi⟩, hjoin g⟩
    | num | sym | neg | arith | call =>
      have hnone {Ω : Type} {J : Judgement Ω} {ω : Ω} : ¬a.Judges ops J v e ω :=
        not_judges (by simp [hn]) (by simp [hn])
      exact ⟨fun h => absurd h hnone, fun ⟨_, _, h⟩ => absurd h hnone⟩

end Arena

/-! ## Evaluations of residuals -/

/-- The results of the evaluation are those that satisfy `R`, undefined ones aside. -/
def Evaluation.Determines (a : Arena Exact) (v : Valuation Exact) (m : Evaluation Exact Exact)
    (R : Exact → Prop) : Prop :=
  ∀ table, ValueTable.Sound a v table → ∃ r table', m.run.run table = (r, table') ∧
    ValueTable.Sound a v table' ∧ ∀ u, R u ↔ r = .ok u ∧ Scalar.isUndefined u = false

namespace Evaluation

variable {a : Arena Exact} {v : Valuation Exact} {m : Evaluation Exact Exact} {R R' : Exact → Prop}

theorem Computes.determines {S : Exact → Prop} (hm : m.Computes a v S)
    (hR : ∀ u, R u ↔ S u ∧ Scalar.isUndefined u = false) : m.Determines a v R := by
  intro table h
  obtain ⟨r, table', hrun, hsound, hr⟩ := hm table h
  exact ⟨r, table', hrun, hsound, fun u => (hR u).trans (and_congr_left' (hr u).symm)⟩

theorem Determines.congr (hm : m.Determines a v R) (hR : ∀ u, R u ↔ R' u) : m.Determines a v R' := by
  intro table h
  obtain ⟨r, table', hrun, hsound, hr⟩ := hm table h
  exact ⟨r, table', hrun, hsound, fun u => (hR u).symm.trans (hr u)⟩

/-- An undefined result is the last one; any other is unique. -/
theorem Determines.unlessUndefined {next : Exact → Evaluation Exact Exact} {w : Exact}
    (hm : m.Determines a v R) (hw : ∀ u, R u → u = w)
    (hnext : Scalar.isUndefined w = false → (next w).Determines a v R') :
    (m >>= fun s => if Scalar.isUndefined s then pure s else next s).Determines a v fun u =>
      R w ∧ R' u := by
  intro table htable
  obtain ⟨r, table₁, hrun, hsound, hr⟩ := hm table htable
  have hbind : (m >>= fun s => if Scalar.isUndefined s then pure s else next s).run.run table =
      (ExceptT.bindCont (fun s => if Scalar.isUndefined s then pure s else next s)
        (m.run.run table).1).run (m.run.run table).2 := rfl
  rw [hrun] at hbind
  cases r with
  | error error =>
    refine ⟨.error error, table₁, hbind, hsound, fun u => ⟨?_, by simp⟩⟩
    rintro ⟨hw, -⟩
    cases ((hr w).1 hw).1
  | ok s =>
    by_cases hs : Scalar.isUndefined s = true
    · have hnot : Scalar.isUndefined s ≠ false := by simp [hs]
      refine ⟨.ok s, table₁, ?_, hsound, fun u => ⟨?_, ?_⟩⟩
      · rw [hbind]
        simp only [ExceptT.bindCont, hs, if_true]
        rfl
      · rintro ⟨hw, -⟩
        obtain ⟨⟨⟩, hdefined⟩ := (hr w).1 hw
        exact absurd hdefined hnot
      · rintro ⟨⟨⟩, hdefined⟩
        exact absurd hdefined hnot
    · have hdefined : Scalar.isUndefined s = false := Bool.eq_false_iff.2 hs
      have hs : R s := (hr s).2 ⟨rfl, hdefined⟩
      obtain rfl := hw s hs
      obtain ⟨r, table₂, hrun', hsound', hr'⟩ := hnext hdefined table₁ hsound
      refine ⟨r, table₂, ?_, hsound', fun u => (and_iff_right hs).trans (hr' u)⟩
      rw [hbind]
      simp only [ExceptT.bindCont, hdefined]
      exact hrun'

end Evaluation

namespace Arena

open Evaluation

variable {a : Arena Exact} {v : Valuation Exact} {e : ExprId} {u : Exact} {c : Connective}
  {residual : ExprId → Evaluation Exact Exact} {items : List ExprId}

/-- Residuals that are unique are put together one after the other. -/
theorem joinResiduals_determines {R : ExprId → Exact → Prop} {f : ExprId → Exact}
    (hf : ∀ i ∈ items, ∀ u, R i u → f i = u) (hitems : ∀ i ∈ items, (residual i).Determines a v (R i))
    {m : Exact} (hm : Scalar.isUndefined m = false) :
    (joinResiduals c residual m items).Determines a v fun u =>
      (∀ i ∈ items, R i (f i)) ∧ (items.map f).foldl c.choose m = u := by
  induction items generalizing m with
  | nil =>
    refine Computes.determines .pure fun u => ?_
    constructor
    · rintro ⟨-, rfl⟩
      exact ⟨rfl, hm⟩
    · rintro ⟨rfl, -⟩
      exact ⟨by simp, rfl⟩
  | cons i items ih =>
    rw [List.forall_mem_cons] at hf hitems
    have hchoice (hi : Scalar.isUndefined (f i) = false) :
        Scalar.isUndefined (c.choose m (f i)) = false := by
      rcases Connective.choose_cases (c := c) hm hi with h | h
      · rwa [h]
      · rwa [h]
    have hcons : (residual i >>= fun s => if Scalar.isUndefined s then pure s
        else joinResiduals c residual (c.choose m s) items).Determines a v _ :=
      hitems.1.unlessUndefined (fun u hu => (hf.1 u hu).symm) fun hi => ih hf.2 hitems.2 (hchoice hi)
    refine hcons.congr fun u => ?_
    rw [List.forall_mem_cons, List.map_cons, List.foldl_cons, and_assoc]

/-- A comparison is evaluated from the values of its sides. -/
theorem compare_determines {op : Comparison} {x y : ExprId} (ha : a.WellFormed)
    (hnode : a.node e = .compare op x y) : Evaluation.Determines a v (do
      let u ← a.evalWith v x
      let w ← a.evalWith v y
      return op.residual u w) (a.Judges ArithOp.apply .extended v e) := by
  refine Computes.determines ((evalWith_computes ha x).bind fun u _ =>
    (evalWith_computes ha y).bind fun w _ => .pure) fun ρ => ?_
  rw [judges_compare hnode]
  constructor
  · rintro ⟨q, r, hq, hr, rfl⟩
    exact ⟨⟨real q, hq, real r, hr, op.residual_real q r⟩, Exact.isUndefined_real⟩
  · rintro ⟨⟨u, hu, w, hw, rfl⟩, hdefined⟩
    rcases Exact.div_cases _ _ with hundefined | ⟨ρ, hρ⟩
    · have hresidual : op.residual u w = .undefined := hundefined
      rw [hresidual, Exact.isUndefined_undefined] at hdefined
      cases hdefined
    · have hresidual : op.residual u w = real ρ := hρ
      obtain ⟨q, r, rfl, rfl, rfl⟩ := Comparison.residual_eq_real.1 hresidual
      exact ⟨q, r, hu, hw, hresidual.symm⟩

/-- Joined constraints are evaluated from their residuals. -/
theorem join_determines (hnode : a.node e = .join c items)
    (hitems : ∀ i ∈ items,
      (residual i).Determines a v (a.Judges ArithOp.apply .extended v i)) :
    (joinResiduals c residual c.unit items).Determines a v
      (a.Judges ArithOp.apply .extended v e) := by
  -- each part has one residual at most, so the residuals are those of a function
  have : Nonempty Exact := ⟨.undefined⟩
  let f : ExprId → Exact := fun i => Classical.epsilon (a.Judges ArithOp.apply .extended v i)
  have hf : ∀ i ∈ items, ∀ u, a.Judges ArithOp.apply .extended v i u → f i = u := fun i _ u h =>
    (Classical.epsilon_spec ⟨u, h⟩).unique h
  refine (joinResiduals_determines hf hitems c.isUndefined_unit).congr fun u => ?_
  rw [judges_join hnode]
  constructor
  · rintro ⟨hall, rfl⟩
    exact ⟨f, hall, Judgement.extended_join
      (List.forall_mem_map.2 fun i hi => (hall i hi).isUndefined)⟩
  · rintro ⟨g, hg, rfl⟩
    have hsame : ∀ i ∈ items, f i = g i := fun i hi => hf i hi _ (hg i hi)
    refine ⟨fun i hi => hsame i hi ▸ hg i hi, ?_⟩
    rw [List.map_congr_left hsame, Judgement.extended_join
      (List.forall_mem_map.2 fun i hi => (hg i hi).isUndefined)]

theorem residualBelow_determines (ha : a.WellFormed) (n : Nat) (hn : e < n) :
    (a.residualBelow v n e).Determines a v (a.Judges ArithOp.apply .extended v e) := by
  induction n generalizing e with
  | zero => exact absurd hn (Nat.not_lt_zero e)
  | succ n ih =>
    unfold residualBelow
    cases hnode : a.node e with
    | compare op x y => exact compare_determines ha hnode
    | join c items =>
      refine join_determines hnode fun i hi => ?_
      have hi : i ∈ (a.node e).operands := by simpa [hnode, Node.operands] using hi
      exact ih (Nat.lt_of_lt_of_le (ha.lt_of_mem_operands hi) (Nat.le_of_lt_succ hn))
    | num | sym | neg | arith | call =>
      -- there is no residual
      have hnone (u : Exact) : ¬a.Judges ArithOp.apply .extended v e u :=
        not_judges (by simp [hnode]) (by simp [hnode])
      exact Computes.determines .throw fun u =>
        ⟨fun h => absurd h (hnone u), fun h => h.1.elim⟩

/-- The residual that is evaluated, unless it is undefined, is put together from the comparisons. -/
theorem residual_eq_ok_iff (ha : a.WellFormed) :
    a.Judges ArithOp.apply .extended v e u ↔
      a.residual v e = .ok u ∧ Scalar.isUndefined u = false := by
  obtain ⟨r, table, hrun, -, hr⟩ :=
    residualBelow_determines ha (e + 1) (Nat.lt_succ_self e) {} ValueTable.sound_empty
  rw [hr, residual, hrun]

/-- The residual that is evaluated is the one that is put together from the comparisons. -/
theorem residual_eq_ok (ha : a.WellFormed) (he : a.Uses (.all Exact) e) {ρ : ℝ} :
    a.residual v e = .ok (real ρ) ↔ a.Judges ArithOp.apply .residual v e ρ := by
  constructor
  · intro h
    obtain ⟨ρ', hρ', hjudges⟩ :=
      (judges_extended_iff he).1 ((residual_eq_ok_iff ha).2 ⟨h, Exact.isUndefined_real⟩)
    rwa [Exact.real.inj hρ']
  · exact fun h => ((residual_eq_ok_iff ha).1 ((judges_extended_iff he).2 ⟨ρ, rfl, h⟩)).1

end Arena

/-! ## Constraints that hold -/

variable {a : Arena Exact} {v : Valuation Exact} {e : ExprId}

namespace Arena

/-- What insists on real numbers gives the same as what does not. -/
theorem Value.of_strictly {u : Exact} (h : a.Value ArithOp.strictly v e u) :
    ∃ u', a.Value ArithOp.apply v e u' ∧ u.Refines u' := by
  induction h with
  | num he => exact ⟨_, .num he, .rfl⟩
  | sym he hs => exact ⟨_, .sym he hs, .rfl⟩
  | neg he _ ih =>
    obtain ⟨u', hu', hrefines⟩ := ih
    exact ⟨_, .neg he hu', hrefines.neg⟩
  | arith he _ _ ihx ihy =>
    obtain ⟨u', hu', hrefines⟩ := ihx
    obtain ⟨w', hw', hrefines'⟩ := ihy
    refine ⟨_, .arith he hu' hw', fun r hr => ?_⟩
    obtain ⟨q, q', hq, hq', hr⟩ := ArithOp.strictly_eq_real.1 hr
    rwa [hrefines q hq, hrefines' q' hq']
  | call he _ ih =>
    obtain ⟨u', hu', hrefines⟩ := ih
    exact ⟨_, .call he hu', hrefines.value⟩

theorem Denotes.value {r : ℝ} (h : a.Denotes v e r) : a.Value ArithOp.apply v e (real r) := by
  obtain ⟨u', hu', hrefines⟩ := (denotes_iff_value.1 h).of_strictly
  rwa [hrefines r rfl] at hu'

/-- A constraint that holds has a residual that is not positive. -/
theorem HoldsIf.residual_nonpos (h : a.HoldsIf (Comparison.HoldsBy 0) v e) :
    ∃ ρ ≤ 0, a.Judges ArithOp.apply .residual v e ρ := by
  have hjoin : ∀ c l l', List.Forall₂ (fun (p : Prop) (ρ : ℝ) => p → ρ ≤ 0) l l' →
      (Judgement.truth (Comparison.HoldsBy 0)).join c l → Judgement.residual.join c l' ≤ 0 := by
    intro c l l' hl hholds
    by_cases hne : l' = []
    · rw [hne]
      exact le_refl 0
    cases c with
    | and =>
      refine (Judgement.residual_join_and hne).2 fun ρ hρ => ?_
      obtain ⟨p, hp, himp⟩ := exists_of_forall₂ hl hρ
      exact himp (hholds p hp)
    | or =>
      obtain ⟨p, hp, htrue⟩ := hholds
      obtain ⟨ρ, hρ, himp⟩ := exists_of_forall₂ hl.flip hp
      exact (Judgement.residual_join_or hne).2 ⟨ρ, hρ, himp htrue⟩
  have hvalue : ∀ x q, a.Value ArithOp.strictly v x (real q) →
      a.Value ArithOp.apply v x (real q) := fun x q hq => (denotes_iff_value.2 hq).value
  have hcompare : ∀ (op : Comparison) (q r : ℝ), op.HoldsBy 0 q r → op.excess q r ≤ 0 :=
    fun _ _ _ hop => Comparison.excess_nonpos_iff.2 (Comparison.holdsBy_zero.1 hop)
  obtain ⟨p, hp, htrue⟩ := h
  obtain ⟨ρ, hρ, himp⟩ := hp.relates hvalue hcompare hjoin
  exact ⟨ρ, himp htrue, hρ⟩

end Arena

/-- A residual at a time of a stage is a real number. -/
theorem Stage.residualAt_eq_ok {p : Problem Exact} {s : Stage Exact} {offset u : Exact} :
    s.residualAt p e offset = .ok u ↔
      ∃ ρ, u = real ρ ∧ p.arena.residual (s.valuation p offset) e = .ok (real ρ) := by
  rw [residualAt_eq_ok_iff]
  constructor
  · rintro ⟨hu, hfinite⟩
    obtain ⟨ρ, rfl⟩ := Exact.isFinite_iff.1 hfinite
    exact ⟨ρ, rfl, hu⟩
  · rintro ⟨ρ, rfl, hρ⟩
    exact ⟨hρ, Exact.isFinite_real⟩

end HybridPlan
