import HybridPlan.Proofs.Except
import HybridPlan.Proofs.Expr.Denotation

set_option autoImplicit false

/-! # Constraints

A constraint compares real numbers, and joins comparisons. What is said about it is put together in
the same way from what is said about two numbers, be it whether it holds or by how much it fails; such
a judgement is a parameter of all that is shown here. -/

namespace HybridPlan

open Exact (real)

/-! ## Comparisons -/

namespace Comparison

/-- The comparison of real numbers. -/
def Holds : Comparison → ℝ → ℝ → Prop
  | lt, x, y => x < y
  | le, x, y => x ≤ y
  | gt, x, y => y < x
  | ge, x, y => y ≤ x
  | eq, x, y => x = y

/-- The comparison holds, by the tolerance if it is strict. -/
def HoldsBy (δ : ℝ) : Comparison → ℝ → ℝ → Prop
  | lt, x, y => x + δ ≤ y
  | le, x, y => x ≤ y
  | gt, x, y => y + δ ≤ x
  | ge, x, y => y ≤ x
  | eq, x, y => x = y

/-- The comparison that holds between equal numbers, too. -/
def weaken : Comparison → Comparison
  | lt | le => le
  | gt | ge => ge
  | eq => eq

variable {op : Comparison} {δ δ' x y : ℝ}

theorem holdsBy_zero : op.HoldsBy 0 x y ↔ op.weaken.Holds x y := by
  cases op with
  | lt => exact iff_of_eq (congrArg (· ≤ y) (add_zero x))
  | gt => exact iff_of_eq (congrArg (· ≤ x) (add_zero y))
  | le | ge | eq => exact Iff.rfl

theorem HoldsBy.holds (hδ : 0 < δ) (h : op.HoldsBy δ x y) : op.Holds x y := by
  cases op with
  | lt => exact lt_of_lt_of_le (lt_add_of_pos_right x hδ) h
  | gt => exact lt_of_lt_of_le (lt_add_of_pos_right y hδ) h
  | le | ge | eq => exact h

theorem HoldsBy.mono (hδ : δ' ≤ δ) (h : op.HoldsBy δ x y) : op.HoldsBy δ' x y := by
  cases op with
  | lt => exact (add_le_add_right hδ x).trans h
  | gt => exact (add_le_add_right hδ y).trans h
  | le | ge | eq => exact h

end Comparison

namespace Arena

/-- The expression compares two real numbers. -/
def Compares (a : Arena Exact) (v : Valuation Exact) (e : ExprId) (op : Comparison) (q r : ℝ) :
    Prop :=
  ∃ x y, a.node e = .compare op x y ∧ a.Denotes v x q ∧ a.Denotes v y r

/-- What is compared depends on the values of the symbols that the constraint uses. -/
theorem Compares.congr {a : Arena Exact} {v v' : Valuation Exact} {V : Vocabulary Exact}
    {e : ExprId} {op : Comparison} {q r : ℝ} (h : a.Compares v e op q r) (he : a.Uses V e)
    (hv : ∀ s u, V.symbol s → v s = some u → v' s = some u) : a.Compares v' e op q r := by
  obtain ⟨x, y, hnode, hx, hy⟩ := h
  exact ⟨x, y, hnode, hx.congr (he.operand (by simp [hnode, Node.operands])) hv,
    hy.congr (he.operand (by simp [hnode, Node.operands])) hv⟩

end Arena

/-! ## Judgements -/

/-- How comparisons of real numbers are judged, and joined constraints by what is said about their
parts. One part alone is judged as it is. -/
structure Judgement (Ω : Type) where
  compare : Comparison → ℝ → ℝ → Ω
  join : Connective → List Ω → Ω
  join_singleton : ∀ c ω, join c [ω] = ω

namespace Arena

/-- The judgement of a constraint. -/
inductive Judges {Ω : Type} (ops : ArithOp → Exact → Exact → Exact) (J : Judgement Ω)
    (a : Arena Exact) (v : Valuation Exact) : ExprId → Ω → Prop
  | compare {op : Comparison} {e x y : ExprId} {q r : ℝ} (he : a.node e = .compare op x y)
      (hx : a.Value ops v x (real q)) (hy : a.Value ops v y (real r)) :
      Judges ops J a v e (J.compare op q r)
  | join {c : Connective} {e : ExprId} {items : List ExprId} (he : a.node e = .join c items)
      (ω : ExprId → Ω) (hi : ∀ i ∈ items, Judges ops J a v i (ω i)) :
      Judges ops J a v e (J.join c (items.map ω))

variable {Ω Ω' : Type} {ops ops' : ArithOp → Exact → Exact → Exact} {J : Judgement Ω}
  {J' : Judgement Ω'} {a b : Arena Exact} {v v' : Valuation Exact} {e : ExprId} {ω ω' : Ω} {n : Nat}

/-- Only comparisons and joined constraints are judged. -/
theorem Judges.node (h : a.Judges ops J v e ω) :
    (∃ op x y, a.node e = .compare op x y) ∨ ∃ c items, a.node e = .join c items := by
  cases h with
  | compare he => exact .inl ⟨_, _, _, he⟩
  | join he => exact .inr ⟨_, _, he⟩

theorem not_judges (hcompare : ∀ op x y, a.node e ≠ .compare op x y)
    (hjoin : ∀ c items, a.node e ≠ .join c items) : ¬a.Judges ops J v e ω := by
  intro h
  rcases h.node with ⟨op, x, y, hnode⟩ | ⟨c, items, hnode⟩
  · exact hcompare op x y hnode
  · exact hjoin c items hnode

theorem judges_compare {op : Comparison} {x y : ExprId} (he : a.node e = .compare op x y) :
    a.Judges ops J v e ω ↔ ∃ q r, a.Value ops v x (real q) ∧ a.Value ops v y (real r) ∧
      J.compare op q r = ω := by
  constructor
  · intro h
    cases h with
    | compare he' hx hy =>
      rw [he] at he'
      cases he'
      exact ⟨_, _, hx, hy, rfl⟩
    | join he' => rw [he] at he'; cases he'
  · rintro ⟨q, r, hx, hy, rfl⟩
    exact .compare he hx hy

theorem judges_join {c : Connective} {items : List ExprId} (he : a.node e = .join c items) :
    a.Judges ops J v e ω ↔
      ∃ f : ExprId → Ω, (∀ i ∈ items, a.Judges ops J v i (f i)) ∧ J.join c (items.map f) = ω := by
  constructor
  · intro h
    cases h with
    | compare he' => rw [he] at he'; cases he'
    | join he' f hi =>
      rw [he] at he'
      cases he'
      exact ⟨f, hi, rfl⟩
  · rintro ⟨f, hi, rfl⟩
    exact .join he f hi

/-- A constraint is judged in one way at most. -/
theorem Judges.unique (h : a.Judges ops J v e ω) (h' : a.Judges ops J v e ω') : ω = ω' := by
  induction h generalizing ω' with
  | compare he hx hy =>
    obtain ⟨q, r, hx', hy', rfl⟩ := (judges_compare he).1 h'
    rw [Exact.real.inj (hx.unique hx'), Exact.real.inj (hy.unique hy')]
  | join he f _ ih =>
    obtain ⟨f', hf', rfl⟩ := (judges_join he).1 h'
    rw [List.map_congr_left fun i hi => ih i hi (hf' i hi)]

/-- A judgement depends on the values of the symbols that the constraint uses. -/
theorem Judges.congr {V : Vocabulary Exact} (h : a.Judges ops J v e ω) (he : a.Uses V e)
    (hv : ∀ s u, V.symbol s → v s = some u → v' s = some u) : a.Judges ops J v' e ω := by
  induction h with
  | compare hnode hx hy =>
    exact .compare hnode (hx.congr (he.operand (by simp [hnode, Node.operands])) hv)
      (hy.congr (he.operand (by simp [hnode, Node.operands])) hv)
  | join hnode f _ ih =>
    exact .join hnode f fun i hi => ih i hi (he.operand (by rw [hnode]; exact hi))

theorem AgreeBelow.judges (h : AgreeBelow n a b) (he : e < n) (hω : a.Judges ops J v e ω) :
    b.Judges ops J v e ω := by
  induction hω with
  | compare hnode hx hy =>
    exact .compare ((h _ he).1.trans hnode)
      (h.value ((h _ he).2 _ (by simp [hnode, Node.operands])) hx)
      (h.value ((h _ he).2 _ (by simp [hnode, Node.operands])) hy)
  | join hnode f _ ih =>
    have hlt := (h _ he).2
    rw [hnode] at hlt
    exact .join ((h _ he).1.trans hnode) f fun i hi => ih i hi (hlt i hi)

/-- Two judgements that are related on comparisons, and are put together alike, are related. -/
theorem Judges.relates [Nonempty Ω'] {R : Ω → Ω' → Prop}
    (hvalue : ∀ x q, a.Value ops v x (real q) → a.Value ops' v x (real q))
    (hcompare : ∀ op q r, R (J.compare op q r) (J'.compare op q r))
    (hjoin : ∀ c l l', List.Forall₂ R l l' → R (J.join c l) (J'.join c l'))
    (h : a.Judges ops J v e ω) : ∃ ω', a.Judges ops' J' v e ω' ∧ R ω ω' := by
  induction h with
  | compare he hx hy => exact ⟨_, .compare he (hvalue _ _ hx) (hvalue _ _ hy), hcompare _ _ _⟩
  | join he f _ ih =>
    choose! f' hf' hR using ih
    refine ⟨_, .join he f' hf', hjoin _ _ _ ?_⟩
    rw [List.forall₂_map_left_iff, List.forall₂_map_right_iff, List.forall₂_same]
    exact hR

end Arena

/-! ## Truth -/

/-- Whether a constraint holds, given when comparisons do. -/
def Judgement.truth (H : Comparison → ℝ → ℝ → Prop) : Judgement Prop where
  compare := H
  join
    | .and, l => ∀ p ∈ l, p
    | .or, l => ∃ p ∈ l, p
  join_singleton c p := by
    cases c with
    | and => exact propext List.forall_mem_singleton
    | or =>
      refine propext ⟨?_, fun h => ⟨p, List.mem_cons_self, h⟩⟩
      rintro ⟨q, hq, h⟩
      rwa [← List.mem_singleton.1 hq]

namespace Arena

/-- The constraint holds if comparisons are read as `H`: a conjunction if all its parts hold, a
disjunction if one of its parts holds. All parts must compare real numbers. -/
def HoldsIf (H : Comparison → ℝ → ℝ → Prop) (a : Arena Exact) (v : Valuation Exact) (e : ExprId) :
    Prop :=
  ∃ p, a.Judges ArithOp.strictly (.truth H) v e p ∧ p

/-- The constraint holds. -/
def Holds (a : Arena Exact) (v : Valuation Exact) (e : ExprId) : Prop :=
  a.HoldsIf Comparison.Holds v e

/-- The constraint holds, by the tolerance where comparisons are strict. -/
abbrev Respects (δ : ℝ) (a : Arena Exact) (v : Valuation Exact) (e : ExprId) : Prop :=
  a.HoldsIf (Comparison.HoldsBy δ) v e

variable {H H' : Comparison → ℝ → ℝ → Prop} {a b : Arena Exact} {v v' : Valuation Exact}
  {e : ExprId} {op : Comparison} {q r : ℝ} {items : List ExprId}

theorem Compares.judges (h : a.Compares v e op q r) :
    a.Judges ArithOp.strictly (.truth H) v e (H op q r) := by
  obtain ⟨x, y, he, hx, hy⟩ := h
  exact .compare he (denotes_iff_value.1 hx) (denotes_iff_value.1 hy)

namespace HoldsIf

theorem compare (h : a.Compares v e op q r) (hH : H op q r) : a.HoldsIf H v e := ⟨_, h.judges, hH⟩

theorem and (he : a.node e = .join .and items) (h : ∀ i ∈ items, a.HoldsIf H v i) :
    a.HoldsIf H v e := by
  choose! p hp htrue using h
  refine ⟨_, .join he p hp, fun ω hω => ?_⟩
  obtain ⟨i, hi, rfl⟩ := List.mem_map.1 hω
  exact htrue i hi

theorem or (he : a.node e = .join .or items) (hitems : ∀ i ∈ items, ∃ op q r, a.Compares v i op q r)
    {i : ExprId} (hi : i ∈ items) (h : a.HoldsIf H v i) : a.HoldsIf H v e := by
  have hjudged : ∀ i ∈ items, ∃ p, a.Judges ArithOp.strictly (.truth H) v i p := fun i hi => by
    obtain ⟨op, q, r, hcompares⟩ := hitems i hi
    exact ⟨_, hcompares.judges⟩
  choose! f hf using hjudged
  obtain ⟨p, hp, htrue⟩ := h
  refine ⟨_, .join he f hf, f i, List.mem_map_of_mem hi, ?_⟩
  rwa [← hp.unique (hf i hi)]

/-- Whether a constraint holds depends on the values of the symbols that it uses. -/
theorem congr {V : Vocabulary Exact} (h : a.HoldsIf H v e) (he : a.Uses V e)
    (hv : ∀ s u, V.symbol s → v s = some u → v' s = some u) : a.HoldsIf H v' e := by
  obtain ⟨p, hp, htrue⟩ := h
  exact ⟨p, hp.congr he hv, htrue⟩

theorem imp (hH : ∀ op q r, H op q r → H' op q r) (h : a.HoldsIf H v e) : a.HoldsIf H' v e := by
  have hjoin : ∀ c l l', List.Forall₂ (fun p p' : Prop => p → p') l l' →
      (Judgement.truth H).join c l → (Judgement.truth H').join c l' := by
    intro c l l' hl
    cases c with
    | and =>
      intro hall p' hp'
      obtain ⟨p, hp, himp⟩ := exists_of_forall₂ hl hp'
      exact himp (hall p hp)
    | or =>
      rintro ⟨p, hp, htrue⟩
      obtain ⟨p', hp', himp⟩ := exists_of_forall₂ hl.flip hp
      exact ⟨p', hp', himp htrue⟩
  obtain ⟨p, hp, htrue⟩ := h
  obtain ⟨p', hp', himp⟩ := hp.relates (fun _ _ hx => hx) hH hjoin
  exact ⟨p', hp', himp htrue⟩

end HoldsIf

variable {δ δ' : ℝ}

theorem Respects.holds (hδ : 0 < δ) (h : a.Respects δ v e) : a.Holds v e :=
  h.imp fun _ _ _ hop => hop.holds hδ

theorem Respects.mono (hδ : δ' ≤ δ) (h : a.Respects δ v e) : a.Respects δ' v e :=
  h.imp fun _ _ _ hop => hop.mono hδ

end Arena

end HybridPlan
