import HybridPlan.Simulation
import HybridPlan.Proofs.Except
import Mathlib.Data.List.Basic
import Mathlib.Data.List.ProdSigma
import Mathlib.Data.List.TakeWhile

set_option autoImplicit false

/-! # What a simulation finds

A stage that takes time is checked at its samples, for each constraint. What is reported is determined
by the residuals there: nothing if one of them does not exist, or if none of them is too large, and
otherwise the first of those that are too large, with the run of samples that it begins. -/

namespace HybridPlan

/-! ## Runs in a list -/

section

variable {ι κ : Type}

/-- The first run of items that pass a test. -/
theorem exists_first_run (test : ι → Bool) {l : List ι} (h : ∃ i ∈ l, test i = true) :
    ∃ before first during after, l = before ++ first :: (during ++ after) ∧
      (∀ i ∈ before, test i = false) ∧ (∀ i ∈ first :: during, test i = true) ∧
      ∀ i ∈ after.head?, test i = false := by
  induction l with
  | nil => simp at h
  | cons i l ih =>
    by_cases hi : test i = true
    · -- the run begins here, and ends with the items that pass the test
      refine ⟨[], i, l.takeWhile test, l.dropWhile test, ?_, by simp, ?_, ?_⟩
      · rw [List.nil_append, List.takeWhile_append_dropWhile]
      · rw [List.forall_mem_cons]
        exact ⟨hi, fun j hj => List.mem_takeWhile_imp hj⟩
      · intro j hj
        have hhead := List.head?_dropWhile_not test l
        rw [Option.mem_def.1 hj] at hhead
        exact hhead
    · rw [List.exists_mem_cons_iff] at h
      obtain ⟨before, first, during, after, rfl, hbefore, hduring, hafter⟩ := ih (h.resolve_left hi)
      refine ⟨i :: before, first, during, after, rfl, ?_, hduring, hafter⟩
      rw [List.forall_mem_cons]
      exact ⟨Bool.eq_false_iff.2 hi, hbefore⟩

/-- If a function gives something at the items that satisfy `P`, and nothing at the others, what it
gives belongs to these items, one by one. -/
theorem forall₂_filter_filterMap {R : ι → κ → Prop} {P : ι → Prop} [DecidablePred P] {f : ι → Option κ}
    {l : List ι} (h : ∀ i ∈ l, (P i ∧ ∃ k, f i = some k ∧ R i k) ∨ ¬P i ∧ f i = none) :
    List.Forall₂ R (l.filter P) (l.filterMap f) := by
  induction l with
  | nil => exact .nil
  | cons i l ih =>
    rw [List.forall_mem_cons] at h
    rcases h.1 with ⟨hP, k, hk, hR⟩ | ⟨hP, hnone⟩
    · rw [List.filter_cons_of_pos (by simpa using hP), List.filterMap_cons_some hk]
      exact .cons hR (ih h.2)
    · rw [List.filter_cons_of_neg (by simpa using hP), List.filterMap_cons_none hnone]
      exact ih h.2

end

section

variable {α : Type} [Scalar α] {p : Problem α} {params : SimulationParams α} {s : Stage α}
  {plan : Plan α} {samples : List α} {i : Nat} {e : ExprId} {v : Violation α}

/-! ## Residuals at samples -/

/-- At a time of the stage the constraint has a residual, which is a finite number. -/
def Stage.HasResidual (p : Problem α) (s : Stage α) (e : ExprId) (offset r : α) : Prop :=
  p.arena.residual (s.valuation p offset) e = .ok r ∧ Scalar.isFinite r = true

/-- At a time of the stage the constraint has a residual, which is too large or not. -/
def Stage.Decides (p : Problem α) (params : SimulationParams α) (s : Stage α) (e : ExprId)
    (offset : α) (violated : Bool) : Prop :=
  ∃ r, s.HasResidual p e offset r ∧ Stage.exceeds params r = violated

theorem Stage.residualAt_eq_ok_iff {offset r : α} :
    s.residualAt p e offset = .ok r ↔ s.HasResidual p e offset r := by
  unfold residualAt HasResidual
  cases p.arena.residual (s.valuation p offset) e with
  | error error => simp
  | ok w =>
    by_cases hw : Scalar.isFinite w = true
    · simp only [hw, if_true, Except.ok.injEq]
      constructor
      · rintro rfl
        exact ⟨rfl, hw⟩
      · exact And.left
    · simp only [hw, Except.ok.injEq]
      constructor
      · rintro ⟨⟩
      · rintro ⟨rfl, hr⟩
        exact absurd hr hw

theorem Stage.residualsAt_eq_ok {residuals : List (α × α)}
    (h : s.residualsAt p e samples = .ok residuals) :
    residuals.map (·.1) = samples ∧ ∀ x ∈ residuals, s.residualAt p e x.1 = .ok x.2 := by
  have hsampled : List.Forall₂ (fun o x => o = x.1 ∧ s.residualAt p e x.1 = .ok x.2) samples
      residuals := by
    refine (Except.mapM_eq_ok.1 h).imp fun o x hx => ?_
    split at hx
    · next r hr =>
      cases hx
      exact ⟨rfl, hr⟩
    · cases hx
  constructor
  · have hoffsets := map_eq_of_forall₂ (f := id) hsampled fun o _ x _ hx => hx.1
    rw [← hoffsets, List.map_id]
  · intro x hx
    obtain ⟨o, -, -, hr⟩ := exists_of_forall₂ hsampled hx
    exact hr

theorem Stage.residualsAt_of_forall {residual : α → α}
    (h : ∀ o ∈ samples, s.residualAt p e o = .ok (residual o)) :
    s.residualsAt p e samples = .ok (samples.map fun o => (o, residual o)) := by
  refine Except.mapM_eq_ok.2 (List.forall₂_map_right_iff.2 (List.forall₂_same.2 fun o ho => ?_))
  rw [h o ho]

/-! ## Violations -/

/-- The stage takes time, the constraint has a residual at all of its samples, and one of these is too
large. -/
structure Stage.Breaks (p : Problem α) (params : SimulationParams α) (s : Stage α) (e : ExprId) :
    Prop where
  positive : Scalar.lt Scalar.zero s.dt = true
  decided : ∀ o ∈ sampleOffsets params.epsilon s.dt, ∃ r, s.HasResidual p e o r
  violated : ∃ o ∈ sampleOffsets params.epsilon s.dt, s.Decides p params e o true

/-- The run of violated samples from `first` to `last` is the first one of all: up to the sample
`start`, or to zero if there is none before, no sample is violated, and neither is the next one behind
the run. -/
def Stage.FirstRun (p : Problem α) (params : SimulationParams α) (s : Stage α) (e : ExprId)
    (samples : List α) (start first last : α) : Prop :=
  ∃ before during after, samples = before ++ first :: (during ++ after) ∧
    start = before.getLast?.getD Scalar.zero ∧ last = during.getLast?.getD first ∧
    (∀ o ∈ before, s.Decides p params e o false) ∧
    (∀ o ∈ first :: during, s.Decides p params e o true) ∧
    ∀ o ∈ after.head?, s.Decides p params e o false

/-- The violation tells how the constraint is broken. -/
structure Stage.Describes (p : Problem α) (params : SimulationParams α) (s : Stage α) (i : Nat)
    (e : ExprId) (v : Violation α) : Prop where
  stage : v.stage = s.index
  constraint : v.constraint = i
  duration : v.duration = s.dt
  residual : s.HasResidual p e v.offset v.residual
  run : s.FirstRun p params e (sampleOffsets params.epsilon s.dt) v.intervalStart v.offset
    v.intervalEnd
  crossing : v.crossing = (bisect (s.residualAt p e) (Stage.exceeds params) params.bisectionSteps
    v.intervalStart v.offset).2
  state : v.state = s.stateAt p v.offset

theorem Stage.exists_hasResidual_iff {offset : α} :
    (∃ r, s.HasResidual p e offset r) ↔ (s.residualAt p e offset).toOption.isSome = true := by
  simp only [← residualAt_eq_ok_iff]
  cases s.residualAt p e offset with
  | ok r => simp [Except.toOption]
  | error reason => simp [Except.toOption]

theorem Stage.decides_iff {offset : α} {violated : Bool} :
    s.Decides p params e offset violated ↔
      (s.residualAt p e offset).toOption.map (Stage.exceeds params) = some violated := by
  unfold Decides
  simp only [← residualAt_eq_ok_iff]
  cases s.residualAt p e offset with
  | ok r => simp [Except.toOption]
  | error reason => simp [Except.toOption]

theorem Stage.breaks_iff : s.Breaks p params e ↔ Scalar.lt Scalar.zero s.dt = true ∧
    (∀ o ∈ sampleOffsets params.epsilon s.dt, (s.residualAt p e o).toOption.isSome = true) ∧
    ∃ o ∈ sampleOffsets params.epsilon s.dt,
      (s.residualAt p e o).toOption.map (Stage.exceeds params) = some true := by
  simp only [← exists_hasResidual_iff, ← decides_iff]
  exact ⟨fun h => ⟨h.positive, h.decided, h.violated⟩, fun h => ⟨h.1, h.2.1, h.2.2⟩⟩

instance : Decidable (s.Breaks p params e) := decidable_of_iff' _ Stage.breaks_iff

/-! ## Checks -/

/-- The violation that residuals show is made of the first run of those that are too large. -/
theorem Stage.violationOf?_samples {residual : α → α} {before during after : List α} {first : α}
    (hbefore : ∀ o ∈ before, Stage.exceeds params (residual o) = false)
    (hduring : ∀ o ∈ first :: during, Stage.exceeds params (residual o) = true)
    (hafter : ∀ o ∈ after.head?, Stage.exceeds params (residual o) = false) :
    s.violationOf? p params i e
        ((before ++ first :: (during ++ after)).map fun o => (o, residual o)) =
      some
        { stage := s.index, constraint := i, offset := first,
          intervalStart := before.getLast?.getD Scalar.zero,
          crossing := (bisect (s.residualAt p e) (Stage.exceeds params) params.bisectionSteps
            (before.getLast?.getD Scalar.zero) first).2,
          intervalEnd := during.getLast?.getD first, duration := s.dt, residual := residual first,
          state := s.stateAt p first } := by
  let sample (o : α) : α × α := (o, residual o)
  rw [List.forall_mem_cons] at hduring
  have hdrop : ((before ++ first :: (during ++ after)).map sample).dropWhile
      (fun x => !Stage.exceeds params x.2) = sample first :: (during ++ after).map sample := by
    rw [List.map_append, List.dropWhile_append_of_pos (by simpa [sample] using hbefore)]
    simp [sample, hduring.1]
  have htake : ((before ++ first :: (during ++ after)).map sample).takeWhile
      (fun x => !Stage.exceeds params x.2) = before.map sample := by
    rw [List.map_append, List.takeWhile_append_of_pos (by simpa [sample] using hbefore)]
    simp [sample, hduring.1]
  have hrun : ((during ++ after).map sample).takeWhile (fun x => Stage.exceeds params x.2) =
      during.map sample := by
    rw [List.map_append, List.takeWhile_append_of_pos (by simpa [sample] using hduring.2)]
    cases after with
    | nil => simp
    | cons o after => simp [sample, hafter o rfl]
  have hlast (l : List α) : (l.map sample).getLast?.map (·.1) = l.getLast? := by
    rw [List.getLast?_map]
    cases l.getLast? <;> rfl
  unfold violationOf?
  simp only [sample, hdrop, htake, hrun, hlast]

theorem Stage.violationOf?_eq_none {residuals : List (α × α)}
    (h : ∀ x ∈ residuals, Stage.exceeds params x.2 = false) :
    s.violationOf? p params i e residuals = none := by
  have hdrop : residuals.dropWhile (fun x => !Stage.exceeds params x.2) = [] := by
    rw [List.dropWhile_eq_nil_iff]
    simpa using h
  unfold violationOf?
  simp only [hdrop]

/-- A check of decided samples finds what their residuals show. -/
theorem Stage.violation?_check {residuals : List (α × α)}
    (h : s.residualsAt p e samples = .ok residuals) :
    (s.check p params samples i e).violation? = s.violationOf? p params i e residuals := by
  unfold Stage.check
  rw [h]
  cases hfound : s.violationOf? p params i e residuals with
  | some v => simp [hfound, Finding.violation?]
  | none => simp [hfound, Finding.violation?]

theorem Stage.HasResidual.unique {offset r r' : α} (h : s.HasResidual p e offset r)
    (h' : s.HasResidual p e offset r') : r = r' :=
  Except.ok.inj (h.1.symm.trans h'.1)

/-- A check finds that a constraint is broken, and how. -/
theorem Stage.Breaks.exists_violation (h : s.Breaks p params e) (i : Nat) :
    ∃ v, (s.check p params (sampleOffsets params.epsilon s.dt) i e).violation? = some v ∧
      s.Describes p params i e v := by
  have hdecided := h.decided
  choose! residual hresidual using hdecided
  have hresiduals := residualsAt_of_forall fun o ho => residualAt_eq_ok_iff.2 (hresidual o ho)
  obtain ⟨o, ho, r, hr, hexceeds⟩ := h.violated
  rw [hr.unique (hresidual o ho)] at hexceeds
  obtain ⟨before, first, during, after, hsamples, hbefore, hduring, hafter⟩ :=
    exists_first_run (fun o => Stage.exceeds params (residual o)) ⟨o, ho, hexceeds⟩
  have hdecides {o : α} (b : Bool) (ho : o ∈ before ++ first :: (during ++ after))
      (hb : Stage.exceeds params (residual o) = b) : s.Decides p params e o b :=
    ⟨residual o, hresidual o (hsamples ▸ ho), hb⟩
  have hfound := violationOf?_samples (s := s) (p := p) (i := i) (e := e) hbefore hduring hafter
  rw [← hsamples] at hfound
  refine ⟨_, (violation?_check hresiduals).trans hfound, ?_⟩
  refine ⟨rfl, rfl, rfl, hresidual first (by simp [hsamples]), ?_, rfl, rfl⟩
  refine ⟨before, during, after, hsamples, rfl, rfl, fun o ho => ?_, fun o ho => ?_, fun o ho => ?_⟩
  · exact hdecides false (by simp [ho]) (hbefore o ho)
  · rcases List.mem_cons.1 ho with rfl | ho'
    · exact hdecides true (by simp) (hduring o ho)
    · exact hdecides true (by simp [ho']) (hduring o ho)
  · exact hdecides false (by simp [List.mem_of_mem_head? ho]) (hafter o ho)

/-- A check finds nothing wrong with a constraint that is not broken, or not decided everywhere. -/
theorem Stage.violation?_check_of_not_breaks (hpositive : Scalar.lt Scalar.zero s.dt = true)
    (h : ¬s.Breaks p params e) :
    (s.check p params (sampleOffsets params.epsilon s.dt) i e).violation? = none := by
  cases hresiduals : s.residualsAt p e (sampleOffsets params.epsilon s.dt) with
  | error _ =>
    unfold Stage.check
    rw [hresiduals]
    rfl
  | ok residuals =>
    obtain ⟨hsamples, hall⟩ := residualsAt_eq_ok hresiduals
    have hdecided : ∀ x ∈ residuals, x.1 ∈ sampleOffsets params.epsilon s.dt ∧
        s.HasResidual p e x.1 x.2 := by
      intro x hx
      rw [← hsamples]
      exact ⟨List.mem_map_of_mem hx, residualAt_eq_ok_iff.1 (hall x hx)⟩
    rw [violation?_check hresiduals]
    apply violationOf?_eq_none
    intro x hx
    rw [← Bool.not_eq_true]
    intro hexceeds
    refine h ⟨hpositive, fun o ho => ?_, x.1, (hdecided x hx).1, x.2, (hdecided x hx).2, hexceeds⟩
    rw [← hsamples] at ho
    obtain ⟨y, hy, rfl⟩ := List.mem_map.1 ho
    exact ⟨y.2, (hdecided y hy).2⟩

/-! ## Plans -/

/-- What the check of a numbered constraint on the stage finds wrong. -/
def Stage.found? (p : Problem α) (params : SimulationParams α) (s : Stage α) (c : ExprId × Nat) :
    Option (Violation α) :=
  if Scalar.lt Scalar.zero s.dt = true then
    (s.check p params (sampleOffsets params.epsilon s.dt) c.2 c.1).violation?
  else none

theorem Stage.found?_of_breaks {c : ExprId × Nat} (h : s.Breaks p params c.1) :
    ∃ v, s.found? p params c = some v ∧ s.Describes p params c.2 c.1 v := by
  rw [found?, if_pos h.positive]
  exact h.exists_violation c.2

theorem Stage.found?_of_not_breaks {c : ExprId × Nat} (h : ¬s.Breaks p params c.1) :
    s.found? p params c = none := by
  unfold found?
  by_cases hpositive : Scalar.lt Scalar.zero s.dt = true
  · rw [if_pos hpositive]
    exact violation?_check_of_not_breaks hpositive h
  · rw [if_neg hpositive]

/-- The constraints are checked stage by stage, and in their order on each stage. -/
theorem Plan.violations_eq_filterMap : plan.violations p params =
    (plan.stages ×ˢ p.temporal.zipIdx).filterMap fun x => x.1.found? p params x.2 := by
  have hstage (s : Stage α) : (s.findings p params).filterMap Finding.violation? =
      (p.temporal.zipIdx.map (Prod.mk s)).filterMap fun x => x.1.found? p params x.2 := by
    unfold Stage.findings Stage.found?
    by_cases hpositive : Scalar.lt Scalar.zero s.dt = true
    · simp [hpositive, List.mapIdx_eq_zipIdx_map, List.filterMap_map]
    · simp [hpositive, List.filterMap_map]
  unfold violations findings
  rw [List.filterMap_flatMap]
  simp only [hstage]
  exact List.filterMap_flatMap.symm

theorem Plan.mem_violations (hs : s ∈ plan.stages) (hpositive : Scalar.lt Scalar.zero s.dt = true)
    (he : p.temporal[i]? = some e)
    (hv : (s.check p params (sampleOffsets params.epsilon s.dt) i e).violation? = some v) :
    v ∈ plan.violations p params := by
  rw [violations_eq_filterMap]
  refine List.mem_filterMap.2 ⟨(s, e, i), ?_, ?_⟩
  · exact List.mem_product.2 ⟨hs, List.mem_zipIdx_iff_getElem?.2 he⟩
  · rw [Stage.found?, if_pos hpositive]
    exact hv

/-- What is found wrong is wrong with one of the stages, and is described. -/
theorem Plan.exists_describes (hv : v ∈ plan.violations p params) :
    ∃ s ∈ plan.stages, ∃ i e, p.temporal[i]? = some e ∧ s.Breaks p params e ∧
      s.Describes p params i e v := by
  rw [violations_eq_filterMap] at hv
  obtain ⟨⟨s, e, i⟩, hmem, hfound⟩ := List.mem_filterMap.1 hv
  obtain ⟨hs, hc⟩ := List.mem_product.1 hmem
  by_cases hbreaks : s.Breaks p params e
  · obtain ⟨w, hw, hdescribes⟩ := Stage.found?_of_breaks (c := (e, i)) hbreaks
    obtain rfl : w = v := Option.some.inj (hw.symm.trans hfound)
    exact ⟨s, hs, i, e, List.mem_zipIdx_iff_getElem?.1 hc, hbreaks, hdescribes⟩
  · rw [Stage.found?_of_not_breaks (c := (e, i)) hbreaks] at hfound
    cases hfound

/-- The violations of a plan belong to the stages and constraints that are broken, one to each in the
order of stages and then of constraints, and describe them. -/
theorem Plan.forall₂_describes (p : Problem α) (params : SimulationParams α) (plan : Plan α) :
    List.Forall₂ (fun x v => x.1.Describes p params x.2.2 x.2.1 v)
      ((plan.stages ×ˢ p.temporal.zipIdx).filter fun x => x.1.Breaks p params x.2.1)
      (plan.violations p params) := by
  rw [violations_eq_filterMap]
  apply forall₂_filter_filterMap
  intro x _
  by_cases hbreaks : x.1.Breaks p params x.2.1
  · exact .inl ⟨hbreaks, Stage.found?_of_breaks hbreaks⟩
  · exact .inr ⟨hbreaks, Stage.found?_of_not_breaks hbreaks⟩

end

end HybridPlan
