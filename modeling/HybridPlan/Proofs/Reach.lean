import HybridPlan.Proofs.Anchor
import HybridPlan.Proofs.Domain.Acceptance

set_option autoImplicit false

/-! # The reach of cuts

The anchor of a cut is a time of the stage. With a relative anchor this is so whatever the duration
of the stage is; an absolute anchor can lie beyond the end of a shorter stage. In the stage of the
violation itself a relative anchor is the middle of the violated run, which need not be a sample. -/

namespace HybridPlan

open Exact (real)

variable {p : Problem Exact} {params : SimulationParams Exact} {s : Stage Exact}
  {v : Violation Exact} {mode : OffsetMode}

/-! ## Times of a violation -/

namespace Stage.Violates

variable (h : s.Violates p params v) {D : ℝ} (hD : s.dt = real D)
include h hD

theorem duration_pos : 0 < D := by
  have hpositive := h.positive
  rwa [hD, Exact.zero_eq, Exact.lt_real] at hpositive

/-- A violated run starts and ends in the stage. -/
theorem exists_run : ∃ o o', v.offset = real o ∧ v.intervalEnd = real o' ∧
    (0 < o ∧ o ≤ D) ∧ 0 < o' ∧ o' ≤ D := by
  have hoffset := h.offset_mem
  have hend := h.intervalEnd_mem
  rw [hD] at hoffset hend
  obtain ⟨o, ho, hwithin⟩ := mem_sampleOffsets (h.duration_pos hD) hoffset
  obtain ⟨o', ho', hwithin'⟩ := mem_sampleOffsets (h.duration_pos hD) hend
  exact ⟨o, o', ho, ho', hwithin, hwithin'⟩

/-- A violated run does not end before it starts, and the relative anchor is its middle. -/
theorem exists_ordered : ∃ o o', v.offset = real o ∧ v.intervalEnd = real o' ∧ o ≤ o' ∧
    v.anchorOffset .relative = real ((o + o') / 2) := by
  obtain ⟨o, o', ho, ho', -⟩ := h.exists_run hD
  obtain ⟨e, _, _, hrun⟩ := h.residual
  refine ⟨o, o', ho, ho', ?_, ?_⟩
  · rw [ho, ho', hD] at hrun
    exact hrun.le
  · rw [Violation.anchorOffset, ho, ho', Exact.nat_eq, Exact.real_add_real,
      Exact.real_div_real (by norm_num)]
    norm_num

/-- The middle of the run, as a time and as a fraction of the duration. -/
theorem exists_middle : ∃ m, v.anchorOffset .relative = real m ∧
    v.anchorFraction = real (m / D) ∧ 0 < m ∧ m ≤ D := by
  obtain ⟨o, o', ho, ho', -, hmiddle⟩ := h.exists_ordered hD
  have hwithin := h.offset_mem
  have hwithin' := h.intervalEnd_mem
  rw [ho, hD] at hwithin
  rw [ho', hD] at hwithin'
  have hD₀ := h.duration_pos hD
  obtain ⟨_, ⟨⟩, hpos, hle⟩ := mem_sampleOffsets hD₀ hwithin
  obtain ⟨_, ⟨⟩, hpos', hle'⟩ := mem_sampleOffsets hD₀ hwithin'
  refine ⟨(o + o') / 2, hmiddle, ?_, by linarith, by linarith⟩
  have hduration : Scalar.lt Scalar.zero v.duration = true := h.duration ▸ h.positive
  rw [Violation.anchorFraction, hmiddle, fractionOf, if_pos hduration, h.duration, hD,
    Exact.real_div_real hD₀.ne']

/-- In its own stage a relative anchor is the middle of the run. -/
theorem anchorAt_own : v.anchorAt s.dt .relative = v.anchorOffset .relative := by
  obtain ⟨m, hm, hfraction, -⟩ := h.exists_middle hD
  rw [Violation.anchorAt, hfraction, hD, hm, Exact.real_mul_real,
    div_mul_cancel₀ m (h.duration_pos hD).ne']

/-- The anchor is a time of every stage that an absolute anchor does not lie beyond. -/
theorem anchorAt_within {d : ℝ} (hd : 0 < d)
    (hreach : mode = .absolute → Scalar.le v.offset (real d)) :
    ∃ o, v.anchorAt (real d) mode = real o ∧ 0 < o ∧ o ≤ d := by
  cases mode with
  | absolute =>
    obtain ⟨o, -, ho, -, ⟨hpos, -⟩, -⟩ := h.exists_run hD
    have hle := hreach rfl
    rw [ho, Exact.le_real] at hle
    exact ⟨o, ho, hpos, hle⟩
  | relative =>
    obtain ⟨m, -, hfraction, hpos, hle⟩ := h.exists_middle hD
    have hD₀ := h.duration_pos hD
    refine ⟨m / D * d, by rw [Violation.anchorAt, hfraction, Exact.real_mul_real], ?_, ?_⟩
    · exact mul_pos (div_pos hpos hD₀) hd
    · exact mul_le_of_le_one_left hd.le ((div_le_one hD₀).2 hle)

end Stage.Violates

/-! ## Waiting for too long -/

/-- To wait for four units of time is too long from the last sample on if three are the limit. -/
theorem Waiting.exists_late : ∃ (P : ReadProblem Exact) (v : Violation Exact), P.source = source .le ∧
    P.config = .default ∧ P.problem.Waits .le ∧ v ∈ Waiting.plan.violations P.problem Waiting.params ∧
      v.constraint = 0 ∧ v.offset = real 4 ∧ v.intervalEnd = real 4 ∧ v.residual = real (1 / 4) := by
  obtain ⟨P, hsource, hconfig, hwaits, -⟩ := exists_default .le
  have hexcess : Comparison.le.excess 4 3 = 1 / 4 := by norm_num [Comparison.excess]
  have hsamples : sampleOffsets Waiting.params.epsilon (real 4) =
      ([2] ++ 4 :: (([] : List ℝ) ++ [])).map real := Waiting.sampleOffsets_params
  obtain ⟨v, hv, -, hconstraint, -, hoffset, hend, hresidual⟩ := hwaits.exists_violation P.resolved
    (Waiting.mem_plan.2 rfl) (show (0 : ℝ) < 4 by norm_num) (Waiting.dt_stage 4)
    (rfl : Waiting.params.tolerance = real 0) hsamples (by norm_num [Comparison.excess])
    (by norm_num [hexcess]) (by simp) (by simp)
  rw [hexcess] at hresidual
  exact ⟨P, v, hsource, hconfig, hwaits, hv, hconstraint, hoffset, hend, hresidual⟩

/-- All times up to the limit are allowed. -/
theorem Problem.Waits.holds_of_le (h : p.Waits .le) (hp : p.Resolved) {d : ℝ} (hd : d ≤ 3)
    (s : Stage Exact) : ∀ c ∈ p.temporal, ∀ o, 0 < o → o ≤ d →
      p.arena.Holds (s.valuation p (real o)) c := by
  obtain ⟨e, htemporal, hholds⟩ := h.exists_holds hp
  intro c hc o _ ho
  obtain rfl : c = e := List.mem_singleton.1 (htemporal ▸ hc)
  exact (hholds s o).2 (le_trans ho hd)

/-- To wait for four units of time is wrong at both samples, but not between them, if three have to be
waited. -/
theorem Waiting.exists_wrong : ∃ (P : ReadProblem Exact) (v : Violation Exact), P.source = source .eq ∧
    P.config = .default ∧ P.problem.Waits .eq ∧ v ∈ Waiting.plan.violations P.problem Waiting.params ∧
      v.constraint = 0 ∧ v.offset = real 2 ∧ v.intervalEnd = real 4 := by
  obtain ⟨P, hsource, hconfig, hwaits, -⟩ := exists_default .eq
  have hsamples : sampleOffsets Waiting.params.epsilon (real 4) =
      (([] : List ℝ) ++ 2 :: ([4] ++ [])).map real := Waiting.sampleOffsets_params
  obtain ⟨v, hv, -, hconstraint, -, hoffset, hend, -⟩ := hwaits.exists_violation P.resolved
    (Waiting.mem_plan.2 rfl) (show (0 : ℝ) < 4 by norm_num) (Waiting.dt_stage 4)
    (rfl : Waiting.params.tolerance = real 0) hsamples (by simp) (by norm_num [Comparison.excess])
    (by norm_num [Comparison.excess]) (by simp)
  exact ⟨P, v, hsource, hconfig, hwaits, hv, hconstraint, hoffset, hend⟩

/-! ## What cuts exclude -/

/-- In the stage of the violation the cut with a relative anchor has the residual that the constraint
has in the middle of the violated run, if there is one. So the cut excludes the stage if the middle of
the run is one of the samples. -/
theorem ReadProblem.relative_cut_residual (P : ReadProblem Exact)
    {vs : List (Violation Exact × OffsetMode × Nat)} {store : CutStore Exact} {q q₁ : Problem Exact}
    (hfill : CutStore.fill P.problem vs = (store, q)) (hgrows : q.Grows q₁)
    {plan : Plan Exact} (hplan : ∀ s ∈ plan.stages, ∃ d, s.dt = real d)
    (hv : v ∈ plan.violations q params) (iteration : Nat) :
    ∃ s ∈ plan.stages, s.index = v.stage ∧ ∃ c, q.temporal[v.constraint]? = some c ∧
      (∀ u, s.residualAt q c (v.anchorOffset .relative) = .ok u →
        s.residualAt (q₁.withCut v .relative) (v.cut q₁ .relative iteration).expr s.dt = .ok u) ∧
      (v.anchorOffset .relative ∈ sampleOffsets params.epsilon s.dt →
        ∃ u, s.residualAt (q₁.withCut v .relative) (v.cut q₁ .relative iteration).expr s.dt =
            .ok u ∧
          Stage.exceeds params u) := by
  obtain ⟨hgrows₀, -⟩ := CutStore.fill_grows P.madeOf vs
  rw [hfill] at hgrows₀
  have hq := P.madeOf.grows hgrows₀
  obtain ⟨s, hs, hviolates⟩ := Plan.violates_of_mem_violations hv
  obtain ⟨D, hD⟩ := hplan s hs
  obtain ⟨c, hc, _, hrun⟩ := hviolates.residual
  have hc₁ : q₁.temporal[v.constraint]? = some c := by
    obtain ⟨a, rfl, -⟩ := hgrows
    exact hc
  -- the anchor is the middle of the run, where the constraint is looked at
  have hmiddle (u : Exact) (hu : s.residualAt q c (v.anchorOffset .relative) = .ok u) :
      s.residualAt (q₁.withCut v .relative) (v.cut q₁ .relative iteration).expr s.dt = .ok u := by
    refine Violation.residualAt_cutExpr (hq.grows hgrows) hc₁ ?_
    rw [hviolates.anchorAt_own hD]
    exact Stage.residualAt_grows hq hgrows (hq.temporal c (List.mem_of_getElem? hc)) hu
  refine ⟨s, hs, hviolates.stage.symm, c, hc, hmiddle, fun hsample => ?_⟩
  -- the samples from the start of the run to its end are all violated
  obtain ⟨o, o', ho, ho', hle, hm⟩ := hviolates.exists_ordered hD
  rw [hm, hD] at hsample
  rw [ho, ho', hD] at hrun
  obtain ⟨u, hu, hexceeds⟩ := hrun.exceeds_of_mem hsample (by linarith) (by linarith)
  exact ⟨u, hmiddle u (by rw [hm]; exact hu), hexceeds⟩

/-- A run of one sample at the end of a stage. -/
theorem ReadProblem.relative_cut_residual_waiting : ∃ (P : ReadProblem Exact)
    (v : Violation Exact), P.source = Waiting.source .le ∧ P.config = .default ∧
      CutStore.fill P.problem [] = ({}, P.problem) ∧ P.problem.Grows P.problem ∧
      (∀ s ∈ Waiting.plan.stages, ∃ d, s.dt = real d) ∧
      v ∈ Waiting.plan.violations P.problem Waiting.params ∧ v.anchorOffset .relative = real 4 ∧
      real 4 ∈ sampleOffsets Waiting.params.epsilon (real 4) ∧
      ∃ s ∈ Waiting.plan.stages, s.index = v.stage ∧ ∃ u,
        s.residualAt (P.problem.withCut v .relative) (v.cut P.problem .relative 1).expr s.dt =
            .ok u ∧
          Stage.exceeds Waiting.params u := by
  obtain ⟨P, v, hsource, hconfig, -, hv, -, hoffset, hend, -⟩ := Waiting.exists_late
  have hfill : CutStore.fill P.problem [] = ({}, P.problem) := rfl
  have hgrows := Problem.Grows.refl P.problem
  have hplan := Waiting.exists_dt
  have hanchor : v.anchorOffset .relative = real 4 := by
    rw [Violation.anchorOffset, hoffset, hend, Exact.nat_eq, Exact.real_add_real,
      Exact.real_div_real (by norm_num)]
    norm_num
  have hsample : real 4 ∈ sampleOffsets Waiting.params.epsilon (real 4) := by
    rw [Waiting.sampleOffsets_params]
    simp
  obtain ⟨s, hs, hindex, c, -, -, hexcluded⟩ := P.relative_cut_residual hfill hgrows hplan hv 1
  have hdt : s.dt = real 4 := Waiting.mem_plan.1 hs ▸ Waiting.dt_stage 4
  exact ⟨P, v, hsource, hconfig, hfill, hgrows, hplan, hv, hanchor, hsample, s, hs, hindex,
    hexcluded (by rw [hanchor, hdt]; exact hsample)⟩

/-- A cut with a relative anchor can hold in the plan that it was made for: between two samples, both
of which are wrong, the plan is right. -/
theorem ReadProblem.relative_cut_spares : ∃ (P : ReadProblem Exact) (v : Violation Exact),
    P.source = Waiting.source .eq ∧ P.config = .default ∧
      v ∈ Waiting.plan.violations P.problem Waiting.params ∧
      ∀ s ∈ Waiting.plan.stages, s.index = v.stage ∧
        s.residualAt (P.problem.withCut v .relative) (v.cut P.problem .relative 1).expr s.dt =
          .ok (real 0) ∧ Stage.exceeds Waiting.params (real 0) = false := by
  obtain ⟨P, v, hsource, hconfig, hwaits, hv, hconstraint, hoffset, hend⟩ := Waiting.exists_wrong
  obtain ⟨c, hc, hresidual⟩ := hwaits.exists_residual P.resolved
  obtain ⟨s, hs, hviolates⟩ := Plan.violates_of_mem_violations hv
  obtain rfl := Waiting.mem_plan.1 hs
  have hanchor : v.anchorAt (Waiting.stage 4).dt .relative = real 3 := by
    rw [hviolates.anchorAt_own (Waiting.dt_stage 4), Violation.anchorOffset, hoffset, hend, Exact.nat_eq,
      Exact.real_add_real, Exact.real_div_real (by norm_num)]
    norm_num
  have hexcess : Comparison.eq.excess 3 3 = 0 := by norm_num [Comparison.excess]
  have hc₀ : P.problem.temporal[v.constraint]? = some c := by rw [hc, hconstraint]; rfl
  refine ⟨P, v, hsource, hconfig, hv, fun s hs => ?_⟩
  obtain rfl := Waiting.mem_plan.1 hs
  refine ⟨hviolates.stage.symm, Violation.residualAt_cutExpr P.madeOf hc₀ ?_, ?_⟩
  · rw [hanchor, hresidual, hexcess]
  · rw [Stage.exceeds, ← Bool.not_eq_true, show Waiting.params.tolerance = real 0 from rfl,
      Exact.lt_real]
    exact lt_irrefl 0

/-! ## What cuts allow -/

/-- Values for a stage under which the temporal constraints hold all the time satisfy every cut with
a relative anchor, and every cut with an absolute anchor that lies in the stage; also if strict
comparisons are read as weak ones, as residuals do. -/
theorem ReadProblem.cut_allows (P : ReadProblem Exact)
    {vs : List (Violation Exact × OffsetMode × Nat)} {store : CutStore Exact} {q q₁ : Problem Exact}
    (hfill : CutStore.fill P.problem vs = (store, q)) (hgrows : q.Grows q₁)
    {plan : Plan Exact} (hplan : ∀ s ∈ plan.stages, ∃ d, s.dt = real d)
    (hv : v ∈ plan.violations q params) {s : Stage Exact} {d : ℝ} (hd : 0 < d)
    (hdt : s.dt = real d) (hreach : mode = .absolute → Scalar.le v.offset s.dt)
    (iteration : Nat) :
    ((∀ c ∈ q.temporal, ∀ o, 0 < o → o ≤ d → q.arena.Holds (s.valuation q (real o)) c) →
        (q₁.withCut v mode).arena.Holds (s.valuation (q₁.withCut v mode) s.dt)
          (v.cut q₁ mode iteration).expr) ∧
      ((∀ c ∈ q.temporal, ∀ o, 0 < o → o ≤ d → ∃ r ≤ 0, s.residualAt q c (real o) = .ok (real r)) →
        ∃ r ≤ 0, s.residualAt (q₁.withCut v mode) (v.cut q₁ mode iteration).expr s.dt =
          .ok (real r)) := by
  obtain ⟨hgrows₀, -⟩ := CutStore.fill_grows P.madeOf vs
  rw [hfill] at hgrows₀
  have hq := P.madeOf.grows hgrows₀
  obtain ⟨s', hs', hviolates⟩ := Plan.violates_of_mem_violations hv
  obtain ⟨D, hD⟩ := hplan s' hs'
  obtain ⟨c, hc, _, _⟩ := hviolates.residual
  have hc₁ : q₁.temporal[v.constraint]? = some c := by
    obtain ⟨a, rfl, -⟩ := hgrows
    exact hc
  have hmem := List.mem_of_getElem? hc
  obtain ⟨o, ho, hpos, hle⟩ := hviolates.anchorAt_within hD hd fun hmode => hdt ▸ hreach hmode
  rw [← hdt] at ho
  constructor
  · intro hholds
    refine Violation.holds_cutExpr (hq.grows hgrows) hc₁ ?_
    rw [ho]
    exact Stage.holds_grows hq hgrows (hq.temporal c hmem) (hholds c hmem o hpos hle)
  · intro hresiduals
    obtain ⟨r, hr, hresidual⟩ := hresiduals c hmem o hpos hle
    refine ⟨r, hr, Violation.residualAt_cutExpr (hq.grows hgrows) hc₁ ?_⟩
    rw [ho]
    exact Stage.residualAt_grows hq hgrows (hq.temporal c hmem) hresidual

/-- A wait of one unit of time, which is not too long, and a relative anchor. -/
theorem ReadProblem.cut_allows_waiting : ∃ (P : ReadProblem Exact) (v : Violation Exact),
    P.source = Waiting.source .le ∧ P.config = .default ∧
      CutStore.fill P.problem [] = ({}, P.problem) ∧ P.problem.Grows P.problem ∧
      (∀ s ∈ Waiting.plan.stages, ∃ d, s.dt = real d) ∧
      v ∈ Waiting.plan.violations P.problem Waiting.params ∧ (0 : ℝ) < 1 ∧
      (Waiting.stage 1).dt = real 1 ∧
      (OffsetMode.relative = .absolute → Scalar.le v.offset (Waiting.stage 1).dt) ∧
      (∀ c ∈ P.problem.temporal, ∀ o, 0 < o → o ≤ 1 →
        P.problem.arena.Holds ((Waiting.stage 1).valuation P.problem (real o)) c) ∧
      (P.problem.withCut v .relative).arena.Holds
        ((Waiting.stage 1).valuation (P.problem.withCut v .relative) (Waiting.stage 1).dt)
        (v.cut P.problem .relative 1).expr := by
  obtain ⟨P, v, hsource, hconfig, hwaits, hv, -⟩ := Waiting.exists_late
  have hfill : CutStore.fill P.problem [] = ({}, P.problem) := rfl
  have hgrows := Problem.Grows.refl P.problem
  have hplan := Waiting.exists_dt
  have hreach : OffsetMode.relative = .absolute → Scalar.le v.offset (Waiting.stage 1).dt :=
    fun hmode => by cases hmode
  have hholds := hwaits.holds_of_le P.resolved (show (1 : ℝ) ≤ 3 by norm_num) (Waiting.stage 1)
  obtain ⟨hallows, -⟩ := P.cut_allows hfill hgrows hplan hv one_pos (Waiting.dt_stage 1) hreach 1
  exact ⟨P, v, hsource, hconfig, hfill, hgrows, hplan, hv, one_pos, Waiting.dt_stage 1, hreach,
    hholds, hallows hholds⟩

/-- An absolute anchor beyond the end of a shorter stage: the cut for a wait of four units of time can
not be satisfied, also by a wait of one unit, which is not too long. -/
theorem ReadProblem.absolute_cut_refuses : ∃ (P : ReadProblem Exact) (v : Violation Exact),
    P.source = Waiting.source .le ∧ P.config = .default ∧
      v ∈ Waiting.plan.violations P.problem Waiting.params ∧
      (∀ c ∈ P.problem.temporal, ∀ o, 0 < o → o ≤ 1 →
        P.problem.arena.Holds ((Waiting.stage 1).valuation P.problem (real o)) c) ∧
      ¬(P.problem.withCut v .absolute).arena.Holds
        ((Waiting.stage 1).valuation (P.problem.withCut v .absolute) (Waiting.stage 1).dt)
        (v.cut P.problem .absolute 1).expr := by
  obtain ⟨P, v, hsource, hconfig, hwaits, hv, hconstraint, hoffset, -⟩ := Waiting.exists_late
  obtain ⟨c, hc, hjudges⟩ := hwaits.exists_temporal P.resolved
  have hholds := hwaits.holds_of_le P.resolved (show (1 : ℝ) ≤ 3 by norm_num) (Waiting.stage 1)
  refine ⟨P, v, hsource, hconfig, hv, hholds, ?_⟩
  have hc₀ : P.problem.temporal[v.constraint]? = some c := by rw [hc, hconstraint]; rfl
  have hanchor : v.anchorAt (Waiting.stage 1).dt .absolute = real 4 := hoffset
  have hlate := hjudges (.truth Comparison.Holds) ArithOp.lawful_strictly (Waiting.stage 1) 4
  rw [← hanchor] at hlate
  refine fun hcut => absurd ((Violation.holds_cutExpr_iff P.madeOf hc₀ hlate).1 hcut) ?_
  norm_num [Judgement.truth, Comparison.Holds]

end HybridPlan
