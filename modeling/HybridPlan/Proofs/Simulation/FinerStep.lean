import HybridPlan.Proofs.Reach
import HybridPlan.Proofs.Simulation.Grid

set_option autoImplicit false

/-! # Simulations with a finer step

The samples of a step are among those of any fraction of it: a multiple of the step is a multiple of the
fraction, the slack before the end of the stage is the same for both, and both end with the stage. So
what a simulation finds is found again with the finer step, at the same time or before. -/

namespace HybridPlan

open Exact (real)

/-! ## Samples of a step and of its fractions -/

/-- A sample is the end of the stage or a multiple of the step that comes before it. -/
theorem eq_or_multiple_of_mem_sampleOffsets {α : Type} [Scalar α] {epsilon duration offset : α}
    (h : offset ∈ sampleOffsets epsilon duration) : offset = duration ∨
      ∃ k, 1 ≤ k ∧ offset = sampleTime epsilon k ∧ isPast epsilon duration k = false := by
  unfold sampleOffsets at h
  rw [List.mem_append, List.mem_singleton] at h
  refine h.symm.imp_right fun hmultiple => ?_
  obtain ⟨k, hk, rfl⟩ := List.mem_map.1 hmultiple
  obtain ⟨hone, hlt⟩ := List.mem_range'_1.1 hk
  refine ⟨k, hone, rfl, ?_⟩
  split at hlt
  · cases hcount : sampleCount? epsilon duration with
    | none =>
      rw [hcount, Option.getD_none] at hlt
      omega
    | some m =>
      rw [hcount, Option.getD_some] at hlt
      obtain ⟨j, hfirst, rfl⟩ := Option.map_eq_some_iff.1 hcount
      exact not_isPast_of_firstPast? hfirst hone (by omega)
  · omega

/-- No multiple reaches the end of a stage that lasts for ever. -/
theorem exists_duration_of_isPast {epsilon duration : Exact} {k : Nat}
    (h : isPast epsilon duration k = true) : ∃ d, duration = real d := by
  rcases duration with d | n | _
  · exact ⟨d, rfl⟩
  · exact absurd (Exact.le_iff.1 h) id
  · exact absurd (Exact.le_iff.1 h) id

section

variable {ε d : ℝ} {n k : ℕ}

/-- All multiples that come before the end of the stage are samples, if these can be numbered. -/
theorem multiple_mem_sampleOffsets (hε : 0 < ε)
    (hnumbered : (sampleCount? (real ε) (real d)).isSome = true) (hk : 1 ≤ k)
    (hbefore : k * ε < d - 1 * 10 ^ (-12 : ℤ)) :
    real (k * ε) ∈ sampleOffsets (real ε) (real d) := by
  obtain ⟨m, hcount⟩ := Option.isSome_iff_exists.1 hnumbered
  obtain ⟨j, hfirst, rfl⟩ := Option.map_eq_some_iff.1 hcount
  have hpast := isPast_real.1 (isPast_of_firstPast? hfirst)
  have hkj : k < j := by
    have hlt : (k : ℝ) * ε < j * ε := by linarith
    exact_mod_cast lt_of_mul_lt_mul_right hlt hε.le
  rw [sampleOffsets_eq_gridTimes hε hcount, gridTimes, List.map_append, List.mem_append]
  refine .inl (List.mem_map_of_mem (List.mem_map.2 ⟨k, ?_, rfl⟩))
  rw [List.mem_range'_1]
  omega

/-- The samples of a step are samples of its fractions. -/
theorem sampleOffsets_subset (hε : 0 < ε) (hn : 1 ≤ n)
    (hnumbered : (sampleCount? (real (ε / n)) (real d)).isSome = true) :
    sampleOffsets (real ε) (real d) ⊆ sampleOffsets (real (ε / n)) (real d) := by
  have hn₀ : (0 : ℝ) < n := by exact_mod_cast hn
  intro offset hoffset
  rcases eq_or_multiple_of_mem_sampleOffsets hoffset with rfl | ⟨k, hk, rfl, hbefore⟩
  · exact List.mem_append_right _ (List.mem_singleton_self _)
  · -- the multiple is one of the fraction too
    have hmultiple : (k : ℝ) * ε = (k * n : ℕ) * (ε / n) := by
      push_cast
      field_simp
    rw [← Bool.not_eq_true, isPast_real, not_le, hmultiple] at hbefore
    rw [sampleTime, Exact.nat_eq, Exact.real_mul_real, hmultiple]
    exact multiple_mem_sampleOffsets (div_pos hε hn₀) hnumbered (Nat.mul_pos hk hn) hbefore

end

/-! ## Violations found with a finer step -/

/-- The first run begins no later than any violated sample. -/
theorem Stage.FirstRun.le_of_decides {p : Problem Exact} {params : SimulationParams Exact}
    {s : Stage Exact} {e : ExprId} {times : List ℝ} {start last : Exact} {first o : Exact}
    (h : s.FirstRun p params e (times.map real) start first last) (htimes : times.Pairwise (· < ·))
    (ho : o ∈ times.map real) (hviolated : s.Decides p params e o true) :
    ∃ t t', first = real t ∧ o = real t' ∧ t ≤ t' := by
  obtain ⟨before, during, after, hsplit, -, -, hbefore, -⟩ := h
  have hsorted : (before ++ first :: (during ++ after)).Pairwise
      (fun x y => ∃ t t', x = real t ∧ y = real t' ∧ t < t') := by
    rw [← hsplit, List.pairwise_map]
    exact htimes.imp fun hlt => ⟨_, _, rfl, rfl, hlt⟩
  rw [hsplit, List.mem_append, List.mem_cons] at ho
  rcases ho with ho | rfl | ho
  · obtain ⟨r, hr, hexceeds⟩ := hviolated
    obtain ⟨r', hr', hnot⟩ := hbefore o ho
    rw [hr.unique hr', hnot] at hexceeds
    cases hexceeds
  · have hmem : o ∈ times.map real := by simp [hsplit]
    obtain ⟨t, -, rfl⟩ := List.mem_map.1 hmem
    exact ⟨t, t, rfl, rfl, le_refl t⟩
  · obtain ⟨-, hrest, -⟩ := List.pairwise_append.1 hsorted
    obtain ⟨t, t', ht, ht', hlt⟩ := (List.pairwise_cons.1 hrest).1 o ho
    exact ⟨t, t', ht, ht', hlt.le⟩

section

variable {p : Problem Exact} {params : SimulationParams Exact} {plan : Plan Exact} {ε : ℝ} {n : ℕ}

/-- Whatever is found with a step is found with each fraction of it, at the same constraint of the same
stage and no later, if the constraints have residuals at the samples of the fraction, and these can be
numbered. -/
theorem Plan.violations_finer (hstep : params.epsilon = real ε) (hε : 0 < ε) (hn : 1 ≤ n)
    (hnumbered : ∀ s ∈ plan.stages, Scalar.lt Scalar.zero s.dt = true →
      (sampleCount? (real (ε / n)) s.dt).isSome = true)
    (hdefined : ∀ s ∈ plan.stages, Scalar.lt Scalar.zero s.dt = true → ∀ e ∈ p.temporal,
      ∀ o ∈ sampleOffsets (real (ε / n)) s.dt, ∃ r, s.HasResidual p e o r) :
    ∀ v ∈ plan.violations p params,
      ∃ w ∈ plan.violations p { params with epsilon := real (ε / n) },
        w.stage = v.stage ∧ w.constraint = v.constraint ∧
          ∃ t t', w.offset = real t ∧ v.offset = real t' ∧ t ≤ t' := by
  intro v hv
  obtain ⟨s, hs, i, e, he, hbreaks, hdescribes⟩ := Plan.exists_describes hv
  have hpositive := hbreaks.positive
  have hcount := hnumbered s hs hpositive
  obtain ⟨k, -, -, hpast⟩ := isSome_sampleCount?_iff.1 hcount
  obtain ⟨d, hd⟩ := exists_duration_of_isPast hpast
  have hd₀ : 0 < d := by
    rw [hd] at hpositive
    simpa using hpositive
  obtain ⟨times, htimes, hsorted, -⟩ := exists_times (real (ε / n)) hd₀
  rw [← hd] at htimes
  have hoffset : v.offset ∈ sampleOffsets (real (ε / n)) s.dt := by
    have hmem := hdescribes.run.violatedRun.ends_mem.1
    rw [hstep, hd] at hmem
    rw [hd] at hcount ⊢
    exact sampleOffsets_subset hε hn hcount hmem
  have hviolated : s.Decides p { params with epsilon := real (ε / n) } e v.offset true :=
    ⟨v.residual, hdescribes.residual, hdescribes.exceeds⟩
  have hfiner : s.Breaks p { params with epsilon := real (ε / n) } e :=
    ⟨hpositive, hdefined s hs hpositive e (List.mem_of_getElem? he), v.offset, hoffset, hviolated⟩
  obtain ⟨w, hw, hwdescribes⟩ := hfiner.exists_violation i
  refine ⟨w, Plan.mem_violations hs hpositive he hw, ?_, ?_, ?_⟩
  · rw [hwdescribes.stage, hdescribes.stage]
  · rw [hwdescribes.constraint, hdescribes.constraint]
  · have hrun := hwdescribes.run
    rw [htimes] at hoffset
    change s.FirstRun p _ e (sampleOffsets (real (ε / n)) s.dt) _ _ _ at hrun
    rw [htimes] at hrun
    exact hrun.le_of_decides hsorted hoffset hviolated

/-- To wait for four units of time is found too long with a step of a half as well. -/
theorem Plan.violations_finer_waiting : ∃ (P : ReadProblem Exact) (v : Violation Exact),
    P.source = Waiting.source .le ∧ v ∈ Waiting.plan.violations P.problem Waiting.params ∧
      v.offset = real 4 ∧
      ∃ w ∈ Waiting.plan.violations P.problem { Waiting.params with
        epsilon := real (2 / (4 : ℕ)) },
        w.stage = v.stage ∧ w.constraint = 0 ∧ ∃ t, w.offset = real t ∧ t ≤ 4 := by
  obtain ⟨P, v, hsource, -, hwaits, hv, hconstraint, hoffset, -⟩ := Waiting.exists_late
  obtain ⟨c, hc, hresidual⟩ := hwaits.exists_residual P.resolved
  have hnumbered : ∀ s ∈ Waiting.plan.stages, Scalar.lt Scalar.zero s.dt = true →
      (sampleCount? (real (2 / (4 : ℕ))) s.dt).isSome = true := by
    intro s hs _
    rw [Waiting.mem_plan.1 hs, Waiting.dt_stage, isSome_sampleCount?_iff]
    exact ⟨8, by decide, by decide, isPast_real.2 (by norm_num)⟩
  have hdefined : ∀ s ∈ Waiting.plan.stages, Scalar.lt Scalar.zero s.dt = true →
      ∀ e ∈ P.problem.temporal, ∀ o ∈ sampleOffsets (real (2 / (4 : ℕ))) s.dt,
        ∃ r, s.HasResidual P.problem e o r := by
    intro s hs _ e he o ho
    rw [Waiting.mem_plan.1 hs, Waiting.dt_stage] at ho
    obtain ⟨t, rfl, -⟩ := mem_sampleOffsets (by norm_num) ho
    obtain rfl : e = c := by simpa [hc] using he
    exact ⟨_, Stage.residualAt_eq_ok_iff.1 (hresidual s t)⟩
  have hstep : Waiting.params.epsilon = real 2 := congrArg real Nat.cast_two
  obtain ⟨w, hw, hstage, hwconstraint, t, t', ht, ht', hle⟩ :=
    Plan.violations_finer hstep two_pos (by decide) hnumbered hdefined v hv
  obtain rfl : t' = 4 := Exact.real.inj (ht'.symm.trans hoffset)
  exact ⟨P, v, hsource, hv, hoffset, w, hw, hstage, hwconstraint.trans hconstraint, t, ht, hle⟩

end

end HybridPlan
