import HybridPlan.Proofs.Numbers.Exact
import HybridPlan.Proofs.Simulation.Findings

set_option autoImplicit false

/-! # What a simulation reports

A violation is reported about a stage of the plan that takes time, and about a temporal constraint
whose residual is too large at one of the samples. The samples are times of the stage after its
start. -/

namespace HybridPlan

/-! ## Violations -/

section

variable {α : Type} [Scalar α] {p : Problem α} {params : SimulationParams α} {s : Stage α}
  {plan : Plan α} {samples : List α} {i : Nat} {e : ExprId} {v : Violation α}

/-- The samples from `first` to `last` follow each other without a break, and the residual of the
constraint is too large at all of them. -/
def Stage.ViolatedRun (p : Problem α) (params : SimulationParams α) (s : Stage α) (e : ExprId)
    (samples : List α) (first last : α) : Prop :=
  ∃ before during after, samples = before ++ first :: (during ++ after) ∧
    last = during.getLast?.getD first ∧
    ∀ o ∈ first :: during, ∃ r, s.residualAt p e o = .ok r ∧ Stage.exceeds params r = true

/-- What a violation says about the stage in which it is found. -/
structure Stage.Violates (p : Problem α) (params : SimulationParams α) (s : Stage α)
    (v : Violation α) : Prop where
  stage : v.stage = s.index
  duration : v.duration = s.dt
  positive : Scalar.lt Scalar.zero s.dt = true
  residual : ∃ e, p.temporal[v.constraint]? = some e ∧
    s.residualAt p e v.offset = .ok v.residual ∧
    s.ViolatedRun p params e (sampleOffsets params.epsilon s.dt) v.offset v.intervalEnd
  exceeds : Stage.exceeds params v.residual = true

/-- A run begins and ends at samples. -/
theorem Stage.ViolatedRun.ends_mem {first last : α} (h : s.ViolatedRun p params e samples first last) :
    first ∈ samples ∧ last ∈ samples := by
  obtain ⟨before, during, after, rfl, rfl, -⟩ := h
  refine ⟨by simp, ?_⟩
  cases hlast : during.getLast? with
  | none => simp
  | some o => simp [List.mem_of_getLast? hlast]

theorem Stage.Violates.offset_mem (h : s.Violates p params v) :
    v.offset ∈ sampleOffsets params.epsilon s.dt := by
  obtain ⟨e, -, -, hrun⟩ := h.residual
  exact hrun.ends_mem.1

theorem Stage.Violates.intervalEnd_mem (h : s.Violates p params v) :
    v.intervalEnd ∈ sampleOffsets params.epsilon s.dt := by
  obtain ⟨e, -, -, hrun⟩ := h.residual
  exact hrun.ends_mem.2

theorem Stage.FirstRun.violatedRun {start first last : α}
    (h : s.FirstRun p params e samples start first last) :
    s.ViolatedRun p params e samples first last := by
  obtain ⟨before, during, after, hsamples, -, hlast, -, hduring, -⟩ := h
  refine ⟨before, during, after, hsamples, hlast, ?_⟩
  intro o ho
  obtain ⟨r, hr, hexceeds⟩ := hduring o ho
  exact ⟨r, residualAt_eq_ok_iff.2 hr, hexceeds⟩

theorem Stage.Describes.exceeds (h : s.Describes p params i e v) :
    Stage.exceeds params v.residual = true := by
  obtain ⟨before, during, after, -, -, -, -, hduring, -⟩ := h.run
  obtain ⟨r, hr, hexceeds⟩ := hduring v.offset List.mem_cons_self
  rwa [hr.unique h.residual] at hexceeds

theorem Plan.violates_of_mem_violations (h : v ∈ plan.violations p params) :
    ∃ s ∈ plan.stages, s.Violates p params v := by
  obtain ⟨s, hs, i, e, he, hbreaks, hdescribes⟩ := Plan.exists_describes h
  refine ⟨s, hs, hdescribes.stage, hdescribes.duration, hbreaks.positive, ⟨e, ?_, ?_, ?_⟩,
    hdescribes.exceeds⟩
  · rw [hdescribes.constraint]
    exact he
  · exact Stage.residualAt_eq_ok_iff.2 hdescribes.residual
  · exact hdescribes.run.violatedRun

theorem Plan.exists_stage_of_mem_violations (h : v ∈ plan.violations p params) :
    ∃ s ∈ plan.stages, v.stage = s.index := by
  obtain ⟨s, hs, hviolates⟩ := violates_of_mem_violations h
  exact ⟨s, hs, hviolates.stage⟩

/-- A constraint that has residuals at all samples, of which some are too large, is reported: with the
first of these samples, and the last of those that follow it without a break. -/
theorem Plan.exists_violation (hs : s ∈ plan.stages) (hpositive : Scalar.lt Scalar.zero s.dt = true)
    (he : p.temporal[i]? = some e) {residual : α → α} {before during after : List α} {offset : α}
    (hsamples : sampleOffsets params.epsilon s.dt = before ++ offset :: (during ++ after))
    (hresidual : ∀ o ∈ sampleOffsets params.epsilon s.dt, s.residualAt p e o = .ok (residual o))
    (hbefore : ∀ o ∈ before, Stage.exceeds params (residual o) = false)
    (hoffset : Stage.exceeds params (residual offset) = true)
    (hduring : ∀ o ∈ during, Stage.exceeds params (residual o) = true)
    (hafter : ∀ o ∈ after.head?, Stage.exceeds params (residual o) = false) :
    ∃ v ∈ plan.violations p params, v.stage = s.index ∧ v.constraint = i ∧ v.duration = s.dt ∧
      v.offset = offset ∧ v.intervalEnd = during.getLast?.getD offset ∧
      v.residual = residual offset := by
  have hresiduals := Stage.residualsAt_of_forall hresidual
  have hfound := Stage.violationOf?_samples (s := s) (p := p) (i := i) (e := e) hbefore
    (List.forall_mem_cons.2 ⟨hoffset, hduring⟩) hafter
  rw [← hsamples, ← Stage.violation?_check hresiduals] at hfound
  refine ⟨_, Plan.mem_violations hs hpositive he hfound, rfl, rfl, rfl, rfl, rfl, rfl⟩

end

/-! ## Samples -/

open Exact (real)

theorem not_isPast_of_firstPast? {α : Type} [Scalar α] {epsilon duration : α} {n k m : Nat}
    (h : firstPast? epsilon duration n k = some m) {j : Nat} (hk : k ≤ j) (hj : j < m) :
    isPast epsilon duration j = false := by
  induction n generalizing k with
  | zero => cases h
  | succ n ih =>
    unfold firstPast? at h
    split at h
    · cases h
      omega
    · next hpast =>
      rcases Nat.eq_or_lt_of_le hk with rfl | hlt
      · simpa using hpast
      · exact ih h hlt

theorem isPast_of_firstPast? {α : Type} [Scalar α] {epsilon duration : α} {n k m : Nat}
    (h : firstPast? epsilon duration n k = some m) : isPast epsilon duration m = true := by
  induction n generalizing k with
  | zero => cases h
  | succ n ih =>
    unfold firstPast? at h
    split at h
    · next hpast =>
      cases h
      exact hpast
    · exact ih h

/-- The first sample that comes too late is found among enough samples. -/
theorem firstPast?_eq_some {α : Type} [Scalar α] {epsilon duration : α} {n k m : Nat}
    (hbefore : ∀ j, k ≤ j → j < m → isPast epsilon duration j = false)
    (hpast : isPast epsilon duration m = true) (hk : k ≤ m) (hm : m < k + n) :
    firstPast? epsilon duration n k = some m := by
  induction n generalizing k with
  | zero => omega
  | succ n ih =>
    unfold firstPast?
    rcases Nat.eq_or_lt_of_le hk with rfl | hlt
    · rw [if_pos hpast]
    · rw [hbefore k (le_refl k) hlt, if_neg Bool.false_ne_true]
      exact ih (fun j hj hjm => hbefore j (Nat.le_of_succ_le hj) hjm) hlt (by omega)

theorem sampleSlack_eq : (sampleSlack : Exact) = real (1 * 10 ^ (-12 : ℤ)) := by
  change real ((1 : ℕ) * 10 ^ (-12 : ℤ)) = _
  rw [Nat.cast_one]

theorem isPast_real {ε d : ℝ} {k : ℕ} :
    isPast (real ε) (real d) k = true ↔ d - 1 * 10 ^ (-12 : ℤ) ≤ k * ε := by
  rw [isPast, sampleTime, sampleSlack_eq, Exact.nat_eq, Exact.real_sub_real, Exact.real_mul_real,
    Exact.le_real]

/-- The multiples of an infinite step are undefined, and so never past the end. -/
theorem exists_real_of_isPast {epsilon duration : Exact} {k : Nat}
    (h : isPast epsilon duration k = true) : ∃ ε, epsilon = real ε := by
  rcases epsilon with ε | n | _
  · exact ⟨ε, rfl⟩
  · rw [isPast, sampleTime, Exact.nat_eq, Exact.le_iff] at h
    exact absurd h (by cases duration - sampleSlack <;> exact id)
  · rw [isPast, sampleTime, Exact.nat_eq, Exact.le_iff] at h
    exact absurd h (by cases duration - sampleSlack <;> exact id)

/-- The number of samples before the end of a stage. -/
theorem sampleCount?_eq_some {ε d : ℝ} {m : ℕ} (hε : 0 < ε) (hm : m + 1 < maxSample)
    (hbefore : m * ε < d - 1 * 10 ^ (-12 : ℤ)) (hpast : d - 1 * 10 ^ (-12 : ℤ) ≤ (m + 1) * ε) :
    sampleCount? (real ε) (real d) = some m := by
  refine Option.map_eq_some_iff.2 ⟨m + 1, firstPast?_eq_some (fun j _ hj => ?_) ?_ (by omega)
    (by omega), rfl⟩
  · rw [← Bool.not_eq_true, isPast_real, not_le]
    have hle : (j : ℝ) ≤ m := Nat.cast_le.2 (Nat.le_of_lt_succ hj)
    exact lt_of_le_of_lt (mul_le_mul_of_nonneg_right hle hε.le) hbefore
  · rw [isPast_real]
    push_cast
    exact hpast

/-- The samples of a stage are its end, and before it times in increasing order. -/
theorem exists_sampleOffsets (epsilon : Exact) (d : ℝ) : ∃ ts : List ℝ,
    sampleOffsets epsilon (real d) = (ts ++ [d]).map real ∧ ts.Pairwise (· < ·) ∧
      ∀ t ∈ ts, 0 < t ∧ t < d := by
  have hnone : sampleOffsets epsilon (real d) = (([] : List ℝ) ++ [d]).map real ∨
      ∃ m, firstPast? epsilon (real d) maxSample 1 = some (m + 1) ∧
        Scalar.lt Scalar.zero epsilon = true ∧
        sampleOffsets epsilon (real d) =
          (List.range' 1 m).map (sampleTime epsilon) ++ [real d] := by
    unfold sampleOffsets sampleCount?
    split
    · next hpositive =>
      cases hpast : firstPast? epsilon (real d) maxSample 1 with
      | none => exact .inl rfl
      | some m =>
        cases m with
        | zero => exact .inl rfl
        | succ m => exact .inr ⟨m, rfl, hpositive, rfl⟩
    · exact .inl rfl
  rcases hnone with hnone | ⟨m, hpast, hpositive, hsamples⟩
  · exact ⟨[], hnone, .nil, by simp⟩
  · obtain ⟨ε, rfl⟩ := exists_real_of_isPast (isPast_of_firstPast? hpast)
    have hε : 0 < ε := by simpa using hpositive
    refine ⟨(List.range' 1 m).map fun k : ℕ => (k : ℝ) * ε, ?_, ?_, fun t ht => ?_⟩
    · rw [hsamples, List.map_append, List.map_map]
      simp [sampleTime, Function.comp_def]
    · refine List.pairwise_map.2 (List.Pairwise.imp (fun {j k} hjk => ?_)
        (List.pairwise_lt_range' 1))
      exact mul_lt_mul_of_pos_right (Nat.cast_lt.2 hjk) hε
    · obtain ⟨k, hk, rfl⟩ := List.mem_map.1 ht
      obtain ⟨hone, hlt⟩ := List.mem_range'_1.1 hk
      have hk : (0 : ℝ) < k := Nat.cast_pos.2 hone
      have hbefore : ¬d - 1 * 10 ^ (-12 : ℤ) ≤ k * ε := by
        rw [← isPast_real, Bool.not_eq_true]
        exact not_isPast_of_firstPast? hpast hone (by omega)
      have hslack : (0 : ℝ) < 1 * 10 ^ (-12 : ℤ) := by positivity
      exact ⟨mul_pos hk hε, by linarith⟩

/-- The samples of a stage are times in increasing order, after its start and not after its end. -/
theorem exists_times (epsilon : Exact) {d : ℝ} (hd : 0 < d) : ∃ ts : List ℝ,
    sampleOffsets epsilon (real d) = ts.map real ∧ ts.Pairwise (· < ·) ∧
      ∀ t ∈ ts, 0 < t ∧ t ≤ d := by
  obtain ⟨ts, hts, hpairwise, hwithin⟩ := exists_sampleOffsets epsilon d
  refine ⟨ts ++ [d], hts, ?_, ?_⟩
  · rw [List.pairwise_append]
    refine ⟨hpairwise, List.pairwise_singleton _ _, fun t ht t' ht' => ?_⟩
    rw [List.mem_singleton.1 ht']
    exact (hwithin t ht).2
  · intro t ht
    rw [List.mem_append, List.mem_singleton] at ht
    rcases ht with ht | rfl
    · exact ⟨(hwithin t ht).1, (hwithin t ht).2.le⟩
    · exact ⟨hd, le_refl t⟩

/-- The samples of a stage come after its start, and not after its end. -/
theorem mem_sampleOffsets {epsilon offset : Exact} {d : ℝ} (hd : 0 < d)
    (h : offset ∈ sampleOffsets epsilon (real d)) : ∃ o, offset = real o ∧ 0 < o ∧ o ≤ d := by
  obtain ⟨ts, hts, -, hwithin⟩ := exists_times epsilon hd
  rw [hts] at h
  obtain ⟨o, ho, rfl⟩ := List.mem_map.1 h
  exact ⟨o, rfl, hwithin o ho⟩

section

variable {p : Problem Exact} {params : SimulationParams Exact} {s : Stage Exact} {e : ExprId}
  {epsilon : Exact} {d m o o' : ℝ}

/-- The samples before a run come before its start, and those behind it after its end. -/
theorem Stage.ViolatedRun.exists_split
    (h : s.ViolatedRun p params e (sampleOffsets epsilon (real d)) (real o) (real o')) :
    ∃ before run after : List ℝ,
      sampleOffsets epsilon (real d) = (before ++ run ++ after).map real ∧
        (∀ t ∈ before, t < o) ∧ (∀ t ∈ after, o' < t) ∧ o ≤ o' ∧
        ∀ t ∈ run, ∃ r, s.residualAt p e (real t) = .ok r ∧ Stage.exceeds params r = true := by
  obtain ⟨ts, hts, hpairwise, hwithin⟩ := exists_sampleOffsets epsilon d
  obtain ⟨before, during, after, hsplit, hlast, hexceeds⟩ := h
  have hsorted : (ts ++ [d]).Pairwise (· < ·) :=
    List.pairwise_append.2 ⟨hpairwise, List.pairwise_singleton _ _, fun t ht t' ht' =>
      List.mem_singleton.1 ht' ▸ (hwithin t ht).2⟩
  -- the parts of the list of samples are lists of real numbers
  rw [hsplit, ← List.cons_append] at hts
  obtain ⟨before, rest, hbefore, rfl, hrest⟩ := List.map_eq_append_iff.1 hts.symm
  obtain ⟨run, after, rfl, hrun, rfl⟩ := List.map_eq_append_iff.1 hrest
  rw [hbefore] at hsorted
  obtain ⟨-, hrest, hbefore'⟩ := List.pairwise_append.1 hsorted
  obtain ⟨hrun', -, hafter⟩ := List.pairwise_append.1 hrest
  obtain ⟨t, run, rfl, ht, rfl⟩ := List.map_eq_cons_iff.1 hrun
  cases ht
  have hlast : o' = run.getLast?.getD o := by
    rw [List.getLast?_map] at hlast
    cases hgetLast : run.getLast? <;> simpa [hgetLast] using hlast
  have hmem : o' ∈ o :: run := by
    rw [hlast]
    cases hgetLast : run.getLast? with
    | none => simp
    | some t => simp [List.mem_of_getLast? hgetLast]
  refine ⟨before, o :: run, after, by rw [hsplit]; simp, fun t ht => ?_, fun t ht => ?_, ?_,
    fun t ht => hexceeds _ ?_⟩
  · exact hbefore' t ht o (by simp)
  · exact hafter o' hmem t ht
  · rcases List.mem_cons.1 hmem with heq | hmem
    · exact heq.ge
    · exact ((List.pairwise_cons.1 hrun').1 o' hmem).le
  · rw [← List.map_cons]
    exact List.mem_map_of_mem ht

theorem Stage.ViolatedRun.le
    (h : s.ViolatedRun p params e (sampleOffsets epsilon (real d)) (real o) (real o')) : o ≤ o' := by
  obtain ⟨-, -, -, -, -, -, hle, -⟩ := h.exists_split
  exact hle

/-- A sample between the ends of a run belongs to the run. -/
theorem Stage.ViolatedRun.exceeds_of_mem
    (h : s.ViolatedRun p params e (sampleOffsets epsilon (real d)) (real o) (real o'))
    (hm : real m ∈ sampleOffsets epsilon (real d)) (hom : o ≤ m) (hmo : m ≤ o') :
    ∃ r, s.residualAt p e (real m) = .ok r ∧ Stage.exceeds params r = true := by
  obtain ⟨before, run, after, hsplit, hbefore, hafter, -, hrun⟩ := h.exists_split
  rw [hsplit] at hm
  obtain ⟨t, ht, ⟨⟩⟩ := List.mem_map.1 hm
  rcases List.mem_append.1 ht with ht | ht
  · rcases List.mem_append.1 ht with ht | ht
    · exact absurd (hbefore m ht) (not_lt.2 hom)
    · exact hrun m ht
  · exact absurd (hafter m ht) (not_lt.2 hmo)

end

end HybridPlan
