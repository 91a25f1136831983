import HybridPlan.Proofs.Reach

set_option autoImplicit false

/-! # Where a trajectory leaves the feasible region

A violation is first seen at a sample. Between this sample and the one before it a bisection looks for
the point where the violation begins. Whatever the residual does between the samples, the bisection
keeps an interval whose end is violated, and whose start is not, unless it is still where it was at
first; each look at a middle halves it. -/

namespace HybridPlan

open Exact (real)

/-! ## The times that are looked at -/

section

variable {α : Type} [Scalar α]

/-- The times that a bisection looks at, in turn. It looks at no other one after a time at which it
cannot decide. -/
def bisectionTimes (residual : α → Except (Undecided α) α) (violated : α → Bool) :
    Nat → α → α → List α
  | 0, _, _ => []
  | n + 1, lo, hi =>
    let mid := (lo + hi) / Scalar.nat 2
    mid :: match residual mid with
      | .ok r => if violated r then bisectionTimes residual violated n lo mid
        else bisectionTimes residual violated n mid hi
      | .error _ => []

variable {residual residual' : α → Except (Undecided α) α} {violated : α → Bool} {n : Nat} {lo hi : α}

/-- A bisection depends on what it looks at. -/
theorem bisect_congr
    (h : ∀ t ∈ bisectionTimes residual violated n lo hi, residual' t = residual t) :
    bisect residual' violated n lo hi = bisect residual violated n lo hi := by
  induction n generalizing lo hi with
  | zero => rfl
  | succ n ih =>
    unfold bisectionTimes at h
    rw [List.forall_mem_cons] at h
    obtain ⟨hmid, hlater⟩ := h
    unfold bisect
    simp only [hmid]
    cases hr : residual ((lo + hi) / Scalar.nat 2) with
    | error _ => rfl
    | ok r =>
      simp only [hr] at hlater
      by_cases hviolated : violated r = true
      · simp only [hviolated, if_true] at hlater ⊢
        exact ih hlater
      · simp only [hviolated] at hlater ⊢
        exact ih hlater

end

/-! ## The bracket -/

section

variable {residual : Exact → Except (Undecided Exact) Exact} {violated : Exact → Bool}
  {start lo hi : ℝ}

/-- The constraint is violated at the end of an interval, and it is not at its start, unless that is
where the search began. -/
structure Brackets (residual : Exact → Except (Undecided Exact) Exact) (violated : Exact → Bool)
    (start lo hi : ℝ) : Prop where
  start_le : start ≤ lo
  lt : lo < hi
  at_end : ∃ r, residual (real hi) = .ok r ∧ violated r = true
  at_start : lo = start ∨ ∃ r, residual (real lo) = .ok r ∧ violated r = false

theorem middle_real (lo hi : ℝ) : (real lo + real hi) / Scalar.nat 2 = real ((lo + hi) / 2) := by
  rw [Exact.nat_eq, Exact.real_add_real, Exact.real_div_real (by norm_num)]
  norm_num

namespace Brackets

variable (h : Brackets residual violated start lo hi)
include h

/-- If the middle is violated it is the new end. -/
theorem first_half {r : Exact} (hr : residual (real ((lo + hi) / 2)) = .ok r)
    (hviolated : violated r = true) : Brackets residual violated start lo ((lo + hi) / 2) where
  start_le := h.start_le
  lt := by linarith [h.lt]
  at_end := ⟨r, hr, hviolated⟩
  at_start := h.at_start

/-- If the middle is not violated it is the new start. -/
theorem second_half {r : Exact} (hr : residual (real ((lo + hi) / 2)) = .ok r)
    (hviolated : violated r = false) : Brackets residual violated start ((lo + hi) / 2) hi where
  start_le := by linarith [h.lt, h.start_le]
  lt := by linarith [h.lt]
  at_end := h.at_end
  at_start := .inr ⟨r, hr, hviolated⟩

/-- A bisection keeps the bracket, and halves it at every time that it can decide. -/
theorem exists_bisect (n : Nat) : ∃ lo' hi' : ℝ,
    bisect residual violated n (real lo) (real hi) = (real lo', real hi') ∧
      Brackets residual violated start lo' hi' ∧ hi' ≤ hi ∧
      ((∀ t ∈ bisectionTimes residual violated n (real lo) (real hi), ∃ r, residual t = .ok r) →
        hi' - lo' = (hi - lo) / 2 ^ n) := by
  induction n generalizing lo hi with
  | zero => exact ⟨lo, hi, rfl, h, le_refl hi, fun _ => by simp⟩
  | succ n ih =>
    have hlt := h.lt
    unfold bisect bisectionTimes
    simp only [middle_real]
    cases hr : residual (real ((lo + hi) / 2)) with
    | error reason =>
      -- the search ends here, but then it has met a time that it cannot decide
      refine ⟨lo, hi, rfl, h, le_refl hi, fun hdecided => ?_⟩
      obtain ⟨r, hr'⟩ := hdecided _ List.mem_cons_self
      rw [hr] at hr'
      cases hr'
    | ok r =>
      by_cases hviolated : violated r = true
      · obtain ⟨lo', hi', hbisect, hbrackets, hle, hwidth⟩ := ih (h.first_half hr hviolated)
        simp only [hviolated, if_true]
        refine ⟨lo', hi', hbisect, hbrackets, by linarith, fun hdecided => ?_⟩
        rw [hwidth fun t ht => hdecided t (List.mem_cons_of_mem _ ht), pow_succ]
        field_simp
        ring
      · obtain ⟨lo', hi', hbisect, hbrackets, hle, hwidth⟩ :=
          ih (h.second_half hr (Bool.eq_false_iff.2 hviolated))
        simp only [hviolated]
        refine ⟨lo', hi', hbisect, hbrackets, hle, fun hdecided => ?_⟩
        rw [hwidth fun t ht => hdecided t (List.mem_cons_of_mem _ ht), pow_succ]
        field_simp
        ring

end Brackets

/-- The times that are looked at lie in the interval. -/
theorem mem_bisectionTimes {n : ℕ} (hlt : lo < hi) {t : Exact}
    (ht : t ∈ bisectionTimes residual violated n (real lo) (real hi)) :
    ∃ τ, t = real τ ∧ lo < τ ∧ τ < hi := by
  induction n generalizing lo hi with
  | zero => cases ht
  | succ n ih =>
    unfold bisectionTimes at ht
    simp only [middle_real] at ht
    rcases List.mem_cons.1 ht with rfl | ht
    · exact ⟨(lo + hi) / 2, rfl, by linarith, by linarith⟩
    · cases hr : residual (real ((lo + hi) / 2)) with
      | error _ =>
        rw [hr] at ht
        cases ht
      | ok r =>
        simp only [hr] at ht
        by_cases hviolated : violated r = true
        · simp only [hviolated, if_true] at ht
          obtain ⟨τ, rfl, hlo, hhi⟩ := ih (by linarith) ht
          exact ⟨τ, rfl, hlo, by linarith⟩
        · simp only [hviolated] at ht
          obtain ⟨τ, rfl, hlo, hhi⟩ := ih (by linarith) ht
          exact ⟨τ, rfl, by linarith, hhi⟩

end

/-! ## Crossings -/

variable {p : Problem Exact} {params : SimulationParams Exact} {s : Stage Exact} {plan : Plan Exact}
  {e : ExprId} {v : Violation Exact}

theorem exists_real_of_positive {u : Exact} (hpositive : Scalar.lt Scalar.zero u = true)
    (hu : u ≠ Scalar.infinity) : ∃ d, u = real d ∧ 0 < d := by
  rw [Exact.zero_eq] at hpositive
  rcases u with d | n | _
  · exact ⟨d, rfl, Exact.lt_real.1 hpositive⟩
  · cases n with
    | false => exact absurd rfl hu
    | true => exact absurd (Exact.lt_iff.1 hpositive) Bool.false_ne_true
  · exact (Exact.lt_iff.1 hpositive).elim

/-- The first violated sample comes after the sample before it, or after the start of the stage. -/
theorem Stage.FirstRun.exists_interval {epsilon start first last : Exact} {d : ℝ} (hd : 0 < d)
    (h : s.FirstRun p params e (sampleOffsets epsilon (real d)) start first last) :
    ∃ lo hi : ℝ, start = real lo ∧ first = real hi ∧ lo < hi := by
  obtain ⟨before, during, after, hsplit, rfl, -⟩ := h
  obtain ⟨ts, hts, hsorted, hwithin⟩ := exists_times epsilon hd
  rw [hsplit] at hts
  obtain ⟨times, rest, rfl, rfl, hrest⟩ := List.map_eq_append_iff.1 hts.symm
  obtain ⟨hi, rest, rfl, rfl, -⟩ := List.map_eq_cons_iff.1 hrest
  rcases List.eq_nil_or_concat times with rfl | ⟨times, lo, rfl⟩
  · exact ⟨0, hi, Exact.zero_eq, rfl, (hwithin hi (by simp)).1⟩
  · refine ⟨lo, hi, by simp, rfl, ?_⟩
    exact (List.pairwise_append.1 hsorted).2.2 lo (by simp) hi (by simp)

/-- On a stage that comes to an end, the crossing of a violation lies behind the sample before the
violation, or behind the start of the stage, and not behind the first violated sample, and the
constraint is violated there. If the bisection can decide wherever it looks, each of its steps halves
the distance back to that sample, or to a time at which the constraint is not violated. -/
theorem Plan.crossing_bracketed (hv : v ∈ plan.violations p params)
    (hfinite : v.duration ≠ Scalar.infinity) :
    ∃ s ∈ plan.stages, v.stage = s.index ∧ ∃ e, p.temporal[v.constraint]? = some e ∧
      ∃ start crossing offset : ℝ, v.intervalStart = real start ∧ v.crossing = real crossing ∧
        v.offset = real offset ∧ start < crossing ∧ crossing ≤ offset ∧
        s.Decides p params e v.crossing true ∧
        ((∀ t ∈ bisectionTimes (s.residualAt p e) (Stage.exceeds params) params.bisectionSteps
            v.intervalStart v.offset, ∃ r, s.HasResidual p e t r) →
          ∃ lo : ℝ, crossing - lo = (offset - start) / 2 ^ params.bisectionSteps ∧
            (lo = start ∨ s.Decides p params e (real lo) false)) := by
  obtain ⟨s, hs, i, e, he, hbreaks, hdescribes⟩ := Plan.exists_describes hv
  obtain ⟨d, hdt, hd⟩ := exists_real_of_positive hbreaks.positive (hdescribes.duration ▸ hfinite)
  have hrun := hdescribes.run
  rw [hdt] at hrun
  obtain ⟨start, offset, hstart, hoffset, hlt⟩ := hrun.exists_interval hd
  -- at first the bracket reaches from the sample before the violation to the violated one
  have hbrackets : Brackets (s.residualAt p e) (Stage.exceeds params) start start offset := by
    refine ⟨le_refl start, hlt, ⟨v.residual, ?_, hdescribes.exceeds⟩, .inl rfl⟩
    rw [← hoffset]
    exact Stage.residualAt_eq_ok_iff.2 hdescribes.residual
  obtain ⟨lo, crossing, hbisect, hbracket, hle, hwidth⟩ := hbrackets.exists_bisect params.bisectionSteps
  have hcrossing : v.crossing = real crossing := by
    rw [hdescribes.crossing, hstart, hoffset, hbisect]
  refine ⟨s, hs, hdescribes.stage, e, hdescribes.constraint ▸ he, start, crossing, offset, hstart,
    hcrossing, hoffset, lt_of_le_of_lt hbracket.start_le hbracket.lt, hle, ?_, ?_⟩
  · obtain ⟨r, hr, hexceeds⟩ := hbracket.at_end
    rw [hcrossing]
    exact ⟨r, Stage.residualAt_eq_ok_iff.1 hr, hexceeds⟩
  · intro hdecided
    rw [hstart, hoffset] at hdecided
    refine ⟨lo, hwidth fun t ht => ?_, ?_⟩
    · obtain ⟨r, hr⟩ := hdecided t ht
      exact ⟨r, Stage.residualAt_eq_ok_iff.2 hr⟩
    · rcases hbracket.at_start with hlo | ⟨r, hr, hwithin⟩
      · exact .inl hlo
      · exact .inr ⟨r, Stage.residualAt_eq_ok_iff.1 hr, hwithin⟩

/-- To wait for four units of time is found to be too long behind the first of them, at a time that is
closer than a billionth to one that is not too late. -/
theorem Plan.crossing_bracketed_waiting : ∃ (P : ReadProblem Exact) (v : Violation Exact),
    P.source = Waiting.source .le ∧ P.config = .default ∧
      v ∈ Waiting.plan.violations P.problem Waiting.params ∧ v.duration ≠ Scalar.infinity ∧
      ∃ s ∈ Waiting.plan.stages, ∃ e, P.problem.temporal[v.constraint]? = some e ∧
        ∃ start crossing lo : ℝ, v.intervalStart = real start ∧ v.crossing = real crossing ∧
          start < crossing ∧ crossing ≤ 4 ∧ s.Decides P.problem Waiting.params e v.crossing true ∧
          crossing - lo = (4 - start) / 2 ^ 32 ∧
          (lo = start ∨ s.Decides P.problem Waiting.params e (real lo) false) := by
  obtain ⟨P, v, hsource, hconfig, hwaits, hv, hconstraint, hoffset, -⟩ := Waiting.exists_late
  have hfinite : v.duration ≠ Scalar.infinity := by
    obtain ⟨s, hs, i, e, -, -, hdescribes⟩ := Plan.exists_describes hv
    rw [hdescribes.duration, Waiting.mem_plan.1 hs, Waiting.dt_stage]
    rintro ⟨⟩
  obtain ⟨s, hs, -, e, he, start, crossing, offset, hstart, hcrossing, hoffset', hlt, hle, hdecides,
    hbracket⟩ := Plan.crossing_bracketed hv hfinite
  obtain rfl : offset = 4 := Exact.real.inj (hoffset'.symm.trans hoffset)
  obtain ⟨c, hc, hresidual⟩ := hwaits.exists_residual P.resolved
  obtain rfl : c = e := by
    rw [hc, hconstraint] at he
    exact Option.some.inj he
  obtain ⟨lo, hwidth, hlo⟩ := hbracket (by
    intro t ht
    rw [hstart, hoffset] at ht
    obtain ⟨τ, rfl, -⟩ := mem_bisectionTimes (hlt.trans_le hle) ht
    exact ⟨_, Stage.residualAt_eq_ok_iff.1 (hresidual s τ)⟩)
  exact ⟨P, v, hsource, hconfig, hv, hfinite, s, hs, c, he, start, crossing, lo, hstart, hcrossing,
    hlt, hle, hdecides, hwidth, hlo⟩

end HybridPlan
