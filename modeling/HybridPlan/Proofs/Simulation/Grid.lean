import HybridPlan.Proofs.Simulation
import Mathlib.Algebra.Order.Floor.Semiring
import Mathlib.Data.List.Range
import Mathlib.Tactic.Linarith
import Mathlib.Tactic.NormNum

set_option autoImplicit false

/-! # The grid of a stage

The samples of a stage are the multiples of the step, one after the other, and the end of the stage.
A multiple that comes within the slack of the end is left to the end, so the last two samples can be
further apart than a step, but by no more than the slack. -/

namespace HybridPlan

open Exact (real)

/-! ## Where the multiples stop -/

theorem bounds_of_firstPast? {α : Type} [Scalar α] {epsilon duration : α} {n k m : Nat}
    (h : firstPast? epsilon duration n k = some m) : k ≤ m ∧ m < k + n := by
  induction n generalizing k with
  | zero => cases h
  | succ n ih =>
    unfold firstPast? at h
    split at h
    · cases h
      omega
    · have hbounds := ih h
      omega

/-- If one of the samples comes too late, there is a first one. -/
theorem exists_firstPast? {α : Type} [Scalar α] {epsilon duration : α} {n k m : Nat}
    (hpast : isPast epsilon duration m = true) (hk : k ≤ m) (hm : m < k + n) :
    ∃ j, k ≤ j ∧ firstPast? epsilon duration n k = some j := by
  have hexists : ∃ j, k ≤ j ∧ isPast epsilon duration j = true := ⟨m, hk, hpast⟩
  obtain ⟨hj, hjpast⟩ := Nat.find_spec hexists
  have hjm : Nat.find hexists ≤ m := Nat.find_min' hexists ⟨hk, hpast⟩
  refine ⟨Nat.find hexists, hj, firstPast?_eq_some (fun i hi hij => ?_) hjpast hj (by omega)⟩
  have hfirst := Nat.find_min hexists hij
  rw [← Bool.not_eq_true]
  intro hipast
  exact hfirst ⟨hi, hipast⟩

/-- The samples of a stage can be numbered if one of the numbers comes too late. -/
theorem isSome_sampleCount?_iff {α : Type} [Scalar α] {epsilon duration : α} :
    (sampleCount? epsilon duration).isSome = true ↔
      ∃ k, 1 ≤ k ∧ k ≤ maxSample ∧ isPast epsilon duration k = true := by
  unfold sampleCount?
  rw [Option.isSome_map, Option.isSome_iff_exists]
  constructor
  · rintro ⟨k, hfirst⟩
    obtain ⟨hone, hlast⟩ := bounds_of_firstPast? hfirst
    exact ⟨k, hone, by omega, isPast_of_firstPast? hfirst⟩
  · rintro ⟨k, hone, hlast, hpast⟩
    obtain ⟨j, -, hfirst⟩ := exists_firstPast? (n := maxSample) hpast hone (by omega)
    exact ⟨j, hfirst⟩

section

variable {ε d : ℝ}

/-- The multiples of the step reach the end of a stage that does not last for too many steps. -/
theorem exists_sampleCount? (hε : 0 < ε) (hd : 0 < d) (hratio : d / ε ≤ 2 ^ 31 - 2) :
    ∃ m, sampleCount? (real ε) (real d) = some m ∧ d - 1 * 10 ^ (-12 : ℤ) ≤ (m + 1 : ℕ) * ε := by
  have hpositive : 0 < ⌈d / ε⌉₊ := Nat.ceil_pos.2 (div_pos hd hε)
  have hnumbered : ⌈d / ε⌉₊ < 1 + maxSample := by
    have hceil : ⌈d / ε⌉₊ ≤ 2 ^ 31 - 2 := by
      refine Nat.ceil_le.2 ?_
      norm_num at hratio ⊢
      exact hratio
    unfold maxSample
    omega
  have hreached : isPast (real ε) (real d) ⌈d / ε⌉₊ = true := by
    have hle : d ≤ ⌈d / ε⌉₊ * ε := (div_le_iff₀ hε).1 (Nat.le_ceil (d / ε))
    have hslack : (0 : ℝ) < 1 * 10 ^ (-12 : ℤ) := by positivity
    rw [isPast_real]
    linarith
  obtain ⟨j, hj, hfirst⟩ := exists_firstPast? hreached hpositive hnumbered
  refine ⟨j - 1, by rw [sampleCount?, hfirst]; rfl, ?_⟩
  rw [Nat.sub_add_cancel hj, ← isPast_real]
  exact isPast_of_firstPast? hfirst

/-! ## Multiples and the end -/

/-- The first multiples of a step, and a time behind them. -/
noncomputable def gridTimes (ε : ℝ) (m : ℕ) (d : ℝ) : List ℝ :=
  (List.range' 1 m).map (fun k : ℕ => (k : ℝ) * ε) ++ [d]

theorem sampleOffsets_eq_gridTimes {m : ℕ} (hε : 0 < ε)
    (hcount : sampleCount? (real ε) (real d) = some m) :
    sampleOffsets (real ε) (real d) = (gridTimes ε m d).map real := by
  have hpositive : Scalar.lt Scalar.zero (real ε) = true := by
    rw [Exact.zero_eq, Exact.lt_real]
    exact hε
  unfold sampleOffsets gridTimes
  rw [if_pos hpositive, hcount]
  simp [sampleTime]

/-- From zero on, multiples are a step apart, and the time behind them is as far from the last one. -/
theorem isChain_gridTimes {m : ℕ} {δ : ℝ} (hδ : 0 ≤ δ) (hend : d - m * ε ≤ ε + δ) :
    (0 :: gridTimes ε m d).IsChain (fun t t' => t' - t ≤ ε + δ) := by
  have hmultiples : 0 :: gridTimes ε m d =
      (List.range (m + 1)).map (fun k : ℕ => (k : ℝ) * ε) ++ [d] := by
    rw [List.range_eq_range', List.range'_succ, List.map_cons, Nat.cast_zero, zero_mul]
    rfl
  rw [hmultiples, List.isChain_append]
  refine ⟨?_, List.isChain_singleton d, ?_⟩
  · rw [List.isChain_map, List.isChain_range_succ]
    intro k _
    push_cast
    linarith
  · intro t ht t' ht'
    rw [List.range_succ, List.map_append, List.map_singleton, List.getLast?_concat] at ht
    obtain rfl : (m : ℝ) * ε = t := Option.some.inj ht
    obtain rfl : d = t' := Option.some.inj ht'
    exact hend

/-- The samples of a stage begin with the multiples of the step, none of which is missing, and end with
the end of the stage. They increase from behind the start of the stage, and neighbours are no further
apart than a step and the slack. -/
theorem sampleOffsets_cover (hε : 0 < ε) (hd : 0 < d) (hratio : d / ε ≤ 2 ^ 31 - 2) :
    ∃ (m : ℕ) (times : List ℝ), sampleOffsets (real ε) (real d) = times.map real ∧
      times = (List.range' 1 m).map (fun k : ℕ => (k : ℝ) * ε) ++ [d] ∧
      times.Pairwise (· < ·) ∧ (∀ t ∈ times, 0 < t ∧ t ≤ d) ∧
      (0 :: times).IsChain fun t t' => t' - t ≤ ε + 1 / 10 ^ 12 := by
  obtain ⟨m, hcount, hend⟩ := exists_sampleCount? hε hd hratio
  obtain ⟨times, htimes, hpairwise, hwithin⟩ := exists_times (real ε) hd
  have hgrid : times = gridTimes ε m d := by
    have hinjective : Function.Injective real := fun _ _ h => Exact.real.inj h
    exact List.map_injective_iff.2 hinjective
      (htimes.symm.trans (sampleOffsets_eq_gridTimes hε hcount))
  refine ⟨m, times, htimes, hgrid, hpairwise, hwithin, ?_⟩
  rw [hgrid]
  refine isChain_gridTimes (by positivity) ?_
  norm_num at hend ⊢
  linarith

/-- The samples, at halves, of a stage of six fifths. -/
theorem sampleOffsets_cover_halves : (0 : ℝ) < 1 / 2 ∧ (0 : ℝ) < 6 / 5 ∧
    (6 / 5 : ℝ) / (1 / 2) ≤ 2 ^ 31 - 2 ∧
    sampleOffsets (real (1 / 2)) (real (6 / 5)) = [real (1 / 2), real 1, real (6 / 5)] := by
  have hstep : (0 : ℝ) < 1 / 2 := by norm_num
  have hstage : (0 : ℝ) < 6 / 5 := by norm_num
  have hratio : (6 / 5 : ℝ) / (1 / 2) ≤ 2 ^ 31 - 2 := by norm_num
  refine ⟨hstep, hstage, hratio, ?_⟩
  obtain ⟨m, times, htimes, rfl, -, hwithin, hchain⟩ := sampleOffsets_cover hstep hstage hratio
  have hm : m < 3 := by
    by_contra hge
    have hmem : (3 : ℕ) ∈ List.range' 1 m := List.mem_range'_1.2 (by omega)
    have hlate := (hwithin _ (List.mem_append_left _ (List.mem_map_of_mem hmem))).2
    norm_num at hlate
  -- with fewer multiples the end is too far away
  obtain rfl | rfl | rfl : m = 0 ∨ m = 1 ∨ m = 2 := by omega
  · norm_num at hchain
  · norm_num [List.range'] at hchain
  · rw [htimes]
    norm_num [List.range']

end

end HybridPlan
