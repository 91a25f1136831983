import HybridPlan.Proofs.Numbers.Monotone
import HybridPlan.Proofs.Simulation.Grid

set_option autoImplicit false

/-! # Counting the samples of a stage

The multiples of the step are collected in a loop that counts them, until one comes too late. The loop is
taken here round by round, with a number that may grow without a bound. It ends before the number has
grown beyond 31 bits exactly if the last number of 31 bits comes too late: in double precision the
multiples of a step do not decrease. So it does not end in a stage that lasts for ever, nor in one of too
many steps. -/

namespace HybridPlan

/-- The state of the loop: the number of the next multiple, and the multiples that are collected. -/
structure Sampling (α : Type) where
  number : Nat
  samples : List α

namespace Sampling

variable {α : Type} [Scalar α] {epsilon duration : α}

def start : Sampling α := ⟨1, []⟩

/-- One round of the loop. There is none from a multiple that comes too late: there the loop ends. -/
inductive Round (epsilon duration : α) : Sampling α → Sampling α → Prop
  | collect {s : Sampling α} (h : isPast epsilon duration s.number = false) :
      Round epsilon duration s ⟨s.number + 1, s.samples ++ [sampleTime epsilon s.number]⟩

/-- The loop comes to a state after some rounds. -/
def Reaches (epsilon duration : α) : Sampling α → Prop :=
  Relation.ReflTransGen (Round epsilon duration) start

/-- The loop ends, and up to then no number is larger than the largest one of 31 bits. -/
structure Completes (epsilon duration : α) : Prop where
  ends : ∃ s, Reaches epsilon duration s ∧ isPast epsilon duration s.number = true
  numbered : ∀ s, Reaches epsilon duration s → s.number ≤ maxSample

/-! ## Rounds -/

/-- No multiple up to the next number came too late, and all of them are collected. -/
structure Counts (epsilon duration : α) (s : Sampling α) : Prop where
  pos : 1 ≤ s.number
  before : ∀ k, 1 ≤ k → k < s.number → isPast epsilon duration k = false
  samples : s.samples = (List.range' 1 (s.number - 1)).map (sampleTime epsilon)

theorem counts_start : Counts epsilon duration (start : Sampling α) :=
  ⟨le_refl 1, fun _ hk hlt => absurd hk (Nat.not_le.2 hlt), rfl⟩

theorem Counts.round {s t : Sampling α} (h : Counts epsilon duration s)
    (hround : Round epsilon duration s t) : Counts epsilon duration t := by
  obtain ⟨hpast⟩ := hround
  have hpos := h.pos
  refine ⟨Nat.le_add_left 1 _, fun k hk hlt => ?_, ?_⟩
  · rcases Nat.lt_succ_iff_lt_or_eq.1 hlt with hlt | rfl
    · exact h.before k hk hlt
    · exact hpast
  · have hrange : List.range' 1 s.number = List.range' 1 (s.number - 1) ++ [s.number] := by
      have hlast := List.range'_1_concat (s := 1) (n := s.number - 1)
      rwa [Nat.sub_add_cancel hpos, Nat.add_sub_cancel' hpos] at hlast
    change s.samples ++ _ = (List.range' 1 s.number).map _
    rw [hrange, h.samples, List.map_append, List.map_singleton]

/-- The state of the loop is told by its number. -/
theorem Reaches.counts {s : Sampling α} (h : Reaches epsilon duration s) :
    Counts epsilon duration s := by
  induction h with
  | refl => exact counts_start
  | tail _ hround ih => exact ih.round hround

/-- Every number is reached up to the first multiple that comes too late. -/
theorem exists_reaches {k : Nat} (hk : 1 ≤ k)
    (hbefore : ∀ j, 1 ≤ j → j < k → isPast epsilon duration j = false) :
    ∃ s, Reaches epsilon duration s ∧ s.number = k := by
  induction k, hk using Nat.le_induction with
  | base => exact ⟨start, .refl, rfl⟩
  | succ k hk ih =>
    obtain ⟨s, hs, rfl⟩ := ih fun j hj hlt => hbefore j hj (Nat.lt_succ_of_lt hlt)
    exact ⟨_, hs.tail (.collect (hbefore s.number hk (Nat.lt_succ_self _))), rfl⟩

/-! ## Runs -/

theorem completes_iff : Completes epsilon duration ↔
    (sampleCount? epsilon duration).isSome = true := by
  rw [isSome_sampleCount?_iff]
  constructor
  · intro h
    obtain ⟨s, hs, hpast⟩ := h.ends
    exact ⟨s.number, hs.counts.pos, h.numbered s hs, hpast⟩
  · rintro ⟨k, hk, hnumbered, hpast⟩
    obtain ⟨m, hm, hfirst⟩ := exists_firstPast? (n := maxSample) hpast hk (by omega)
    have hlast := isPast_of_firstPast? hfirst
    obtain ⟨s, hs, rfl⟩ := exists_reaches hm fun j hj hlt => not_isPast_of_firstPast? hfirst hj hlt
    refine ⟨⟨s, hs, hlast⟩, fun t ht => ?_⟩
    by_contra hlarge
    rw [ht.counts.before k hk (by omega)] at hpast
    cases hpast

/-- Where the loop ends, the samples are those that it has collected, and the end of the stage. -/
theorem Reaches.sampleOffsets_eq {s : Sampling α} (h : Reaches epsilon duration s)
    (hpast : isPast epsilon duration s.number = true) (hnumbered : s.number ≤ maxSample)
    (hpositive : Scalar.lt Scalar.zero epsilon = true) :
    sampleOffsets epsilon duration = s.samples ++ [duration] := by
  have hcounts := h.counts
  have hpos := hcounts.pos
  have hfirst : firstPast? epsilon duration maxSample 1 = some s.number :=
    firstPast?_eq_some hcounts.before hpast hcounts.pos (by omega)
  have hcount : sampleCount? epsilon duration = some (s.number - 1) :=
    Option.map_eq_some_iff.2 ⟨s.number, hfirst, rfl⟩
  unfold sampleOffsets
  rw [if_pos hpositive, hcount, hcounts.samples]
  rfl

/-! ## Runs in double precision -/

section

open Binary64

variable {epsilon duration : Binary64} (hpositive : Scalar.lt Scalar.zero epsilon = true)
include hpositive

/-- The samples can be numbered exactly if the last number comes too late. -/
theorem isSome_sampleCount?_iff_last :
    (sampleCount? epsilon duration).isSome = true ↔ isPast epsilon duration maxSample = true := by
  rw [isSome_sampleCount?_iff]
  constructor
  · rintro ⟨k, hk, hnumbered, hpast⟩
    exact le_multiple hpositive hk hnumbered (by decide) hpast
  · intro hpast
    exact ⟨maxSample, by decide, le_refl _, hpast⟩

/-- In a stage that lasts for ever the loop does not end, unless the multiples become infinite. -/
theorem not_completes_infinity
    (hfinite : Scalar.lt (sampleTime epsilon maxSample) Scalar.infinity = true) :
    ¬Completes epsilon Scalar.infinity := by
  obtain ⟨hdefined, hinfinity⟩ := infinity_eq
  have hfloat : (Binary64.number (1 / 0) hdefined).toFloat = 1 / 0 := rfl
  have hend : (Scalar.infinity - sampleSlack : Binary64) = Scalar.infinity :=
    eq_of_eq_infinity (by decide +kernel)
  rw [completes_iff, isSome_sampleCount?_iff_last hpositive, isPast, hend, hinfinity, le_eq, hfloat,
    unpack_infinity]
  rw [hinfinity, lt_eq, hfloat, unpack_infinity] at hfinite
  intro hpast
  cases hlast : (sampleTime epsilon maxSample).toFloat.toModel.unpack with
  | infinity s =>
    rw [hlast] at hfinite hpast
    cases s with
    | positive => cases hfinite
    | negative => cases hpast
  | zero s | finite s n i h | notANumber =>
    rw [hlast] at hpast
    cases hpast

/-- Whether the loop ends within the numbers of 31 bits is told by the last of them: it ends exactly if
that multiple, in double precision, comes too late. Then it has collected the samples of the stage. -/
theorem completes_iff_last :
    (Completes epsilon duration ↔ isPast epsilon duration maxSample = true) ∧
      ∀ s, Reaches epsilon duration s → isPast epsilon duration s.number = true →
        s.number ≤ maxSample → sampleOffsets epsilon duration = s.samples ++ [duration] := by
  refine ⟨?_, fun s hs hpast hnumbered => hs.sampleOffsets_eq hpast hnumbered hpositive⟩
  rw [completes_iff]
  exact isSome_sampleCount?_iff_last hpositive

end

/-- With steps of a tenth the loop does not end in a stage that lasts for ever. -/
theorem completes_iff_last_tenth :
    Scalar.lt Scalar.zero (Scalar.ofDecimal 1 (-1) : Binary64) = true ∧
      ¬Completes (Scalar.ofDecimal 1 (-1) : Binary64) Scalar.infinity := by
  have hpositive : Scalar.lt Scalar.zero (Scalar.ofDecimal 1 (-1) : Binary64) = true := by decide
  have hlast : isPast (Scalar.ofDecimal 1 (-1) : Binary64) Scalar.infinity maxSample = false := by
    decide +kernel
  refine ⟨hpositive, fun hcompletes => ?_⟩
  rw [(completes_iff_last hpositive).1.1 hcompletes] at hlast
  cases hlast

end Sampling

end HybridPlan
