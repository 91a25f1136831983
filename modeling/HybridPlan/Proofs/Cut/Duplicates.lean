import HybridPlan.Proofs.Cut.Calls
import HybridPlan.Proofs.Domain.Acceptance

set_option autoImplicit false

/-! # Duplicates of cuts

A key holds the anchor in billionths, as a 64-bit integer. So a violation is refused for a cut whose
anchor is at most a billionth away or, if both anchors have more billionths than such integers can
count, for a cut that is anywhere on the same side. -/

namespace HybridPlan

namespace Exact

/-! ## The nearest integers -/

variable {x y : ℝ}

theorem abs_nearest_sub_le (x : ℝ) : |(nearest x : ℝ) - x| ≤ 1 / 2 := by
  unfold nearest
  rw [abs_le]
  split
  · have hle := Int.floor_le (x + 1 / 2)
    have hlt := Int.lt_floor_add_one (x + 1 / 2)
    constructor <;> linarith
  · have hle := Int.le_ceil (x - 1 / 2)
    have hlt := Int.ceil_lt_add_one (x - 1 / 2)
    constructor <;> linarith

theorem le_nearest {n : ℤ} (h : n + 1 / 2 ≤ x) : n ≤ nearest x := by
  have hx := abs_le.1 (abs_nearest_sub_le x)
  exact_mod_cast show (n : ℝ) ≤ nearest x by linarith

theorem abs_sub_le_of_nearest_eq (h : nearest x = nearest y) : |x - y| ≤ 1 := by
  have hx := abs_le.1 (abs_nearest_sub_le x)
  have hy := abs_le.1 (abs_nearest_sub_le y)
  rw [h] at hx
  rw [abs_le]
  constructor <;> linarith

/-- Numbers with as many billionths, to the nearest, are at most one billionth apart. -/
theorem abs_sub_le_of_nearest_billionths (h : nearest (x * 10 ^ 9) = nearest (y * 10 ^ 9)) :
    |x - y| ≤ 1 / 10 ^ 9 := by
  have hpos : (0 : ℝ) < 10 ^ 9 := by norm_num
  rw [le_div_iff₀ hpos, ← abs_of_pos hpos, ← abs_mul, sub_mul]
  exact abs_sub_le_of_nearest_eq h

/-- The nearest integers of both numbers are at or beyond the same end of the 64-bit integers. -/
def Saturate (x y : ℝ) : Prop :=
  (Int64.maxValue.toInt ≤ nearest x ∧ Int64.maxValue.toInt ≤ nearest y) ∨
    (nearest x ≤ Int64.minValue.toInt ∧ nearest y ≤ Int64.minValue.toInt)

theorem toInt_nearest64 (x : ℝ) : (Scalar.nearest64 (real x)).toInt =
    max Int64.minValue.toInt (min Int64.maxValue.toInt (nearest x)) := by
  have hmin : Int64.minValue.toInt = -2 ^ 63 := rfl
  have hmax : Int64.maxValue.toInt = 2 ^ 63 - 1 := rfl
  refine Int64.toInt_ofInt_of_le ?_ ?_ <;> omega

theorem nearest64_eq_iff : Scalar.nearest64 (real x) = Scalar.nearest64 (real y) ↔
    nearest x = nearest y ∨ Saturate x y := by
  have hends : Int64.minValue.toInt < Int64.maxValue.toInt := by decide
  rw [← Int64.toInt_inj, toInt_nearest64, toInt_nearest64, Saturate]
  omega

end Exact

open Exact

/-- The anchor of a violation between two times of a stage, in real numbers. -/
noncomputable def OffsetMode.anchor (offset intervalEnd duration : ℝ) : OffsetMode → ℝ
  | .absolute => offset
  | .relative => (offset + intervalEnd) / (2 : ℕ) / duration

theorem CutKey.of_eq_iff {stage stage' constraint constraint' : Nat} {mode mode' : OffsetMode}
    {a b : ℝ} :
    CutKey.of stage constraint mode (real a) = CutKey.of stage' constraint' mode' (real b) ↔
      stage = stage' ∧ constraint = constraint' ∧ mode = mode' ∧
        (nearest (a * 10 ^ 9) = nearest (b * 10 ^ 9) ∨ Saturate (a * 10 ^ 9) (b * 10 ^ 9)) := by
  have hscale (a : ℝ) : real a * Scalar.nat 1000000000 = real (a * 10 ^ 9) := by
    rw [nat_eq, real_mul_real]
    norm_num
  rw [CutKey.of, CutKey.of, CutKey.mk.injEq, hscale, hscale, nearest64_eq_iff]

namespace Violation

variable {v : Violation Exact} {o e d : ℝ}

theorem anchor_eq (hoffset : v.offset = real o) (hend : v.intervalEnd = real e)
    (hduration : v.duration = real d) (hd : 0 < d) (mode : OffsetMode) :
    v.anchor mode = real (mode.anchor o e d) := by
  cases mode with
  | absolute => exact hoffset
  | relative =>
    have hmiddle : v.anchorOffset .relative = real ((o + e) / (2 : ℕ)) := by
      rw [anchorOffset, hoffset, hend, real_add_real, nat_eq, real_div_real (by norm_num)]
    rw [anchor, anchorFraction, fractionOf, hmiddle, hduration, if_pos (by simpa using hd),
      real_div_real hd.ne']
    rfl

end Violation

namespace CutStore

variable {v : Violation Exact} {o e d : ℝ}

/-- Whatever has been called before, a violation is refused only for a stored cut of its stage, constraint
and mode whose anchor is at most a billionth away, or whose anchor and its own both have more billionths
than a 64-bit integer can count. And for each cut of the latter kind it is refused, however far away the
anchor is. -/
theorem refuses_near_or_saturated (calls : List (StoreCall Exact)) (p : Problem Exact)
    (mode : OffsetMode) (i : Nat)
    (hstored : ∀ c ∈ (after calls).items.toList, ∃ b, c.anchor = real b)
    (hoffset : v.offset = real o) (hend : v.intervalEnd = real e) (hduration : v.duration = real d)
    (hd : 0 < d) :
    (((after calls).add p v mode i).1 = false →
      ∃ c ∈ (after calls).items.toList,
        c.stage = v.stage ∧ c.constraint = v.constraint ∧ c.mode = mode ∧ ∃ b, c.anchor = real b ∧
          (|b - mode.anchor o e d| ≤ 1 / 10 ^ 9 ∨
            Saturate (b * 10 ^ 9) (mode.anchor o e d * 10 ^ 9))) ∧
      ∀ c ∈ (after calls).items.toList,
        c.stage = v.stage → c.constraint = v.constraint → c.mode = mode →
          ∀ b, c.anchor = real b → Saturate (b * 10 ^ 9) (mode.anchor o e d * 10 ^ 9) →
            ((after calls).add p v mode i).1 = false := by
  have hanchor := Violation.anchor_eq hoffset hend hduration hd mode
  rw [add_answer, Bool.not_eq_false', (distinct_after calls).contains_iff]
  constructor
  · rintro ⟨c, hc, hkey⟩
    obtain ⟨b, hb⟩ := hstored c hc
    rw [Cut.key, hb, Violation.key, hanchor, CutKey.of_eq_iff] at hkey
    obtain ⟨hstage, hconstraint, hmode, hnearest⟩ := hkey
    exact ⟨c, hc, hstage, hconstraint, hmode, b, hb,
      hnearest.imp_left abs_sub_le_of_nearest_billionths⟩
  · intro c hc hstage hconstraint hmode b hb hsaturate
    refine ⟨c, hc, ?_⟩
    rw [Cut.key, hb, Violation.key, hanchor, CutKey.of_eq_iff]
    exact ⟨hstage, hconstraint, hmode, .inr hsaturate⟩

/-- A violation at a time in a stage of thirty thousand million. -/
noncomputable def distantViolation (offset : Nat) : Violation Exact where
  stage := 0
  constraint := 0
  offset := Scalar.nat offset
  intervalStart := Scalar.zero
  crossing := Scalar.nat offset
  intervalEnd := Scalar.nat offset
  duration := Scalar.nat 30000000000
  residual := Scalar.one
  state := []

/-- The first violation is stored. -/
theorem items_after_add (p : Problem Exact) (v : Violation Exact) (mode : OffsetMode) (i : Nat) :
    (after [.add p v mode i]).items.toList = [v.cut p mode i] := by
  have hnew : ¬({} : CutStore Exact).keys.contains (v.key mode) := by simp
  change (CutStore.add {} p v mode i).2.1.items.toList = _
  rw [add_of_new _ p i hnew]
  rfl

/-- The only stored cut is ten thousand million away. -/
theorem refuses_distant : ∃ P : ReadProblem Exact, P.source = Waiting.source .le ∧
    ((after [.add P.problem (distantViolation 10000000000) .absolute 0]).add P.problem
      (distantViolation 20000000000) .absolute 1).1 = false ∧
    ∀ c ∈ (after [.add P.problem (distantViolation 10000000000) .absolute 0]).items.toList,
      ∃ b, c.anchor = real b ∧ |b - 20000000000| = 10000000000 := by
  obtain ⟨P, hsource, -⟩ := Waiting.exists_default .le
  have hanchor : ((distantViolation 10000000000).cut P.problem .absolute 0).anchor =
    real 10000000000 := nat_eq 10000000000
  have hstored : ∀ c ∈ (after [.add P.problem (distantViolation 10000000000) .absolute
      0]).items.toList, c.anchor = real 10000000000 := by
    rw [items_after_add]
    simpa using hanchor
  have hmax : Int64.maxValue.toInt = 2 ^ 63 - 1 := rfl
  have hsaturate : Saturate (10000000000 * 10 ^ 9)
      (OffsetMode.absolute.anchor 20000000000 20000000000 30000000000 * 10 ^ 9) := by
    refine .inl ⟨le_nearest ?_, le_nearest ?_⟩
    · rw [hmax]
      norm_num
    · rw [hmax]
      norm_num [OffsetMode.anchor]
  obtain ⟨-, hrefuses⟩ := refuses_near_or_saturated
    [.add P.problem (distantViolation 10000000000) .absolute 0] P.problem .absolute 1
    (fun c hc => ⟨_, hstored c hc⟩) (v := distantViolation 20000000000) (nat_eq 20000000000)
    (nat_eq 20000000000) (nat_eq 30000000000) (by norm_num)
  refine ⟨P, hsource, ?_, fun c hc => ⟨_, hstored c hc, by norm_num⟩⟩
  exact hrefuses _ (by simp [items_after_add]) rfl rfl rfl _ hanchor hsaturate

end CutStore

end HybridPlan
