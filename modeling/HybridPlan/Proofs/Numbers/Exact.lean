import HybridPlan.Expr.Basic
import Mathlib.Algebra.Order.Floor.Defs
import Mathlib.Algebra.Order.Monoid.WithTop
import Mathlib.Analysis.SpecialFunctions.Pow.Real
import Mathlib.Analysis.SpecialFunctions.Trigonometric.Basic

set_option autoImplicit false

/-! # Exact numbers

The scalars of a calculation without rounding: the real numbers, two infinities that serve as bounds
only, and one undefined number, which is the result of every operation that has no real one: division
by zero, the logarithm of zero, the square root of a negative number, and arithmetic with
infinities. There is one zero. -/

namespace HybridPlan

/-- A real number, an infinity, or undefined. -/
inductive Exact where
  | real (x : ℝ)
  | infinite (negative : Bool)
  | undefined

namespace Exact

/-! ## Operations -/

/-- An operation on real numbers, if they have a result. -/
noncomputable def lift (f : ℝ → Option ℝ) : Exact → Exact
  | real x => (f x).elim undefined real
  | infinite _ | undefined => undefined

/-- The same of two numbers. -/
noncomputable def lift₂ (f : ℝ → ℝ → Option ℝ) : Exact → Exact → Exact
  | real x, u => lift (f x) u
  | infinite _, _ | undefined, _ => undefined

/-- The opposite, of infinities as well. -/
noncomputable def neg : Exact → Exact
  | real x => real (-x)
  | infinite n => infinite !n
  | undefined => undefined

noncomputable def abs : Exact → Exact
  | real x => real |x|
  | infinite _ => infinite false
  | undefined => undefined

def Lt : Exact → Exact → Prop
  | real x, real y => x < y
  | infinite n, real _ => n
  | real _, infinite n => !n
  | infinite n, infinite m => n && !m
  | undefined, _ | _, undefined => False

def Le : Exact → Exact → Prop
  | real x, real y => x ≤ y
  | infinite n, real _ => n
  | real _, infinite n => !n
  | infinite n, infinite m => n || !m
  | undefined, _ | _, undefined => False

open Classical in
/-- The integer that a real number is, if it is one. -/
noncomputable def toInt? (x : ℝ) : Option ℤ := if ⌊x⌋ = x then some ⌊x⌋ else none

/-- The nearest integer, halves going away from zero. -/
noncomputable def nearest (x : ℝ) : ℤ := if 0 ≤ x then ⌊x + 1 / 2⌋ else ⌈x - 1 / 2⌉

/-- A power of real numbers: with an integer exponent unless it divides by zero, with another one if
the base is not negative. Zero has positive powers only. -/
noncomputable def pow (x y : ℝ) : Option ℝ :=
  match toInt? y with
  | some n => if x = 0 ∧ n < 0 then none else some (x ^ n)
  | none => if x < 0 ∨ x = 0 ∧ y < 0 then none else some (x ^ y)

open Classical in
noncomputable instance : Scalar Exact where
  neg := neg
  add := lift₂ fun x y => some (x + y)
  sub := lift₂ fun x y => some (x - y)
  mul := lift₂ fun x y => some (x * y)
  div := lift₂ fun x y => if y = 0 then none else some (x / y)
  hash _ := 0
  decEq := Classical.decEq Exact
  ofDecimal digits exponent := real (digits * 10 ^ exponent)
  infinity := infinite false
  undefined := undefined
  lt u v := decide (Lt u v)
  le u v := decide (Le u v)
  eq u v := decide (u = v ∧ u ≠ undefined)
  abs := abs
  exp := lift fun x => some (Real.exp x)
  log := lift fun x => if 0 < x then some (Real.log x) else none
  sqrt := lift fun x => if 0 ≤ x then some (Real.sqrt x) else none
  sin := lift fun x => some (Real.sin x)
  cos := lift fun x => some (Real.cos x)
  pow := lift₂ pow
  toInt?
    | real x => toInt? x
    | infinite _ | undefined => none
  nearest64
    | real x => Int64.ofInt (max Int64.minValue.toInt (min Int64.maxValue.toInt (nearest x)))
    | infinite n => if n then Int64.minValue else Int64.maxValue
    | undefined => 0
  -- a real number need not have a finite notation, so only its integer part is written
  text
    | real x => toString ⌊x⌋
    | infinite n => if n then "-inf" else "inf"
    | undefined => "NaN"

/-! ## Results of operations -/

variable {f : ℝ → Option ℝ} {g : ℝ → ℝ → Option ℝ} {u v : Exact} {x y r : ℝ}

theorem lift_eq_real : lift f u = real r ↔ ∃ x, u = real x ∧ f x = some r := by
  cases u with
  | real x =>
    rw [lift]
    cases hx : f x <;> simp [hx]
  | infinite n => simp [lift]
  | undefined => simp [lift]

theorem lift₂_eq_real :
    lift₂ g u v = real r ↔ ∃ x y, u = real x ∧ v = real y ∧ g x y = some r := by
  cases u with
  | real x => simp [lift₂, lift_eq_real]
  | infinite n => simp [lift₂]
  | undefined => simp [lift₂]

theorem neg_eq_real : -u = real r ↔ ∃ x, u = real x ∧ -x = r := by
  change neg u = real r ↔ _
  cases u <;> simp [neg]

theorem add_eq_real : u + v = real r ↔ ∃ x y, u = real x ∧ v = real y ∧ x + y = r :=
  lift₂_eq_real.trans (by simp)

theorem sub_eq_real : u - v = real r ↔ ∃ x y, u = real x ∧ v = real y ∧ x - y = r :=
  lift₂_eq_real.trans (by simp)

theorem mul_eq_real : u * v = real r ↔ ∃ x y, u = real x ∧ v = real y ∧ x * y = r :=
  lift₂_eq_real.trans (by simp)

theorem div_eq_real :
    u / v = real r ↔ ∃ x y, u = real x ∧ v = real y ∧ y ≠ 0 ∧ x / y = r :=
  lift₂_eq_real.trans (by simp)

theorem pow_eq_real :
    Scalar.pow u v = real r ↔ ∃ x y, u = real x ∧ v = real y ∧ pow x y = some r :=
  lift₂_eq_real

theorem log_eq_real : Scalar.log u = real r ↔ ∃ x, u = real x ∧ 0 < x ∧ Real.log x = r :=
  lift_eq_real.trans (by simp)

theorem sqrt_eq_real : Scalar.sqrt u = real r ↔ ∃ x, u = real x ∧ 0 ≤ x ∧ Real.sqrt x = r :=
  lift_eq_real.trans (by simp)

/-- A function has a real value at real numbers only. -/
theorem value_eq_real {h : Elementary} :
    h.value u = real r ↔ ∃ x, u = real x ∧ h.value (real x) = real r := by
  have hlift (f : ℝ → Option ℝ) :
      lift f u = real r ↔ ∃ x, u = real x ∧ lift f (real x) = real r := by
    cases u <;> simp [lift]
  cases h with
  | exp | log | sqrt | sin | cos => exact hlift _
  | abs =>
    change abs u = real r ↔ ∃ x, u = real x ∧ abs (real x) = real r
    cases u <;> simp [abs]

@[simp] theorem neg_real : -real x = real (-x) := rfl

@[simp] theorem real_add_real : real x + real y = real (x + y) := rfl

@[simp] theorem real_sub_real : real x - real y = real (x - y) := rfl

@[simp] theorem real_mul_real : real x * real y = real (x * y) := rfl

theorem real_div_real (hy : y ≠ 0) : real x / real y = real (x / y) :=
  div_eq_real.2 ⟨x, y, rfl, rfl, hy, rfl⟩

/-- A quotient is no infinity. -/
theorem div_cases (u v : Exact) : u / v = undefined ∨ ∃ r, u / v = real r := by
  rcases u with x | n | _
  · rcases v with y | n | _
    · by_cases hy : y = 0
      · exact .inl (by simp [HDiv.hDiv, Div.div, lift₂, lift, hy])
      · exact .inr ⟨x / y, real_div_real hy⟩
    · exact .inl rfl
    · exact .inl rfl
  · exact .inl rfl
  · exact .inl rfl

@[simp] theorem abs_real : Scalar.abs (real x) = real |x| := rfl

/-! ## Numbers and order -/

@[simp] theorem nat_eq (n : ℕ) : (Scalar.nat n : Exact) = real n := by
  change real (n * 10 ^ (0 : ℤ)) = real n
  rw [zpow_zero, mul_one]

theorem int_natCast (n : ℕ) : (Scalar.int n : Exact) = real n := by
  rw [Scalar.int, if_neg (Int.natCast_nonneg n).not_gt, nat_eq, Int.natAbs_natCast]

@[simp] theorem zero_eq : (Scalar.zero : Exact) = real 0 := by
  rw [Scalar.zero, nat_eq, Nat.cast_zero]

@[simp] theorem one_eq : (Scalar.one : Exact) = real 1 := by
  rw [Scalar.one, nat_eq, Nat.cast_one]

theorem lt_iff : Scalar.lt u v = true ↔ Lt u v :=
  @decide_eq_true_iff _ (Classical.propDecidable _)

theorem le_iff : Scalar.le u v = true ↔ Le u v :=
  @decide_eq_true_iff _ (Classical.propDecidable _)

theorem eq_iff : Scalar.eq u v = true ↔ u = v ∧ u ≠ undefined :=
  @decide_eq_true_iff _ _

@[simp] theorem lt_real : Scalar.lt (real x) (real y) = true ↔ x < y := lt_iff

@[simp] theorem le_real : Scalar.le (real x) (real y) = true ↔ x ≤ y := le_iff

@[simp] theorem eq_real : Scalar.eq u (real x) = true ↔ u = real x := by
  rw [eq_iff]
  constructor
  · rintro ⟨rfl, -⟩
    rfl
  · rintro rfl
    simp

@[simp] theorem real_le_infinity : Scalar.le (real x) (Scalar.infinity : Exact) = true :=
  le_iff.2 rfl

@[simp] theorem neg_infinity_le_real : Scalar.le (-Scalar.infinity : Exact) (real x) = true :=
  le_iff.2 rfl

theorem isFinite_iff : Scalar.isFinite u = true ↔ ∃ x, u = real x := by
  have hlt : Scalar.isFinite u = true ↔ Lt (abs u) (infinite false) := lt_iff
  rw [hlt]
  cases u <;> simp [abs, Lt]

@[simp] theorem isFinite_real : Scalar.isFinite (real x) = true := isFinite_iff.2 ⟨x, rfl⟩

@[simp] theorem isUndefined_real : Scalar.isUndefined (real x) = false := by
  simp [Scalar.isUndefined]

@[simp] theorem isUndefined_undefined : Scalar.isUndefined undefined = true := by
  rw [Scalar.isUndefined, Bool.not_eq_true', Bool.eq_false_iff]
  exact fun h => (eq_iff.1 h).2 rfl

theorem isZero_iff : Scalar.isZero u = true ↔ u = real 0 := by
  rw [Scalar.isZero, zero_eq, eq_real]

@[simp] theorem unsignedZero_eq : Scalar.unsignedZero u = u := by
  unfold Scalar.unsignedZero
  split
  · next h => rw [isZero_iff.1 h, zero_eq]
  · rfl

@[simp] theorem max_real : Scalar.max (real x) (real y) = real (max x y) := by
  unfold Scalar.max
  by_cases h : y < x
  · simp [h, max_eq_left h.le]
  · simp [h, max_eq_right (not_lt.1 h)]

@[simp] theorem min_real : Scalar.min (real x) (real y) = real (min x y) := by
  unfold Scalar.min
  by_cases h : x < y
  · simp [h, min_eq_left h.le]
  · simp [h, min_eq_right (not_lt.1 h)]

@[simp] theorem max_neg_infinity : Scalar.max (-Scalar.infinity) (real x) = real x := by
  have hdefined : Scalar.isUndefined (-Scalar.infinity : Exact) = false := by
    rw [Scalar.isUndefined, eq_iff.2 ⟨rfl, by rintro ⟨⟩⟩, Bool.not_true]
  have hlt : Scalar.lt (real x) (-Scalar.infinity : Exact) = false :=
    Bool.eq_false_iff.2 fun h => (by cases lt_iff.1 h)
  simp [Scalar.max, hdefined, hlt]

@[simp] theorem min_infinity : Scalar.min Scalar.infinity (real x) = real x := by
  have hdefined : Scalar.isUndefined (Scalar.infinity : Exact) = false := by
    rw [Scalar.isUndefined, eq_iff.2 ⟨rfl, by rintro ⟨⟩⟩, Bool.not_true]
  have hlt : Scalar.lt (Scalar.infinity : Exact) (real x) = false :=
    Bool.eq_false_iff.2 fun h => (by cases lt_iff.1 h)
  simp [Scalar.min, hdefined, hlt]

/-! ## Sums -/

/-- The real number, with one more element for all that is none. -/
def part : Exact → WithTop ℝ
  | real x => x
  | infinite _ | undefined => ⊤

theorem part_eq : part u = r ↔ u = real r := by
  cases u <;> simp [part]

theorem part_add : part (u + v) = part u + part v := by
  cases u with
  | real x =>
    cases v with
    | real y => rfl
    | infinite | undefined => exact (add_top (x : WithTop ℝ)).symm
  | infinite | undefined => exact (top_add (part v)).symm

theorem part_foldl (us : List Exact) (u : Exact) :
    part (us.foldl (· + ·) u) = part u + (us.map part).sum := by
  induction us generalizing u with
  | nil => simp
  | cons v us ih => rw [List.foldl_cons, ih, part_add, List.map_cons, List.sum_cons, add_assoc]

theorem part_zero : part (Scalar.zero : Exact) = 0 := by
  rw [zero_eq]
  rfl

/-- The sum is the sum of the real numbers, if all of them are real. -/
theorem part_sum (us : List Exact) : part (Scalar.sum us) = (us.map part).sum := by
  have hzero : (-Scalar.zero : Exact) = Scalar.zero := by simp
  rw [Scalar.sum, part_foldl, hzero, part_zero, zero_add]

theorem sum_real (rs : List ℝ) : Scalar.sum (rs.map real) = real rs.sum := by
  rw [← part_eq, part_sum, List.map_map]
  induction rs with
  | nil => rfl
  | cons r rs ih => rw [List.map_cons, List.sum_cons, ih, List.sum_cons, WithTop.coe_add]; rfl

/-- A sum is real only if all of it is. -/
theorem sum_eq_real {us : List Exact} :
    Scalar.sum us = real r ↔ ∃ rs : List ℝ, us = rs.map real ∧ rs.sum = r := by
  constructor
  · intro h
    rw [← part_eq, part_sum] at h
    induction us generalizing r with
    | nil => exact ⟨[], rfl, WithTop.coe_injective h⟩
    | cons u us ih =>
      obtain ⟨x, s, hx, hs, rfl⟩ := WithTop.add_eq_coe.1 h
      obtain ⟨rs, rfl, rfl⟩ := ih hs.symm
      exact ⟨x :: rs, by rw [part_eq.1 hx.symm, List.map_cons], List.sum_cons⟩
  · rintro ⟨rs, rfl, rfl⟩
    exact sum_real rs

theorem exists_real_of_sum {us : List Exact} (h : Scalar.sum us = real r) (hu : u ∈ us) :
    ∃ x, u = real x := by
  obtain ⟨rs, rfl, -⟩ := sum_eq_real.1 h
  obtain ⟨x, -, rfl⟩ := List.mem_map.1 hu
  exact ⟨x, rfl⟩

/-! ## Powers -/

theorem toInt?_eq_some {n : ℤ} : toInt? y = some n ↔ (n : ℝ) = y := by
  unfold toInt?
  split
  · next h =>
    rw [Option.some.injEq, eq_comm, ← Int.cast_inj (α := ℝ), h]
  · next h =>
    constructor
    · rintro ⟨⟩
    · rintro rfl
      exact absurd (by rw [Int.floor_intCast]) h

theorem toInt?_real : Scalar.toInt? (real y) = toInt? y := rfl

/-- Repeated squaring computes powers. -/
theorem power_real (m a : ℝ) (k : ℕ) : Scalar.power (real m) (real a) k = real (m * a ^ k) := by
  induction k using Nat.strong_induction_on generalizing m a with
  | _ k ih =>
    unfold Scalar.power
    by_cases hk : k ≤ 1
    · rw [if_pos hk]
      obtain rfl | rfl : k = 0 ∨ k = 1 := by omega
      · simp
      · simp
    · rw [if_neg hk]
      have hlt : k / 2 < k := by omega
      have hsquare : (a * a) ^ (k / 2) = a ^ (2 * (k / 2)) := by rw [pow_mul, sq]
      by_cases hodd : k % 2 = 1
      · have hsplit : k = 1 + 2 * (k / 2) := by omega
        rw [if_pos hodd, real_mul_real, real_mul_real, ih _ hlt, hsquare, mul_assoc, ← pow_succ',
          Nat.add_comm, ← hsplit]
      · have hsplit : k = 2 * (k / 2) := by omega
        rw [if_neg hodd, real_mul_real, ih _ hlt, hsquare, ← hsplit]

theorem powInt_real (n : ℤ) : Scalar.powInt (real x) n = Scalar.pow (real x) (real n) := by
  have hpow : Scalar.pow (real x) (real n) = (pow x n).elim undefined real := rfl
  have hinteger : toInt? (n : ℝ) = some n := toInt?_eq_some.2 rfl
  rw [hpow, pow, hinteger]
  simp only [Scalar.powInt, one_eq, power_real, one_mul]
  by_cases hn : n < 0
  · have habs : x ^ n = 1 / x ^ n.natAbs := by
      rw [one_div, ← zpow_natCast, ← zpow_neg]
      congr 1
      omega
    rw [if_pos hn]
    by_cases hx : x = 0
    · -- a negative power of zero divides by zero
      have hzero : x ^ n.natAbs = 0 := by rw [hx, zero_pow (by omega)]
      rw [if_pos ⟨hx, hn⟩, hzero]
      change lift₂ (fun x y => if y = 0 then none else some (x / y)) (real 1) (real 0) = undefined
      simp [lift₂, lift]
    · rw [if_neg fun h => hx h.1, habs, real_div_real (pow_ne_zero _ hx)]
      rfl
  · have habs : x ^ n = x ^ n.natAbs := by
      rw [← zpow_natCast]
      congr 1
      omega
    rw [if_neg hn, if_neg fun h => hn h.2, habs]
    rfl

theorem pow_natCast (k : ℕ) : Scalar.pow (real x) (real k) = real (x ^ k) := by
  have h := powInt_real (x := x) k
  rw [Int.cast_natCast] at h
  rw [← h, Scalar.powInt, if_neg (by omega), one_eq, power_real, one_mul, Int.natAbs_natCast]

theorem pow_zero : Scalar.pow (real x) (real 0) = real 1 := by
  simpa using pow_natCast (x := x) 0

theorem pow_one : Scalar.pow (real x) (real 1) = real x := by
  simpa using pow_natCast (x := x) 1

/-- The power of a positive number is that of real analysis. -/
theorem pow_of_pos {x : ℝ} (hx : 0 < x) (y : ℝ) : pow x y = some (x ^ y) := by
  unfold pow
  cases hy : toInt? y with
  | some n =>
    rw [toInt?_eq_some] at hy
    dsimp only
    rw [if_neg fun h => hx.ne' h.1, ← hy, Real.rpow_intCast]
  | none =>
    dsimp only
    rw [if_neg]
    rintro (h | h)
    · exact lt_asymm h hx
    · exact hx.ne' h.1

/-- The powers of expressions and of programs agree. -/
theorem powReal_real : Scalar.powReal (real x) (real y) = Scalar.pow (real x) (real y) := by
  unfold Scalar.powReal
  cases h : Scalar.toInt? (real y) with
  | none => rfl
  | some n =>
    rw [toInt?_real, toInt?_eq_some] at h
    subst h
    dsimp only
    split
    · exact powInt_real n
    · rfl

/-- Multiplication has real results at real numbers only, so that a power of anything else is not
real unless it is the power zero. -/
theorem power_eq_real {k : ℕ} (h : Scalar.power u v k = real r) : k = 0 ∨ ∃ q, v = real q := by
  induction k using Nat.strong_induction_on generalizing u v with
  | _ k ih =>
    unfold Scalar.power at h
    by_cases hk : k ≤ 1
    · rw [if_pos hk] at h
      by_cases hone : k = 1
      · rw [if_pos hone] at h
        obtain ⟨-, q, -, hq, -⟩ := mul_eq_real.1 h
        exact .inr ⟨q, hq⟩
      · exact .inl (by omega)
    · rw [if_neg hk] at h
      obtain hzero | ⟨q, hq⟩ := ih (k / 2) (by omega) h
      · omega
      · obtain ⟨q', -, hq', -⟩ := mul_eq_real.1 hq
        exact .inr ⟨q', hq'⟩

/-- The power zero of whatever is one. -/
theorem powReal_zero (u : Exact) : Scalar.powReal u (real 0) = real 1 := by
  have hinteger : Scalar.toInt? (real 0) = some 0 := by
    rw [toInt?_real, toInt?_eq_some, Int.cast_zero]
  unfold Scalar.powReal Scalar.powInt
  rw [hinteger]
  simp [Scalar.power]

/-- Powers with real results have real parts, unless the exponent is zero. -/
theorem powReal_eq_real (h : Scalar.powReal u v = real r) :
    (∃ q q', u = real q ∧ v = real q' ∧ Scalar.powReal (real q) (real q') = real r) ∨
      v = real 0 ∧ r = 1 := by
  by_cases hzero : v = real 0
  · rw [hzero, powReal_zero] at h
    exact .inr ⟨hzero, (real.inj h).symm⟩
  have hreal : ∃ q q', u = real q ∧ v = real q' := by
    unfold Scalar.powReal at h
    split at h
    · next n hn =>
      obtain ⟨q', rfl⟩ : ∃ q', v = real q' := by
        cases v with
        | real q' => exact ⟨q', rfl⟩
        | infinite | undefined => cases hn
      split at h
      · -- the exponent is an integer other than zero
        have hn' : n.natAbs ≠ 0 := by
          intro habs
          rw [toInt?_real, toInt?_eq_some, Int.natAbs_eq_zero.1 habs, Int.cast_zero] at hn
          exact hzero (congrArg real hn.symm)
        obtain ⟨s, hs⟩ : ∃ s, Scalar.power Scalar.one u n.natAbs = real s := by
          unfold Scalar.powInt at h
          split at h
          · obtain ⟨-, s, -, hs, -⟩ := div_eq_real.1 h
            exact ⟨s, hs⟩
          · exact ⟨r, h⟩
        obtain ⟨q, hq⟩ := (power_eq_real hs).resolve_left hn'
        exact ⟨q, q', hq, rfl⟩
      · obtain ⟨q, _, hq, hq', -⟩ := pow_eq_real.1 h
        exact ⟨q, _, hq, hq'⟩
    · obtain ⟨q, q', hq, hq', -⟩ := pow_eq_real.1 h
      exact ⟨q, q', hq, hq'⟩
  obtain ⟨q, q', rfl, rfl⟩ := hreal
  exact .inl ⟨q, q', rfl, rfl, h⟩

end Exact

end HybridPlan
