import Mathlib

set_option autoImplicit false

/-! # Rounding to double precision

An operation on numbers in double precision computes the leading bits of the exact result, and two bits
that tell what follows them. From these it rounds to the nearest number, a tie to the even one.
Whatever lies among the reals that are nearest to a number is therefore rounded to it. -/

namespace HybridPlan.Rounding

open Float.Model Float.Model.UnpackedFloat

/-! ## Leading bits -/

/-- Where a number lies that has the leading bits. -/
def Locates (em : ExtendedMantissa) (x : ℚ) : Prop :=
  match em.roundBit, em.stickyBit with
  | false, false => x = em.mantissa
  | false, true => em.mantissa < x ∧ x < em.mantissa + 1 / 2
  | true, false => x = em.mantissa + 1 / 2
  | true, true => em.mantissa + 1 / 2 < x ∧ x < em.mantissa + 1

namespace Locates

variable {em : ExtendedMantissa} {x : ℚ}

theorem bounds (h : Locates em x) : em.mantissa ≤ x ∧ x < em.mantissa + 1 := by
  obtain ⟨m, r, s⟩ := em
  cases r <;> cases s <;> simp only [Locates] at h ⊢ <;> constructor <;> linarith

/-- One more bit is cut off. -/
theorem shiftRightOne (h : Locates em x) : Locates em.shiftRightOne (x / 2) := by
  obtain ⟨m, r, s⟩ := em
  have hdiv : ((m % 2 : ℕ) : ℚ) + 2 * ((m / 2 : ℕ) : ℚ) = m := by exact_mod_cast Nat.mod_add_div m 2
  rcases Nat.mod_two_eq_zero_or_one m with hm | hm <;> rw [hm] at hdiv <;> push_cast at hdiv <;>
    cases r <;> cases s <;>
    simp only [Locates, ExtendedMantissa.shiftRightOne, hm, Bool.or_false, Bool.or_true, bne_self_eq_false, Nat.reduceBneDiff, Bool.or_self] at h ⊢ <;>
    (first | constructor <;> linarith | linarith)

theorem shiftRight (h : Locates em x) (n : ℕ) : Locates (em >>> n) (x / 2 ^ n) := by
  change Locates (n.repeat ExtendedMantissa.shiftRightOne em) _
  induction n with
  | zero => simpa [Nat.repeat] using h
  | succ n ih =>
    rw [Nat.repeat, pow_succ, ← div_div]
    exact ih.shiftRightOne

end Locates

/-- The integer is nearest to the number; if another one is as near, it is even. -/
structure Nearest (n : ℕ) (x : ℚ) : Prop where
  low : (n : ℚ) - 1 / 2 ≤ x
  high : x ≤ n + 1 / 2
  even : x = (n : ℚ) - 1 / 2 ∨ x = n + 1 / 2 → n % 2 = 0

/-- The leading bits are rounded to the nearest integer. -/
theorem Locates.roundedMantissa {em : ExtendedMantissa} {x : ℚ} (h : Locates em x) {n : ℕ}
    (hn : Nearest n x) : em.roundedMantissa = n := by
  obtain ⟨hlow, hhigh, heven⟩ := hn
  obtain ⟨m, r, s⟩ := em
  have hle {i j : ℕ} (hij : (i : ℚ) < j + 1) : i ≤ j := by
    have : i < j + 1 := by exact_mod_cast hij
    omega
  cases r <;> cases s <;>
    simp only [Locates, ExtendedMantissa.roundedMantissa, ExtendedMantissa.accuracy,
      Accuracy.roundToNearestEven] at h ⊢
  · exact Nat.le_antisymm (hle (by linarith)) (hle (by linarith))
  · exact Nat.le_antisymm (hle (by linarith)) (hle (by linarith))
  · have hmn : m ≤ n := hle (by linarith)
    have hnm : n ≤ m + 1 := hle (by push_cast; linarith)
    rcases Nat.eq_or_lt_of_le hmn with rfl | hlt
    · have := heven (.inr h)
      omega
    · obtain rfl : n = m + 1 := by omega
      have := heven (.inl (by rw [h]; push_cast; ring))
      omega
  · have hmn : m + 1 ≤ n := hle (by push_cast; linarith)
    have hnm : n ≤ m + 1 := hle (by push_cast; linarith)
    omega

/-! ## Numbers in double precision -/

/-- The number `m * 2 ^ e` in double precision: with 53 bits, or with the least exponent. -/
structure Canonical (m : ℕ) (e : ℤ) : Prop where
  pos : 0 < m
  lt : m < 2 ^ 53
  le : -1074 ≤ e
  normal : 2 ^ 52 ≤ m ∨ e = -1074

/-- The reals that round to `m * 2 ^ e`. Below a power of two the numbers lie twice as close. -/
structure Rounds (m : ℕ) (e : ℤ) (v : ℚ) : Prop where
  nearest : Nearest m (v / 2 ^ e)
  narrow : m = 2 ^ 52 → e ≠ -1074 → (2 : ℚ) ^ 52 - 1 / 4 ≤ v / 2 ^ e

/-- A number is rounded to itself. -/
theorem rounds_self (m : ℕ) (e : ℤ) : Rounds m e (m * 2 ^ e) := by
  have hself : (m * 2 ^ e : ℚ) / 2 ^ e = m := mul_div_cancel_right₀ _ (by positivity)
  refine ⟨?_, fun hm _ => ?_⟩
  · rw [hself]
    exact ⟨by linarith, by linarith, fun h => by rcases h with h | h <;> linarith⟩
  · rw [hself, hm]
    norm_num

theorem targetExponent_binary64 (e : ℤ) :
    Format.binary64.targetExponent e = max (e - 53) (-1074) := by
  simp only [Format.targetExponent, Format.mantissaBits, Format.minExponent]
  norm_num

theorem targetExponent_eq (m : ℕ) (e : ℤ) :
    Format.binary64.targetExponent (totalExponent m e) = max (m.log2 + e - 52) (-1074) := by
  rw [targetExponent_binary64, totalExponent]
  omega

/-- The bits of a number that fit are not shifted. -/
theorem shiftToTargetExponent_canonical {m : ℕ} {e : ℤ} (h : Canonical m e) :
    shiftToTargetExponent .binary64 m e .exact = (⟨m, false, false⟩, e) := by
  have hlog : m.log2 < 53 := (Nat.log2_lt h.pos.ne').2 h.lt
  have hle := h.le
  have hshift : (Format.binary64.targetExponent (totalExponent m e) - e).toNat = 0 := by
    rw [targetExponent_eq]
    omega
  rw [shiftToTargetExponent, shiftToExponent, hshift]
  simp [HShiftRight.hShiftRight, Nat.repeat, ExtendedMantissa.ofMantissaAndAccuracy]

/-- A mantissa that has grown by a bit is shifted by one. -/
theorem shiftToTargetExponent_carry {e : ℤ} (he : -1074 ≤ e) :
    shiftToTargetExponent .binary64 (2 ^ 53) e .exact = (⟨2 ^ 52, false, false⟩, e + 1) := by
  have hshift : (Format.binary64.targetExponent (totalExponent (2 ^ 53) e) - e).toNat = 1 := by
    rw [targetExponent_eq, Nat.log2_two_pow]
    omega
  rw [shiftToTargetExponent, shiftToExponent, hshift]
  simp [HShiftRight.hShiftRight, Nat.repeat, ExtendedMantissa.ofMantissaAndAccuracy,
    ExtendedMantissa.shiftRightOne]

theorem mantissa_ofMantissaAndAccuracy (m : ℕ) (acc : Accuracy) :
    (ExtendedMantissa.ofMantissaAndAccuracy m acc).mantissa = m := by
  cases acc with
  | exact => rfl
  | inexact o => cases o <;> rfl

section

variable {m n : ℕ} {e i : ℤ} {acc : Accuracy} {v : ℚ}

theorem lt_of_two_zpow_lt (hi : (2 : ℚ) ^ i < 2 ^ e) : i < e :=
  (zpow_lt_zpow_iff_right₀ (by norm_num)).1 hi

/-- The leading bits tell the order of magnitude. -/
theorem bounds_of_locates (hm : m ≠ 0)
    (h : Locates (ExtendedMantissa.ofMantissaAndAccuracy m acc) (v / 2 ^ e)) :
    (2 : ℚ) ^ (m.log2 + e) ≤ v ∧ v < 2 ^ (m.log2 + 1 + e) := by
  have hpos : (0 : ℚ) < 2 ^ e := by positivity
  obtain ⟨hlow, hhigh⟩ := h.bounds
  rw [mantissa_ofMantissaAndAccuracy] at hlow hhigh
  rw [le_div_iff₀ hpos] at hlow
  rw [div_lt_iff₀ hpos] at hhigh
  have hlog : ((2 ^ m.log2 : ℕ) : ℚ) ≤ m := by exact_mod_cast Nat.log2_self_le hm
  have hlog' : (m : ℚ) + 1 ≤ ((2 ^ (m.log2 + 1) : ℕ) : ℚ) := by exact_mod_cast Nat.lt_log2_self
  push_cast at hlog hlog'
  have htwo : (2 : ℚ) ≠ 0 := by norm_num
  have hlow' : (2 : ℚ) ^ (m.log2 + e) = 2 ^ m.log2 * 2 ^ e := by
    rw [zpow_add₀ htwo, zpow_natCast]
  have hhigh' : (2 : ℚ) ^ (m.log2 + 1 + e) = 2 ^ (m.log2 + 1) * 2 ^ e := by
    rw [zpow_add₀ htwo]
    norm_cast
  rw [hlow', hhigh']
  exact ⟨(mul_le_mul_of_nonneg_right hlog hpos.le).trans hlow,
    hhigh.trans_le (mul_le_mul_of_nonneg_right hlog' hpos.le)⟩

theorem log2_add_lt {j : ℤ} (hm : m ≠ 0)
    (h : Locates (ExtendedMantissa.ofMantissaAndAccuracy m acc) (v / 2 ^ e))
    (hj : v / 2 ^ i < (2 : ℚ) ^ j) : m.log2 + e < j + i := by
  refine lt_of_two_zpow_lt ((bounds_of_locates hm h).1.trans_lt ?_)
  rw [zpow_add₀ (by norm_num)]
  exact (div_lt_iff₀ (by positivity)).1 hj

theorem two_zpow_add_le {j : ℤ} (hj : (2 : ℚ) ^ j ≤ v / 2 ^ i) : (2 : ℚ) ^ (j + i) ≤ v := by
  rw [zpow_add₀ (by norm_num)]
  exact (le_div_iff₀ (by positivity)).1 hj

theorem lt_log2_add {j : ℤ} (hm : m ≠ 0)
    (h : Locates (ExtendedMantissa.ofMantissaAndAccuracy m acc) (v / 2 ^ e))
    (hj : (2 : ℚ) ^ j ≤ v / 2 ^ i) : j + i < m.log2 + 1 + e :=
  lt_of_two_zpow_lt ((two_zpow_add_le hj).trans_lt (bounds_of_locates hm h).2)

/-- Without leading bits the real lies below their exponent. -/
theorem lt_of_locates_zero {j : ℤ}
    (h : Locates (ExtendedMantissa.ofMantissaAndAccuracy 0 acc) (v / 2 ^ e))
    (hj : (2 : ℚ) ^ j ≤ v / 2 ^ i) : j + i < e := by
  have hbelow := h.bounds.2
  rw [mantissa_ofMantissaAndAccuracy, div_lt_iff₀ (by positivity)] at hbelow
  exact lt_of_two_zpow_lt ((two_zpow_add_le hj).trans_lt (by simpa using hbelow))

/-- The leading bits are shifted to the exponent with which the real has 53 bits, or to the least
exponent. -/
theorem targetExponent_of_bounds (hle : -1074 ≤ i) (hm : m ≠ 0 ∨ e ≤ -1074)
    (h : Locates (ExtendedMantissa.ofMantissaAndAccuracy m acc) (v / 2 ^ e))
    (hhigh : v / 2 ^ i < (2 : ℚ) ^ (53 : ℤ)) (hlow : (2 : ℚ) ^ (52 : ℤ) ≤ v / 2 ^ i ∨ i = -1074) :
    Format.binary64.targetExponent (totalExponent m e) = i := by
  rw [targetExponent_eq]
  by_cases hm0 : m = 0
  · subst hm0
    rw [Nat.log2_zero]
    rcases hlow with hlow | hi
    · have := lt_of_locates_zero h hlow
      omega
    · omega
  · have := log2_add_lt hm0 h hhigh
    rcases hlow with hlow | hi
    · have := lt_log2_add hm0 h hlow
      omega
    · omega

/-- The first shift of the leading bits: to the exponent of the number, or to the one below it if the
real lies below a power of two. -/
theorem nearest_target (hn : Canonical n i) (hv : Rounds n i v) (hm : m ≠ 0 ∨ e ≤ -1074)
    (h : Locates (ExtendedMantissa.ofMantissaAndAccuracy m acc) (v / 2 ^ e)) :
    (Format.binary64.targetExponent (totalExponent m e) = i ∧ Nearest n (v / 2 ^ i)) ∨
      (Format.binary64.targetExponent (totalExponent m e) = i - 1 ∧ n = 2 ^ 52 ∧
        i ≠ -1074 ∧ Nearest (2 ^ 53) (v / 2 ^ (i - 1))) := by
  have hnearest := hv.nearest
  have hle := hn.le
  by_cases hlarge : (2 : ℚ) ^ (52 : ℤ) ≤ v / 2 ^ i ∨ i = -1074
  · refine .inl ⟨targetExponent_of_bounds hle hm h ?_ hlarge, hnearest⟩
    have hlt : (n : ℚ) + 1 ≤ 2 ^ 53 := by exact_mod_cast hn.lt
    norm_num at hlt ⊢
    linarith [hnearest.high]
  · obtain ⟨hsmall, hi⟩ := not_or.1 hlarge
    have hsmall : v / 2 ^ i < 2 ^ 52 := by exact_mod_cast lt_of_not_ge hsmall
    obtain rfl : n = 2 ^ 52 := by
      have hnormal := hn.normal.resolve_right hi
      have hlow : (n : ℚ) < 2 ^ 52 + 1 := by linarith [hnearest.low]
      have : n < 2 ^ 52 + 1 := by exact_mod_cast hlow
      omega
    have hnarrow := hv.narrow rfl hi
    have hhalf : v / 2 ^ (i - 1) = 2 * (v / 2 ^ i) := by
      rw [zpow_sub_one₀ (by norm_num)]
      field_simp
    norm_num at hnarrow hsmall
    refine .inr ⟨targetExponent_of_bounds (by omega) hm h ?_ (.inl ?_), rfl, hi, ?_⟩
    · rw [hhalf]
      norm_num
      linarith
    · rw [hhalf]
      norm_num
      linarith
    · rw [hhalf]
      constructor
      · norm_num
        linarith
      · norm_num
        linarith
      · norm_num

/-- What lies among the reals that round to a number is rounded to it. -/
theorem roundWithAccuracy_eq (s : Sign) (hn : Canonical n i) (hv : Rounds n i v)
    (hm : m ≠ 0 ∨ e ≤ -1074) (he : e ≤ Format.binary64.targetExponent (totalExponent m e))
    (h : Locates (ExtendedMantissa.ofMantissaAndAccuracy m acc) (v / 2 ^ e)) :
    roundWithAccuracy .binary64 s m e acc = .finite s n i hn.pos := by
  obtain ⟨t, ht⟩ : ∃ t, Format.binary64.targetExponent (totalExponent m e) = t := ⟨_, rfl⟩
  have htarget := nearest_target hn hv hm h
  rw [ht] at he htarget
  obtain ⟨k, rfl⟩ := Int.le.dest he
  -- the first shift leads to the target, where the leading bits are rounded
  have hfirst : shiftToTargetExponent .binary64 m e acc =
      (ExtendedMantissa.ofMantissaAndAccuracy m acc >>> k, e + k) := by
    rw [shiftToTargetExponent, ht, shiftToExponent, show (e + k - e).toNat = k by omega]
  have hlocates : Locates (ExtendedMantissa.ofMantissaAndAccuracy m acc >>> k) (v / 2 ^ (e + k)) := by
    have hshift := h.shiftRight k
    rwa [div_div, ← zpow_natCast, ← zpow_add₀ (by norm_num : (2 : ℚ) ≠ 0)] at hshift
  have hsecond : shiftToTargetExponent .binary64
      (ExtendedMantissa.ofMantissaAndAccuracy m acc >>> k).roundedMantissa (e + k) .exact =
      (⟨n, false, false⟩, i) := by
    rcases htarget with ⟨rfl, hnearest⟩ | ⟨hi, rfl, hne, hnearest⟩
    · rw [hlocates.roundedMantissa hnearest, shiftToTargetExponent_canonical hn]
    · rw [← hi] at hnearest
      have hle := hn.le
      rw [hlocates.roundedMantissa hnearest, shiftToTargetExponent_carry (by omega), hi,
        Int.sub_add_cancel]
  unfold roundWithAccuracy
  simp only [hfirst, hsecond]
  rw [dif_neg hn.pos.ne']

end

/-! ## Products and quotients -/

section

variable {m₁ m₂ n : ℕ} {e₁ e₂ i : ℤ}

/-- A product whose exact value has enough bits is rounded to the nearest number. -/
theorem mul_eq (s₁ s₂ : Sign) (h₁ : 0 < m₁) (h₂ : 0 < m₂) (hbits : 2 ^ 52 ≤ m₁ * m₂)
    (hn : Canonical n i) (hv : Rounds n i (m₁ * 2 ^ e₁ * (m₂ * 2 ^ e₂))) :
    mul .binary64 (.finite s₁ m₁ e₁ h₁) (.finite s₂ m₂ e₂ h₂) = .finite (s₁ * s₂) n i hn.pos := by
  have hpos : m₁ * m₂ ≠ 0 := (Nat.mul_pos h₁ h₂).ne'
  have hlog : 52 ≤ (m₁ * m₂).log2 := (Nat.le_log2 hpos).2 hbits
  have htwo : (2 : ℚ) ≠ 0 := by norm_num
  refine roundWithAccuracy_eq (s₁ * s₂) hn hv (.inl hpos) ?_ ?_
  · rw [targetExponent_eq]
    omega
  · have hexact : (m₁ * 2 ^ e₁ * (m₂ * 2 ^ e₂) : ℚ) / 2 ^ (e₁ + e₂) = (m₁ * m₂ : ℕ) := by
      rw [zpow_add₀ htwo]
      field_simp
      push_cast
      ring
    rw [hexact]
    rfl

/-- Integer division gives the leading bits of a quotient. -/
theorem locates_div (a : ℕ) {b : ℕ} (hb : 0 < b) :
    Locates (ExtendedMantissa.ofMantissaAndAccuracy (a / b) (accuracyOfFraction (a % b) b)) (a / b : ℚ) := by
  have hb' : (0 : ℚ) < b := by exact_mod_cast hb
  have hdiv : (a : ℚ) / b = (a / b : ℕ) + (a % b : ℕ) / b := by
    rw [eq_comm, add_div' _ _ _ hb'.ne', div_left_inj' hb'.ne']
    exact_mod_cast Nat.div_add_mod' a b
  have hmod : ((a % b : ℕ) : ℚ) < b := by exact_mod_cast Nat.mod_lt a hb
  rw [hdiv, accuracyOfFraction]
  obtain ⟨r, hr⟩ : ∃ r, a % b = r := ⟨_, rfl⟩
  rw [hr] at hmod ⊢
  split
  · next h => simp [Locates, ExtendedMantissa.ofMantissaAndAccuracy, h]
  · next h =>
    have hrpos : (0 : ℚ) < r := by exact_mod_cast Nat.pos_of_ne_zero h
    have hfraction : 0 < (r : ℚ) / b := div_pos hrpos hb'
    have hone : (r : ℚ) / b < 1 := (div_lt_one hb').2 hmod
    rcases hc : compare (2 * r) b with _ | _ | _
    · have hlt : ((2 * r : ℕ) : ℚ) < b := by exact_mod_cast Nat.compare_eq_lt.1 hc
      have hhalf : (r : ℚ) / b < 1 / 2 := by
        rw [div_lt_div_iff₀ hb' (by norm_num)]
        push_cast at hlt
        linarith
      exact ⟨by simp [ExtendedMantissa.ofMantissaAndAccuracy]; linarith, by simpa [ExtendedMantissa.ofMantissaAndAccuracy] using hhalf⟩
    · have heq : ((2 * r : ℕ) : ℚ) = b := by exact_mod_cast Nat.compare_eq_eq.1 hc
      have hhalf : (r : ℚ) / b = 1 / 2 := by
        rw [div_eq_div_iff hb'.ne' (by norm_num)]
        push_cast at heq
        linarith
      simp [Locates, ExtendedMantissa.ofMantissaAndAccuracy, hhalf]
    · have hgt : (b : ℚ) < (2 * r : ℕ) := by exact_mod_cast Nat.compare_eq_gt.1 hc
      have hhalf : 1 / 2 < (r : ℚ) / b := by
        rw [div_lt_div_iff₀ (by norm_num) hb']
        push_cast at hgt
        linarith
      exact ⟨by simpa [ExtendedMantissa.ofMantissaAndAccuracy] using hhalf, by simpa [ExtendedMantissa.ofMantissaAndAccuracy] using hone⟩

/-- A quotient is rounded to the nearest number. -/
theorem div_eq (s₁ s₂ : Sign) (h₁ : 0 < m₁) (h₂ : 0 < m₂) (hn : Canonical n i)
    (hv : Rounds n i (m₁ * 2 ^ e₁ / (m₂ * 2 ^ e₂))) :
    div .binary64 (.finite s₁ m₁ e₁ h₁) (.finite s₂ m₂ e₂ h₂) = .finite (s₁ / s₂) n i hn.pos := by
  have htwo : (2 : ℚ) ≠ 0 := by norm_num
  obtain ⟨t, ht⟩ : ∃ t, min (e₁ - e₂) (Format.binary64.targetExponent
    (totalExponent m₁ e₁ - totalExponent m₂ e₂)) = t := ⟨_, rfl⟩
  have hdiv : div .binary64 (.finite s₁ m₁ e₁ h₁) (.finite s₂ m₂ e₂ h₂) =
      roundWithAccuracy .binary64 (s₁ / s₂) ((m₁ <<< (e₁ - e₂ - t).toNat) / m₂) t
        (accuracyOfFraction ((m₁ <<< (e₁ - e₂ - t).toNat) % m₂) m₂) := by
    rw [UnpackedFloat.div, divCore]
    simp only [ht]
  rw [targetExponent_binary64, totalExponent, totalExponent] at ht
  obtain ⟨k, hk⟩ : ∃ k : ℕ, e₁ - e₂ - t = k := Int.eq_ofNat_of_zero_le (by omega)
  rw [hdiv, hk, Int.toNat_natCast, Nat.shiftLeft_eq]
  -- unless the exponent is the least one, the quotient has enough bits
  have hbits : t ≤ -1074 ∨ 2 ^ 52 ≤ m₁ * 2 ^ k / m₂ := by
    refine (le_or_gt t (-1074)).imp_right fun hlt => ?_
    rw [Nat.le_div_iff_mul_le h₂]
    have hlow : 2 ^ m₁.log2 ≤ m₁ := Nat.log2_self_le h₁.ne'
    have hhigh : m₂ < 2 ^ (m₂.log2 + 1) := Nat.lt_log2_self
    calc 2 ^ 52 * m₂ ≤ 2 ^ 52 * 2 ^ (m₂.log2 + 1) := Nat.mul_le_mul_left _ hhigh.le
      _ = 2 ^ (53 + m₂.log2) := by rw [← pow_add]; congr 1; omega
      _ ≤ 2 ^ (m₁.log2 + k) := Nat.pow_le_pow_right (by norm_num) (by omega)
      _ ≤ m₁ * 2 ^ k := by rw [pow_add]; exact Nat.mul_le_mul_right _ hlow
  refine roundWithAccuracy_eq _ hn hv ?_ ?_ ?_
  · refine hbits.symm.imp_left fun h => ?_
    omega
  · rw [targetExponent_eq]
    rcases hbits with h | h
    · omega
    · have hlog : 52 ≤ (m₁ * 2 ^ k / m₂).log2 := (Nat.le_log2 (by omega)).2 h
      omega
  · have hquotient : (m₁ * 2 ^ e₁ / (m₂ * 2 ^ e₂) : ℚ) / 2 ^ t = (m₁ * 2 ^ k : ℕ) / m₂ := by
      have hm₂ : (m₂ : ℚ) ≠ 0 := by exact_mod_cast h₂.ne'
      rw [show e₁ = k + e₂ + t by omega, zpow_add₀ htwo, zpow_add₀ htwo, zpow_natCast]
      field_simp
      push_cast
      ring
    rw [hquotient]
    exact locates_div _ h₂

end

end HybridPlan.Rounding
