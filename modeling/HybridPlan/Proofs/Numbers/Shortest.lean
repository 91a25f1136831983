import HybridPlan.Proofs.Numbers.Packing
import HybridPlan.Proofs.Numbers.Positional

set_option autoImplicit false

/-! # Shortest decimals round to their numbers

The search for a shortest decimal accepts only decimals among the reals that round to the number. If it
finds none, it gives the number itself. -/

namespace HybridPlan.Decimal

open Rounding

/-! ## Exact comparison -/

section

variable {a n : ℕ} {i j : ℤ}

theorem zpow_eq_div {b : ℚ} (hb : b ≠ 0) (i : ℤ) : b ^ i = b ^ i.toNat / b ^ (-i).toNat := by
  rw [eq_div_iff (pow_ne_zero _ hb), ← zpow_natCast b i.toNat, ← zpow_natCast b (-i).toNat, ← zpow_add₀ hb]
  congr 1
  omega

theorem cast_left (a : ℕ) (i j : ℤ) : ((a * Nat.pow 10 i.toNat * Nat.pow 2 (-j).toNat : ℕ) : ℚ) =
    a * 10 ^ i * (10 ^ (-i).toNat * 2 ^ (-j).toNat) := by
  simp only [Nat.pow_eq]
  rw [zpow_eq_div (by norm_num) i]
  push_cast
  field_simp

theorem cast_right (n : ℕ) (i j : ℤ) : ((n * Nat.pow 2 j.toNat * Nat.pow 10 (-i).toNat : ℕ) : ℚ) =
    n * 2 ^ j * (10 ^ (-i).toNat * 2 ^ (-j).toNat) := by
  simp only [Nat.pow_eq]
  rw [zpow_eq_div (by norm_num) j]
  push_cast
  field_simp

theorem scale_pos (i j : ℤ) : (0 : ℚ) < 10 ^ (-i).toNat * 2 ^ (-j).toNat := by positivity

theorem compareScaled_lt :
    compareScaled a i n j = .lt ↔ (a : ℚ) * 10 ^ i < n * 2 ^ j := by
  rw [compareScaled, Nat.compare_eq_lt, ← @Nat.cast_lt ℚ, cast_left, cast_right,
    mul_lt_mul_iff_left₀ (scale_pos i j)]

theorem compareScaled_gt :
    compareScaled a i n j = .gt ↔ (n : ℚ) * 2 ^ j < a * 10 ^ i := by
  rw [compareScaled, Nat.compare_eq_gt, ← @Nat.cast_lt ℚ, cast_left, cast_right,
    mul_lt_mul_iff_left₀ (scale_pos i j)]

theorem compareScaled_eq :
    compareScaled a i n j = .eq ↔ (a : ℚ) * 10 ^ i = n * 2 ^ j := by
  rw [compareScaled, Nat.compare_eq_eq, ← @Nat.cast_inj ℚ, cast_left, cast_right,
    mul_left_inj' (scale_pos i j).ne']

end

/-! ## Magnitudes -/

namespace Binary

/-- The magnitude of a number in double precision. -/
structure IsDouble (x : Binary) : Prop where
  canonical : Canonical x.significand x.exponent
  narrow : x.narrowBelow = true ↔ x.significand = 2 ^ 52 ∧ x.exponent ≠ -1074

variable {x : Binary} {d : Digits}

/-- The bits of a number hold its magnitude. -/
theorem ofBits_of_form (bits : UInt64) {n : ℕ} {i : ℤ} (hn : Canonical n i)
    (hexponent : (exponentBits bits.toBitVec).toNat = if n < 2 ^ 52 then 0 else (i + 1075).toNat)
    (hmantissa : (mantissaBits bits.toBitVec).toNat = n % 2 ^ 52) :
    ∃ narrow, ofBits bits = ⟨n, i, narrow⟩ ∧ (narrow = true ↔ n = 2 ^ 52 ∧ i ≠ -1074) := by
  have hlt := hn.lt
  have hle := hn.le
  rw [ofBits_eq, hexponent, hmantissa]
  split
  · next hsmall =>
    obtain rfl := hn.normal.resolve_left (Nat.not_le.2 hsmall)
    refine ⟨false, ?_, by simp⟩
    rw [if_pos rfl, Nat.mod_eq_of_lt hsmall]
  · next hnormal =>
    have hbits : 2 ^ 52 + n % 2 ^ 52 = n := by omega
    have hbias : ((i + 1075).toNat : ℤ) - 1075 = i := by omega
    refine ⟨n % 2 ^ 52 = 0 && (i + 1075).toNat > 1, ?_, ?_⟩
    · rw [if_neg (by omega), hbits, hbias]
    · simp only [Bool.and_eq_true, decide_eq_true_eq]
      omega

/-- What the magnitude covers lies, in units of its last place, between the middles to its neighbours. A
middle itself is covered by an even magnitude. -/
theorem bounds_of_covers (hpos : 0 < x.significand) (h : x.covers d = true) {k : ℕ}
    (hk : (if x.narrowBelow then 1 else 2) = k) :
    ((x.significand : ℚ) - k / 4 < d.value / 2 ^ x.exponent ∨
      x.significand % 2 = 0 ∧ d.value / 2 ^ x.exponent = x.significand - k / 4) ∧
    (d.value / 2 ^ x.exponent < x.significand + 1 / 2 ∨
      x.significand % 2 = 0 ∧ d.value / 2 ^ x.exponent = x.significand + 1 / 2) := by
  have hlast : (0 : ℚ) < 2 ^ x.exponent := by positivity
  have hquarter : (2 : ℚ) ^ (x.exponent - 2) = 2 ^ x.exponent / 4 := by
    rw [zpow_sub₀ (by norm_num)]
    norm_num
  obtain ⟨y, hy⟩ : ∃ y, d.value / 2 ^ x.exponent = y := ⟨_, rfl⟩
  have hdy : (d.digits : ℚ) * 10 ^ d.exponent = y * 2 ^ x.exponent := by
    rw [← hy, Digits.value, div_mul_cancel₀ _ hlast.ne']
  -- all comparisons are made in quarters of the last place
  have hscale (k : ℚ) : k * (2 ^ x.exponent / 4) = k / 4 * 2 ^ x.exponent := by ring
  simp only [covers, Bool.and_eq_true, Bool.or_eq_true, decide_eq_true_eq, compareScaled_gt,
    compareScaled_eq, compareScaled_lt, hquarter, hdy, hscale, mul_lt_mul_iff_left₀ hlast,
    mul_left_inj' hlast.ne'] at h
  obtain ⟨hlow, hhigh⟩ := h
  have hle : k ≤ 2 := by
    rw [← hk]
    split <;> decide
  have hcast : ((4 * x.significand - k : ℕ) : ℚ) = 4 * x.significand - k := by
    rw [Nat.cast_sub (by omega)]
    push_cast
    rfl
  rw [hk, hcast] at hlow
  push_cast at hhigh
  rw [hy]
  refine ⟨hlow.imp (fun h => by linarith) fun h => ⟨h.1, by linarith [h.2]⟩, ?_⟩
  exact hhigh.imp (fun h => by linarith) fun h => ⟨h.1, by linarith [h.2]⟩

/-- A decimal that the magnitude covers is rounded to it. -/
theorem rounds_of_covers (hx : x.IsDouble) (h : x.covers d = true) :
    Rounds x.significand x.exponent d.value := by
  obtain ⟨hcanonical, hnarrow⟩ := hx
  cases hgap : x.narrowBelow with
  | true =>
    obtain ⟨hlow, hhigh⟩ := bounds_of_covers hcanonical.pos h (k := 1) (by rw [hgap]; rfl)
    obtain ⟨hsignificand, hexponent⟩ := hnarrow.1 hgap
    push_cast at hlow
    refine ⟨⟨?_, ?_, fun _ => by rw [hsignificand]; rfl⟩, fun _ _ => ?_⟩
    · rcases hlow with h | h <;> linarith
    · rcases hhigh with h | h <;> linarith
    · rw [hsignificand] at hlow
      push_cast at hlow
      rcases hlow with h | h <;> linarith
  | false =>
    obtain ⟨hlow, hhigh⟩ := bounds_of_covers hcanonical.pos h (k := 2) (by rw [hgap]; rfl)
    push_cast at hlow
    refine ⟨⟨?_, ?_, fun h => ?_⟩, fun hs he => ?_⟩
    · rcases hlow with h | h <;> linarith
    · rcases hhigh with h | h <;> linarith
    · -- only an even magnitude covers a middle
      rcases h with h | h
      · rcases hlow with h' | h'
        · linarith
        · exact h'.1
      · rcases hhigh with h' | h'
        · linarith
        · exact h'.1
    · rw [hnarrow.2 ⟨hs, he⟩] at hgap
      contradiction

theorem covers_of_onGrid? {e : ℤ} (h : x.onGrid? e = some d) : x.covers d = true := by
  unfold onGrid? at h
  dsimp only at h
  split at h
  · cases h
  · cases h
    assumption
  · cases h
    assumption
  · split at h <;> cases h <;> assumption

theorem covers_of_search {n : ℕ} {top : ℤ} (h : x.search n top = some d) : x.covers d = true := by
  induction n generalizing top with
  | zero => cases h
  | succ n ih =>
    unfold search at h
    split at h
    · next hgrid =>
      cases h
      exact covers_of_onGrid? hgrid
    · exact ih h

/-- The shortest decimal of a number is rounded to it. -/
theorem rounds_shortest (hx : x.IsDouble) : Rounds x.significand x.exponent x.shortest.value := by
  unfold shortest
  rw [if_neg hx.canonical.pos.ne']
  split
  · next d h => exact rounds_of_covers hx (covers_of_search h)
  · have hexact := rounds_self x.significand x.exponent
    simp only [twoScaled]
    split
    · next h =>
      obtain ⟨k, hk⟩ := Int.eq_ofNat_of_zero_le h
      have hvalue : Digits.value ⟨x.significand * Nat.pow 2 x.exponent.toNat, 0⟩ = x.significand * 2 ^ x.exponent := by
        rw [Digits.value, hk]
        simp
      rwa [hvalue]
    · next h =>
      obtain ⟨k, hk⟩ : ∃ k : ℕ, x.exponent = -k := ⟨(-x.exponent).toNat, by omega⟩
      have hvalue : Digits.value ⟨x.significand * Nat.pow 5 (-x.exponent).toNat, x.exponent⟩ = x.significand * 2 ^ x.exponent := by
        rw [Digits.value, hk, Int.neg_neg, Int.toNat_natCast, zpow_neg, zpow_neg, zpow_natCast,
          zpow_natCast, show (10 : ℚ) ^ k = 2 ^ k * 5 ^ k by rw [← mul_pow]; norm_num]
        simp only [Nat.pow_eq]
        push_cast
        field_simp
      rwa [hvalue]

end Binary

end HybridPlan.Decimal
