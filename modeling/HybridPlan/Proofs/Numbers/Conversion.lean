import HybridPlan.Scalar.Binary64
import HybridPlan.Proofs.Numbers.Packing
import HybridPlan.Proofs.Numbers.Positional
import Mathlib.Tactic.IntervalCases

set_option autoImplicit false

/-! # Conversion of decimals

A decimal among the reals that round to a number is converted to that number: by one exact product or
quotient if the digits and the power of ten fit into double precision, else from the exact product or
quotient itself. -/

namespace HybridPlan.Rounding

open Float.Model Float.Model.UnpackedFloat

variable {n S : ℕ} {E : ℤ}

/-! ## Naturals -/

/-- A natural number of at most 53 bits is converted exactly. -/
theorem ofNat_eq (hn : 0 < n) (hlt : n < 2 ^ 53) :
    ∃ m e, ∃ hm : Canonical m e, UnpackedFloat.ofNat .binary64 n = .finite .positive m e hm.pos ∧
      e ≤ 0 ∧ 2 ^ 52 ≤ m ∧ (m * 2 ^ e : ℚ) = n := by
  have hlog : n.log2 < 53 := (Nat.log2_lt hn.ne').2 hlt
  obtain ⟨k, hk⟩ : ∃ k, n.log2 + k = 52 := ⟨52 - n.log2, by omega⟩
  have htarget : Format.binary64.targetExponent (totalExponent n 0) = -k := by
    rw [targetExponent_eq]
    omega
  -- the first bit of the shifted number is the 53rd one
  have hlow : 2 ^ 52 ≤ n * 2 ^ k := by
    rw [← hk, pow_add]
    exact Nat.mul_le_mul_right _ (Nat.log2_self_le hn.ne')
  have hhigh : n * 2 ^ k < 2 ^ 53 := by
    rw [show 53 = n.log2 + 1 + k by omega, @pow_add ℕ _ 2 (n.log2 + 1) k]
    exact Nat.mul_lt_mul_of_pos_right Nat.lt_log2_self (Nat.two_pow_pos _)
  have hm : Canonical (n * 2 ^ k) (-k) := ⟨by omega, hhigh, by omega, .inl hlow⟩
  refine ⟨n * 2 ^ k, -k, hm, ?_, by omega, hlow, ?_⟩
  · have hcompare : compare (n : ℤ) 0 = .gt := Int.compare_eq_gt.2 (by omega)
    simp only [UnpackedFloat.ofNat, UnpackedFloat.ofInt, UnpackedFloat.normalize, hcompare,
      UnpackedFloat.round, Int.toNat_natCast, htarget, decreaseExponent]
    rw [show ((0 : ℤ) - -(k : ℤ)).toNat = k by omega, Nat.shiftLeft_eq, Int.zero_sub]
    refine roundWithAccuracy_eq _ hm (rounds_self _ _) (.inl hm.pos.ne') ?_ ?_
    · have hlog := log2_of_normal hlow hhigh
      rw [targetExponent_eq, hlog]
      omega
    · exact mul_div_cancel_right₀ _ (by positivity)
  · rw [zpow_neg, zpow_natCast]
    push_cast
    field_simp

/-! ## Powers of ten -/

/-- How far the power of five is shifted to have 53 bits. -/
def spareBits (k : ℕ) : ℕ := 52 - (5 ^ k).log2

/-- The powers of ten that are numbers in double precision. -/
theorem unpack_powerOfTen {k : ℕ} {x : Float} (h : Float.exactlyRepresentablePowersOfTen[k]? = some x) :
    x.toModel.unpack = .finite .positive (5 ^ k * 2 ^ spareBits k) (k - spareBits k) (by positivity) := by
  have hk : k < 23 := (Array.getElem?_eq_some_iff.1 h).1
  interval_cases k <;> cases h <;> rfl

theorem powerOfTen_eq (k : ℕ) : ((5 ^ k * 2 ^ spareBits k : ℕ) * 2 ^ ((k : ℤ) - spareBits k) : ℚ) = 10 ^ k := by
  rw [zpow_sub₀ (by norm_num), zpow_natCast, zpow_natCast, show (10 : ℚ) = 5 * 2 by norm_num, mul_pow]
  push_cast
  field_simp

/-! ## Decimals -/


variable {e : ℤ}

theorem digits_pos (hS : Canonical S E) (h : Rounds S E (n * 10 ^ e)) : 0 < n := by
  refine Nat.pos_of_ne_zero fun hn => ?_
  have hlow := h.nearest.low
  have hone : (1 : ℚ) ≤ S := by exact_mod_cast hS.pos
  rw [hn] at hlow
  norm_num at hlow
  linarith

theorem length_toString (n : ℕ) : (toString n).length = (Nat.toDigits 10 n).length := by
  rw [← String.length_toList]
  exact congrArg List.length Nat.toList_repr

/-- A natural number lies between the powers of ten that its digits tell. -/
theorem toString_bounds (hn : 0 < n) :
    (10 : ℚ) ^ ((toString n).length - 1 : ℤ) ≤ n ∧ (n : ℚ) < 10 ^ ((toString n).length : ℤ) := by
  have hlength : 0 < (Nat.toDigits 10 n).length := List.length_pos_iff.2 Nat.toDigits_ne_nil
  rw [length_toString]
  obtain ⟨k, hk⟩ : ∃ k, (Nat.toDigits 10 n).length = k + 1 := ⟨_, (Nat.succ_pred_eq_of_pos hlength).symm⟩
  rw [hk]
  refine ⟨?_, ?_⟩
  · rw [show ((k + 1 : ℕ) - 1 : ℤ) = k by omega, zpow_natCast]
    rcases Nat.eq_zero_or_pos k with rfl | hpos
    · exact_mod_cast hn
    · have hnot : ¬ (Nat.toDigits 10 n).length ≤ k := by omega
      rw [Nat.length_toDigits_le_iff (by decide) hpos, Nat.not_lt] at hnot
      exact_mod_cast hnot
  · rw [zpow_natCast]
    exact_mod_cast (Nat.length_toDigits_le_iff (by decide) (Nat.succ_pos k)).1 hk.le

/-- A decimal that rounds to a number is neither huge nor tiny. -/
theorem order_bounds (hS : Canonical S E) (hE : E ≤ 971) (h : Rounds S E (n * 10 ^ e)) :
    -324 < (toString n).length + e ∧ (toString n).length + e < 310 := by
  have hpos : (0 : ℚ) < 2 ^ E := by positivity
  have hten : (0 : ℚ) < 10 ^ e := by positivity
  have hlt : (S : ℚ) + 1 ≤ 2 ^ 53 := by exact_mod_cast hS.lt
  have hone : (1 : ℚ) ≤ S := by exact_mod_cast hS.pos
  obtain ⟨hlow, hhigh⟩ := toString_bounds (digits_pos hS h)
  have hnear := h.nearest.low
  have hnear' := h.nearest.high
  rw [le_div_iff₀ hpos] at hnear
  rw [div_le_iff₀ hpos] at hnear'
  have hless {i j : ℤ} (hij : (10 : ℚ) ^ i < 10 ^ j) : i < j :=
    (zpow_lt_zpow_iff_right₀ (by norm_num)).1 hij
  constructor
  · refine hless ?_
    have hleast : (2 : ℚ) ^ 1074 * 2 < 10 ^ 324 := by exact_mod_cast (by decide +kernel : 2 ^ 1074 * 2 < 10 ^ 324)
    calc (10 : ℚ) ^ (-324 : ℤ) < 2 ^ (-1074 : ℤ) * (1 / 2) := by
          rw [zpow_neg, zpow_neg, one_div, ← mul_inv]
          exact inv_strictAnti₀ (by positivity) hleast
      _ ≤ 2 ^ E * (1 / 2) := by
        exact mul_le_mul_of_nonneg_right (zpow_le_zpow_right₀ (by norm_num) hS.le) (by norm_num)
      _ ≤ ((S : ℚ) - 1 / 2) * 2 ^ E := by
        rw [mul_comm]
        exact mul_le_mul_of_nonneg_right (by linarith) hpos.le
      _ ≤ n * 10 ^ e := hnear
      _ < 10 ^ ((toString n).length : ℤ) * 10 ^ e := mul_lt_mul_of_pos_right hhigh hten
      _ = 10 ^ ((toString n).length + e) := (zpow_add₀ (by norm_num) _ _).symm
  · suffices hsuffices : (toString n).length - 1 + e < 309 by omega
    refine hless ?_
    have hlargest : (2 : ℚ) ^ 53 * 2 ^ 971 < 10 ^ 309 := by
      exact_mod_cast (by decide +kernel : 2 ^ 53 * 2 ^ 971 < 10 ^ 309)
    calc (10 : ℚ) ^ ((toString n).length - 1 + e) = 10 ^ ((toString n).length - 1 : ℤ) * 10 ^ e :=
          zpow_add₀ (by norm_num) _ _
      _ ≤ n * 10 ^ e := mul_le_mul_of_nonneg_right hlow hten.le
      _ ≤ (S + 1 / 2) * 2 ^ E := hnear'
      _ ≤ 2 ^ 53 * 2 ^ (971 : ℤ) :=
        mul_le_mul (by linarith) (zpow_le_zpow_right₀ (by norm_num) hE) hpos.le (by norm_num)
      _ < 10 ^ (309 : ℤ) := hlargest

/-- A number of so many digits has more bits than that. -/
theorem length_le_log2 (n : ℕ) : (toString n).length ≤ n.log2 + 1 := by
  rw [length_toString, Nat.length_toDigits_le_iff (by decide) (Nat.succ_pos _)]
  exact Nat.lt_log2_self.trans_le (Nat.pow_le_pow_left (by decide) _)

/-- The exact product or quotient is rounded. -/
theorem ofScientific_eq (hS : Canonical S E) (hE : E ≤ 971) (h : Rounds S E (n * 10 ^ e)) :
    UnpackedFloat.ofScientific .binary64 n e = .finite .positive S E hS.pos := by
  have hn := digits_pos hS h
  have horder := order_bounds hS hE h
  have hlength := length_le_log2 n
  have hlength' : 0 < (toString n).length := by
    rw [length_toString]
    exact List.length_pos_iff.2 Nat.toDigits_ne_nil
  have hbits : Format.binary64.exponentBits = 11 := rfl
  rw [UnpackedFloat.ofScientific, dif_neg hn.ne', if_neg (by rw [hbits]; omega),
    if_neg (by rw [hbits]; omega)]
  split
  · next hexponent =>
    obtain ⟨k, rfl⟩ := Int.eq_ofNat_of_zero_le hexponent
    refine mul_eq .positive .positive _ _ ?_ hS ?_
    · have hten : 0 < 10 ^ (k : ℤ).toNat := Nat.pow_pos (by decide)
      rw [Nat.shiftLeft_eq]
      calc 2 ^ 52 ≤ 1 * 2 ^ Format.binary64.mantissaBits * 1 := by decide
        _ ≤ n * 2 ^ Format.binary64.mantissaBits * 10 ^ (k : ℤ).toNat :=
          Nat.mul_le_mul (Nat.mul_le_mul_right _ hn) hten
    · rw [Nat.shiftLeft_eq, zpow_neg, zpow_natCast, zpow_zero, Int.toNat_natCast]
      convert h using 1
      push_cast
      rw [zpow_natCast]
      field_simp
  · next hexponent =>
    obtain ⟨k, rfl⟩ : ∃ k : ℕ, e = -k := ⟨(-e).toNat, by omega⟩
    refine div_eq .positive .positive _ _ hS ?_
    rw [Int.neg_neg, Int.toNat_natCast]
    convert h using 1
    push_cast
    rw [zpow_neg, zpow_natCast]
    field_simp

/-- The result of an operation that is a number in double precision. -/
theorem unpack_modelPack {s : Sign} (hS : Canonical S E) (hE : E ≤ 971) :
    (Float.Model.pack (.finite s S E hS.pos)).unpack = .finite s S E hS.pos := unpack_pack hS hE

/-- Digits that fit are converted exactly, and so are the powers of ten; their product or quotient is
rounded once. -/
theorem unpack_ofScientific {k : ℕ} {s : Bool} (hS : Canonical S E) (hE : E ≤ 971)
    (h : Rounds S E (n * 10 ^ (if s then -k else k : ℤ))) :
    (Float.ofScientific n s k).toModel.unpack = .finite .positive S E hS.pos := by
  rw [Float.ofScientific]
  split
  · next hfits =>
    obtain ⟨hlt, hk⟩ := hfits
    obtain ⟨m, i, hm, hnat, hi, hnormal, hvalue⟩ := ofNat_eq (digits_pos hS h) hlt
    have hdigits : n.toUInt64.toFloat.toModel.unpack = .finite .positive m i hm.pos := by
      have hsmall : n.toUInt64.toNat = n := Nat.mod_eq_of_lt (hlt.trans (by decide))
      change (Float.Model.pack (UnpackedFloat.ofNat .binary64 n.toUInt64.toNat)).unpack = _
      rw [hsmall, hnat]
      exact unpack_modelPack hm (by omega)
    have hbound : k < Float.exactlyRepresentablePowersOfTen.size := Nat.lt_succ_of_le hk
    have hpower := unpack_powerOfTen (Array.getElem?_eq_getElem hbound)
    have hten := powerOfTen_eq k
    cases s with
    | true =>
      change (Float.Model.pack (UnpackedFloat.div .binary64 n.toUInt64.toFloat.toModel.unpack
        (Float.exactlyRepresentablePowersOfTen[k]).toModel.unpack)).unpack = _
      rw [hdigits, hpower, div_eq .positive .positive _ _ hS]
      · exact unpack_modelPack hS hE
      · rw [hvalue, hten, ← zpow_natCast, div_eq_mul_inv, ← zpow_neg]
        exact h
    | false =>
      change (Float.Model.pack (UnpackedFloat.mul .binary64 n.toUInt64.toFloat.toModel.unpack
        (Float.exactlyRepresentablePowersOfTen[k]).toModel.unpack)).unpack = _
      rw [hdigits, hpower, mul_eq .positive .positive _ _ ?_ hS]
      · exact unpack_modelPack hS hE
      · rw [hvalue, hten, ← zpow_natCast]
        exact h
      · exact hnormal.trans (Nat.le_mul_of_pos_right _ (by positivity))
  · have hscale : (if s then Int.negOfNat k else Int.ofNat k) = (if s then -k else k : ℤ) := by
      cases s
      · rfl
      · exact Int.negOfNat_eq
    change (Float.Model.pack (UnpackedFloat.ofScientific .binary64 n _)).unpack = _
    rw [hscale, ofScientific_eq hS hE h]
    exact unpack_modelPack hS hE

/-- A number of the machine that is not undefined is a scalar. -/
theorem ofFloat_eq {x : Float} {u : UnpackedFloat} (s : Option Bool) (hx : x.toModel.unpack = u)
    (hu : u.isNaN = false) : ∃ h, Binary64.ofFloat x s = .number x h := by
  have hdefined : x.isNaN = false := by
    change x.toModel.unpack.isNaN = false
    rw [hx, hu]
  refine ⟨hdefined, ?_⟩
  rw [Binary64.ofFloat, dif_neg (by rw [hdefined]; decide)]

/-- A decimal among the reals that round to a number is converted to it. -/
theorem ofDecimal_eq (hS : Canonical S E) (hE : E ≤ 971) (h : Rounds S E (n * 10 ^ e)) :
    ∃ x hx, Binary64.ofDecimal n e = .number x hx ∧ x.toModel.unpack = .finite .positive S E hS.pos := by
  have horder := order_bounds hS hE h
  have hscale : (if (decide (e < 0)) then -e.natAbs else e.natAbs : ℤ) = e := by
    simp only [decide_eq_true_eq]
    split <;> omega
  have hunpack := unpack_ofScientific (k := e.natAbs) (s := e < 0) hS hE (by rwa [hscale])
  obtain ⟨hdefined, hfloat⟩ := ofFloat_eq none hunpack rfl
  refine ⟨_, hdefined, ?_, hunpack⟩
  rw [Binary64.ofDecimal, if_neg (digits_pos hS h).ne']
  simp only
  rw [if_neg (by omega), if_neg (by omega), hfloat]

end HybridPlan.Rounding
