import HybridPlan.Proofs.Numbers.Monotone

set_option autoImplicit false

/-! # The order of doubles

Numbers in double precision are in the order of their exact values. A difference of two of them is
positive exactly if the first one is larger: it may be rounded, but not to zero. -/

namespace HybridPlan

/-! ## Places of exact numbers -/

namespace Exact

/-- The place of a number among the reals and the infinities; an undefined number has none. -/
noncomputable def place : Exact → EReal
  | real x => x
  | infinite negative => if negative then ⊥ else ⊤
  | undefined => 0

end Exact

namespace Rounding

variable {n n' : ℕ} {i i' : ℤ}

/-- Positive numbers are ordered by their exponents first. -/
theorem compare_canonical (hn : Canonical n i) (hn' : Canonical n' i') :
    (compare i i').then (compare n n') = cmp (n * 2 ^ i : ℚ) (n' * 2 ^ i') := by
  have hle := (rounds_self n i).mono hn hn' (rounds_self n' i')
  have hge := (rounds_self n' i').mono hn' hn (rounds_self n i)
  rcases lt_trichotomy (n * 2 ^ i : ℚ) (n' * 2 ^ i') with hlt | heq | hgt
  · rw [(cmp_eq_lt_iff _ _).2 hlt, Ordering.then_eq_lt]
    have hne : ¬(i = i' ∧ n = n') := by
      rintro ⟨rfl, rfl⟩
      exact hlt.false
    have hle := hle hlt.le
    rw [Int.compare_eq_lt, Int.compare_eq_eq, Nat.compare_eq_lt]
    omega
  · have hle := hle heq.le
    have hge := hge heq.ge
    obtain ⟨rfl, rfl⟩ : i = i' ∧ n = n' := by omega
    simp
  · rw [(cmp_eq_gt_iff _ _).2 hgt, Ordering.then_eq_gt]
    have hne : ¬(i = i' ∧ n = n') := by
      rintro ⟨rfl, rfl⟩
      exact hgt.false
    have hge := hge hgt.le
    rw [Int.compare_eq_gt, Int.compare_eq_eq, Nat.compare_eq_gt]
    omega

end Rounding

namespace Binary64

open Float.Model Float.Model.UnpackedFloat Rounding
open Exact (real place)

variable {u w : UnpackedFloat} {n : ℕ} {i : ℤ}

theorem cmp_place (q r : ℚ) : cmp (real q).place (real r).place = cmp q r := by
  have hmono : StrictMono fun q : ℚ => (real q).place := by
    intro q r h
    exact EReal.coe_lt_coe_iff.2 (Rat.cast_lt.2 h)
  exact hmono.cmp_map_eq q r

theorem unpackedValue_finite (s : Sign) (hn : 0 < n) :
    unpackedValue (.finite s n i hn) = real ((s.apply n * 2 ^ i : ℚ) : ℝ) := by
  cases s <;> simp [unpackedValue, Sign.apply]

theorem unpackedValue_zero (s : Sign) : unpackedValue (.zero s) = real ((0 : ℚ) : ℝ) :=
  congrArg real Rat.cast_zero.symm

/-- The sign is compared first, then the magnitude. -/
theorem compare_finite {n n' : ℕ} {i i' : ℤ} (s s' : Sign) (hn : Canonical n i)
    (hn' : Canonical n' i') :
    UnpackedFloat.compare (.finite s n i hn.pos) (.finite s' n' i' hn'.pos) =
      some (cmp (s.apply n * 2 ^ i : ℚ) (s'.apply n' * 2 ^ i')) := by
  have hcmp := compare_canonical hn hn'
  have hpos : (0 : ℚ) < n * 2 ^ i := mul_pos (Nat.cast_pos.2 hn.pos) (by positivity)
  have hpos' : (0 : ℚ) < n' * 2 ^ i' := mul_pos (Nat.cast_pos.2 hn'.pos) (by positivity)
  cases s with
  | positive =>
    cases s' with
    | positive => exact congrArg some hcmp
    | negative =>
      refine congrArg some ((cmp_eq_gt_iff _ _).2 ?_).symm
      simp only [Sign.apply, Int.cast_neg, Int.cast_natCast]
      linarith
  | negative =>
    cases s' with
    | positive =>
      refine congrArg some ((cmp_eq_lt_iff _ _).2 ?_).symm
      simp only [Sign.apply, Int.cast_neg, Int.cast_natCast]
      linarith
    | negative =>
      refine congrArg some ?_
      rw [hcmp, cmp_swap]
      simp only [Sign.apply, Int.cast_neg, Int.cast_natCast, neg_mul]
      exact (StrictAnti.cmp_map_eq (fun _ _ h => neg_lt_neg h) _ _).symm

/-- Zero is compared by the sign of the other number. -/
theorem compare_zero (s s' : Sign) (hn : 0 < n) :
    UnpackedFloat.compare (.zero s) (.finite s' n i hn) = some (cmp 0 (s'.apply n * 2 ^ i : ℚ)) ∧
      UnpackedFloat.compare (.finite s' n i hn) (.zero s) =
        some (cmp (s'.apply n * 2 ^ i : ℚ) 0) := by
  have hpos : (0 : ℚ) < n * 2 ^ i := mul_pos (Nat.cast_pos.2 hn) (by positivity)
  cases s' with
  | positive =>
    have hvalue : (Sign.positive.apply n * 2 ^ i : ℚ) = n * 2 ^ i := rfl
    rw [hvalue, (cmp_eq_lt_iff _ _).2 hpos, (cmp_eq_gt_iff _ _).2 hpos]
    exact ⟨rfl, rfl⟩
  | negative =>
    have hvalue : (Sign.negative.apply n * 2 ^ i : ℚ) < 0 := by
      simpa [Sign.apply] using hpos
    rw [(cmp_eq_gt_iff _ _).2 hvalue, (cmp_eq_lt_iff _ _).2 hvalue]
    exact ⟨rfl, rfl⟩

/-- An infinity is compared as the end of the line that it is. -/
theorem compare_infinity (s : Sign) (hw : Holds w) :
    UnpackedFloat.compare (.infinity s) w =
        some (cmp (unpackedValue (.infinity s)).place (unpackedValue w).place) ∧
      w.compare (.infinity s) =
        some (cmp (unpackedValue w).place (unpackedValue (.infinity s)).place) := by
  have htop (x : ℝ) : cmp (⊤ : EReal) x = .gt := (cmp_eq_gt_iff _ _).2 (EReal.coe_lt_top x)
  have htop' (x : ℝ) : cmp (x : EReal) ⊤ = .lt := (cmp_eq_lt_iff _ _).2 (EReal.coe_lt_top x)
  have hbot (x : ℝ) : cmp (⊥ : EReal) x = .lt := (cmp_eq_lt_iff _ _).2 (EReal.bot_lt_coe x)
  have hbot' (x : ℝ) : cmp (x : EReal) ⊥ = .gt := (cmp_eq_gt_iff _ _).2 (EReal.bot_lt_coe x)
  have hself (x : EReal) : cmp x x = .eq := cmp_self_eq_eq x
  have hends : cmp (⊥ : EReal) ⊤ = .lt := (cmp_eq_lt_iff _ _).2 bot_lt_top
  have hends' : cmp (⊤ : EReal) ⊥ = .gt := (cmp_eq_gt_iff _ _).2 bot_lt_top
  cases hw with
  | infinity s' =>
    cases s with
    | positive =>
      cases s' with
      | positive => exact ⟨congrArg some (hself _).symm, congrArg some (hself _).symm⟩
      | negative => exact ⟨congrArg some hends'.symm, congrArg some hends.symm⟩
    | negative =>
      cases s' with
      | positive => exact ⟨congrArg some hends.symm, congrArg some hends'.symm⟩
      | negative => exact ⟨congrArg some (hself _).symm, congrArg some (hself _).symm⟩
  | zero s' =>
    cases s with
    | positive => exact ⟨congrArg some (htop _).symm, congrArg some (htop' _).symm⟩
    | negative => exact ⟨congrArg some (hbot _).symm, congrArg some (hbot' _).symm⟩
  | finite s' hn' hi' =>
    rw [unpackedValue_finite]
    cases s with
    | positive => exact ⟨congrArg some (htop _).symm, congrArg some (htop' _).symm⟩
    | negative => exact ⟨congrArg some (hbot _).symm, congrArg some (hbot' _).symm⟩

/-- The machine compares numbers by their exact values. -/
theorem compare_eq (hu : Holds u) (hw : Holds w) :
    u.compare w = some (cmp (unpackedValue u).place (unpackedValue w).place) := by
  cases hu with
  | infinity s => exact (compare_infinity s hw).1
  | zero s =>
    cases hw with
    | infinity s' => exact (compare_infinity s' (.zero s)).2
    | zero s' => exact congrArg some (cmp_self_eq_eq _).symm
    | finite s' hn' hi' =>
      rw [(compare_zero s s' hn'.pos).1, unpackedValue_finite, unpackedValue_zero, cmp_place]
  | finite s hn hi =>
    cases hw with
    | infinity s' => exact (compare_infinity s' (.finite s hn hi)).2
    | zero s' =>
      rw [(compare_zero s' s hn.pos).2, unpackedValue_finite, unpackedValue_zero, cmp_place]
    | finite s' hn' hi' =>
      rw [compare_finite s s' hn hn', unpackedValue_finite, unpackedValue_finite, cmp_place]

/-! ## Order -/

variable {v v' : Binary64}

theorem holds_or_undefined (v : Binary64) :
    Scalar.isUndefined v = true ∧ v.toFloat.toModel.unpack = .notANumber ∨
      Scalar.isUndefined v = false ∧ Holds v.toFloat.toModel.unpack := by
  cases v with
  | undefined negative => exact .inl ⟨isUndefined_undefined negative, unpack_undefined⟩
  | number x hx =>
    refine .inr ⟨?_, holds_of_defined hx⟩
    rw [Bool.eq_false_iff]
    intro h
    obtain ⟨negative, hv⟩ := isUndefined_iff.1 h
    cases hv

theorem compare_notANumber (u : UnpackedFloat) : u.compare .notANumber = none := by
  cases u with
  | infinity s => cases s <;> rfl
  | notANumber | zero s | finite s => rfl

theorem compare_unpack (v v' : Binary64) :
    v.toFloat.toModel.unpack.compare v'.toFloat.toModel.unpack =
      if Scalar.isUndefined v = false ∧ Scalar.isUndefined v' = false then
        some (cmp v.exact.place v'.exact.place)
      else none := by
  rcases holds_or_undefined v with ⟨hv, hu⟩ | ⟨hv, hu⟩
  · rw [hu, hv]
    rfl
  · rcases holds_or_undefined v' with ⟨hv', hu'⟩ | ⟨hv', hu'⟩
    · rw [hu', hv', compare_notANumber]
      simp
    · rw [if_pos ⟨hv, hv'⟩, compare_eq hu hu']
      rfl

theorem lt_iff : Scalar.lt v v' = true ↔ Scalar.isUndefined v = false ∧
    Scalar.isUndefined v' = false ∧ v.exact.place < v'.exact.place := by
  rw [lt_eq, UnpackedFloat.lt, compare_unpack, ← and_assoc]
  by_cases h : Scalar.isUndefined v = false ∧ Scalar.isUndefined v' = false
  · simp [h]
  · simp [h]

theorem le_iff : Scalar.le v v' = true ↔ Scalar.isUndefined v = false ∧
    Scalar.isUndefined v' = false ∧ v.exact.place ≤ v'.exact.place := by
  rw [le_eq, UnpackedFloat.le, compare_unpack, ← and_assoc]
  by_cases h : Scalar.isUndefined v = false ∧ Scalar.isUndefined v' = false
  · rw [if_pos h, Option.any_some, and_iff_right h, Ordering.isLE_iff_ne_gt,
      cmp_eq_gt_iff, not_lt]
  · simp [h]

/-- Of two numbers that are defined one is at most the other. -/
theorem le_iff_not_lt (hv : Scalar.isUndefined v = false) (hv' : Scalar.isUndefined v' = false) :
    Scalar.le v v' = true ↔ ¬Scalar.lt v' v = true := by
  rw [le_iff, lt_iff, and_iff_right hv, and_iff_right hv', and_iff_right hv', and_iff_right hv, not_lt]

end Binary64

/-! ## Differences -/

namespace Rounding

open Float.Model Float.Model.UnpackedFloat

variable {m n : ℕ} {e i : ℤ}

theorem log2_shiftLeft (hm : 0 < m) (k : ℕ) : (m <<< k).log2 = m.log2 + k := by
  induction k with
  | zero => simp
  | succ k ih =>
    have hne : m <<< k ≠ 0 := by simp [hm.ne']
    rw [Nat.shiftLeft_succ, Nat.log2_two_mul hne, ih, Nat.add_assoc]

/-- An exact number is rounded, with zeros put behind it if it has too few bits. -/
theorem round_eq (s : Sign) (hm : 0 < m) (hn : Canonical n i) (hv : Rounds n i (m * 2 ^ e)) :
    UnpackedFloat.round .binary64 s m e = .finite s n i hn.pos := by
  obtain ⟨t, ht⟩ : ∃ t, Format.binary64.targetExponent (totalExponent m e) = t := ⟨_, rfl⟩
  obtain ⟨k, hk⟩ : ∃ k, (e - t).toNat = k := ⟨_, rfl⟩
  have hround : UnpackedFloat.round .binary64 s m e =
      roundWithAccuracy .binary64 s (m <<< k) (e - k) .exact := by
    simp only [UnpackedFloat.round, decreaseExponent, ht, hk]
  rw [targetExponent_eq] at ht
  rw [hround]
  -- no bit is shifted out, so what is left to round is exact
  refine roundWithAccuracy_eq s hn hv (.inl (by simp [hm.ne'])) ?_ ?_
  · rw [targetExponent_eq, log2_shiftLeft hm]
    omega
  · have hexact : (m * 2 ^ e : ℚ) / 2 ^ (e - k) = (m <<< k : ℕ) := by
      rw [mul_div_assoc, ← zpow_sub₀ (by norm_num), sub_sub_cancel, zpow_natCast, Nat.shiftLeft_eq]
      push_cast
      rfl
    rw [hexact]
    rfl

end Rounding

namespace Binary64

open Float.Model Float.Model.UnpackedFloat Rounding

variable {n n' : ℕ} {i i' : ℤ} {u w : UnpackedFloat} {v v' : Binary64}

theorem unpack_sub (v w : Binary64) : (v - w).toFloat.toModel.unpack =
    (Float.Model.pack (UnpackedFloat.sub .binary64 v.toFloat.toModel.unpack
      w.toFloat.toModel.unpack)).unpack :=
  unpack_ofFloat _ _

/-- A number with a sign is rounded to one with the same sign. -/
theorem lt_zero_round (s : Sign) {m : ℕ} {e : ℤ} (hm : 0 < m) (he : -1074 ≤ e) :
    UnpackedFloat.lt (.zero .positive)
      (Float.Model.pack (UnpackedFloat.round .binary64 s m e)).unpack = true ↔ s = .positive := by
  have hlarge : (2 : ℚ) ^ (-1074 : ℤ) ≤ m * 2 ^ e := by
    have hone : (1 : ℚ) ≤ m := by exact_mod_cast hm
    have hleast : (2 : ℚ) ^ (-1074 : ℤ) ≤ 2 ^ e := zpow_le_zpow_right₀ (by norm_num) he
    exact hleast.trans (le_mul_of_one_le_left (by positivity) hone)
  obtain ⟨n, i, hn, hv⟩ := exists_rounds hlarge
  rw [round_eq s hm hn hv]
  rcases le_or_gt i 971 with hi | hi
  · rw [unpack_modelPack hn hi]
    cases s <;> simp [UnpackedFloat.lt, UnpackedFloat.compare]
  · rw [unpack_pack_overflow s hn.pos hi]
    cases s <;> simp [UnpackedFloat.lt, UnpackedFloat.compare]

/-- A difference of finite numbers is positive if the first one is larger. -/
theorem lt_zero_sub_finite (s s' : Sign) (hn : Canonical n i) (hn' : Canonical n' i') :
    UnpackedFloat.lt (.zero .positive) (Float.Model.pack (UnpackedFloat.sub .binary64
      (.finite s n i hn.pos) (.finite s' n' i' hn'.pos))).unpack = true ↔
      (s'.apply n' * 2 ^ i' : ℚ) < s.apply n * 2 ^ i := by
  obtain ⟨e, he⟩ : ∃ e, min i i' = e := ⟨_, rfl⟩
  obtain ⟨d, hd⟩ : ∃ d, s.apply (n <<< (i - e).toNat : ℕ) - s'.apply (n' <<< (i' - e).toNat : ℕ) = d :=
    ⟨_, rfl⟩
  have hsub : UnpackedFloat.sub .binary64 (.finite s n i hn.pos) (.finite s' n' i' hn'.pos) =
      UnpackedFloat.normalize .binary64 d e .positive := by
    simp only [UnpackedFloat.sub, decreaseExponent, he, hd]
  have hleast : -1074 ≤ e := he ▸ le_min hn.le hn'.le
  -- at the smaller exponent both numbers are whole, and so is their difference
  have hscale {m : ℕ} {j : ℤ} (s : Sign) (hj : e ≤ j) :
      (s.apply (m <<< (j - e).toNat : ℕ) * 2 ^ e : ℚ) = s.apply m * 2 ^ j := by
    obtain ⟨k, rfl⟩ := Int.le.dest hj
    have hk : (e + k - e).toNat = k := by omega
    rw [hk, Nat.shiftLeft_eq, zpow_add₀ (by norm_num), zpow_natCast]
    cases s <;> simp only [Sign.apply] <;> push_cast <;> ring
  have hvalue : (d * 2 ^ e : ℚ) = s.apply n * 2 ^ i - s'.apply n' * 2 ^ i' := by
    rw [← hscale s (he ▸ min_le_left i i'), ← hscale s' (he ▸ min_le_right i i'), ← hd]
    push_cast
    ring
  have hpos : (0 : ℚ) < 2 ^ e := by positivity
  rw [hsub, ← sub_pos, ← hvalue, mul_pos_iff_of_pos_right hpos, Int.cast_pos, UnpackedFloat.normalize]
  rcases lt_trichotomy d 0 with hneg | hzero | hgt
  · rw [Int.compare_eq_lt.2 hneg]
    dsimp only
    rw [lt_zero_round .negative (by omega) hleast]
    simp [hneg.le]
  · rw [Int.compare_eq_eq.2 hzero, hzero]
    dsimp only
    rw [(Holds.zero .positive).unpack_pack]
    simp [UnpackedFloat.lt, UnpackedFloat.compare]
  · rw [Int.compare_eq_gt.2 hgt]
    dsimp only
    rw [lt_zero_round .positive (by omega) hleast]
    simp [hgt]

/-- What the machine holds of a difference is positive if the first number is larger. -/
theorem lt_zero_pack_sub (hu : Holds u) (hw : Holds w) : UnpackedFloat.lt (.zero .positive)
    (Float.Model.pack (UnpackedFloat.sub .binary64 u w)).unpack = w.lt u := by
  -- unless both numbers are finite, the difference is one of them or an infinity
  have hheld {r : UnpackedFloat} (hr : Holds r) (hsub : UnpackedFloat.sub .binary64 u w = r) :
      UnpackedFloat.lt (.zero .positive)
        (Float.Model.pack (UnpackedFloat.sub .binary64 u w)).unpack =
          UnpackedFloat.lt (.zero .positive) r := by
    rw [hsub, hr.unpack_pack]
  cases hu with
  | infinity s =>
    cases hw with
    | infinity s' => cases s <;> cases s' <;> rfl
    | zero s' => exact (hheld (.infinity s) rfl).trans (by cases s <;> rfl)
    | finite s' hn' hi' =>
      exact (hheld (.infinity s) rfl).trans (by cases s <;> cases s' <;> rfl)
  | zero s =>
    cases hw with
    | infinity s' => exact (hheld (.infinity (-s')) rfl).trans (by cases s' <;> rfl)
    | zero s' => cases s <;> cases s' <;> rfl
    | finite s' hn' hi' => exact (hheld (.finite (-s') hn' hi') rfl).trans (by cases s' <;> rfl)
  | finite s hn hi =>
    cases hw with
    | infinity s' =>
      exact (hheld (.infinity (-s')) rfl).trans (by cases s <;> cases s' <;> rfl)
    | zero s' => exact (hheld (.finite s hn hi) rfl).trans (by cases s <;> rfl)
    | finite s' hn' hi' =>
      refine Bool.eq_iff_iff.2 ((lt_zero_sub_finite s s' hn hn').trans ?_)
      rw [UnpackedFloat.lt, compare_finite s' s hn' hn]
      simp

/-- A difference is positive exactly if the first number is larger. -/
theorem lt_zero_sub (v v' : Binary64) : Scalar.lt Scalar.zero (v - v') = Scalar.lt v' v := by
  obtain ⟨hzero, hzero'⟩ := zero_eq
  have hfloat : (number 0 hzero).toFloat = 0 := rfl
  rw [hzero', lt_eq, lt_eq, hfloat, unpack_zero, unpack_sub]
  rcases holds_or_undefined v with ⟨-, hu⟩ | ⟨-, hu⟩
  · have hlt : v'.toFloat.toModel.unpack.lt .notANumber = false := by
      rw [UnpackedFloat.lt, compare_notANumber]
      rfl
    have hsub : UnpackedFloat.sub .binary64 .notANumber v'.toFloat.toModel.unpack =
        .notANumber := by
      cases v'.toFloat.toModel.unpack <;> rfl
    rw [hu, hlt, hsub]
    rfl
  · rcases holds_or_undefined v' with ⟨-, hu'⟩ | ⟨-, hu'⟩
    · have hsub : UnpackedFloat.sub .binary64 v.toFloat.toModel.unpack .notANumber =
          .notANumber := by
        cases v.toFloat.toModel.unpack <;> rfl
      rw [hu', hsub]
      rfl
    · exact lt_zero_pack_sub hu hu'

end Binary64

end HybridPlan
