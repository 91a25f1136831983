import HybridPlan.Proofs.Numbers.Value

set_option autoImplicit false

/-! # Rounding is monotone

Every positive number that is not tiny is rounded to a number in double precision, or beyond the largest
of them, and a larger number is not rounded to a smaller one. So the multiples of a positive number do not
decrease. -/

namespace HybridPlan.Rounding

open Float.Model Float.Model.UnpackedFloat

variable {n n' : ℕ} {i i' : ℤ} {x v w : ℚ}

/-! ## Nearest integers -/

namespace Nearest

theorem le_of_le (h : Nearest n x) {k : ℕ} (hk : (k : ℚ) ≤ x) : k ≤ n := by
  have hhigh := h.high
  have hlt : (k : ℚ) < n + 1 := by linarith
  exact Nat.le_of_lt_succ (by exact_mod_cast hlt)

theorem le_of_lt (h : Nearest n x) {k : ℕ} (hk : x < k) : n ≤ k := by
  have hlow := h.low
  have hlt : (n : ℚ) < k + 1 := by linarith
  exact Nat.le_of_lt_succ (by exact_mod_cast hlt)

/-- A larger number has no smaller nearest integer. -/
theorem mono (h : Nearest n v) (h' : Nearest n' w) (hle : v ≤ w) : n ≤ n' := by
  by_contra hlt
  have hlt : (n' : ℚ) + 1 ≤ n := by exact_mod_cast Nat.not_le.1 hlt
  have hlow := h.low
  have hhigh := h'.high
  -- both numbers lie in the middle of the same two integers, of which only one is even
  have heven := h.even (.inl (by linarith))
  have heven' := h'.even (.inr (by linarith))
  have hnext : (n : ℚ) = (n' + 1 : ℕ) := by
    push_cast
    linarith
  have hnext : n = n' + 1 := by exact_mod_cast hnext
  omega

end Nearest

theorem exists_nearest (hx : 0 ≤ x) : ∃ n, Nearest n x := by
  obtain ⟨f, hf⟩ : ∃ f, ⌊x⌋₊ = f := ⟨_, rfl⟩
  have hle : (f : ℚ) ≤ x := hf ▸ Nat.floor_le hx
  have hlt : x < f + 1 := hf ▸ Nat.lt_floor_add_one x
  rcases lt_trichotomy x (f + 1 / 2) with hdown | hhalf | hup
  · exact ⟨f, by linarith, hdown.le, fun h => by rcases h with h | h <;> linarith⟩
  · rcases Nat.even_or_odd f with heven | hodd
    · exact ⟨f, by linarith, hhalf.le, fun _ => Nat.even_iff.1 heven⟩
    · refine ⟨f + 1, ?_, ?_, fun _ => Nat.even_iff.1 hodd.add_one⟩
      · push_cast
        linarith
      · push_cast
        linarith
  · refine ⟨f + 1, ?_, ?_, fun h => ?_⟩
    · push_cast
      linarith
    · push_cast
      linarith
    · push_cast at h
      rcases h with h | h <;> linarith

/-! ## Numbers that are rounded -/

/-- The exponent with which a number has 53 bits, or the least one. -/
theorem exists_exponent (hv : (2 : ℚ) ^ (-1074 : ℤ) ≤ v) :
    ∃ i : ℤ, -1074 ≤ i ∧ 1 ≤ v / 2 ^ i ∧ v / 2 ^ i < 2 ^ 53 ∧
      (2 ^ 52 ≤ v / 2 ^ i ∨ i = -1074) := by
  have hpos : 0 < v := lt_of_lt_of_le (by positivity) hv
  have hlow := Int.zpow_log_le_self (b := 2) one_lt_two hpos
  have hhigh := Int.lt_zpow_succ_log_self (b := 2) one_lt_two v
  obtain ⟨l, hl⟩ : ∃ l, Int.log 2 v = l := ⟨_, rfl⟩
  rw [hl, Nat.cast_ofNat] at hlow hhigh
  have hscale (i : ℤ) : 0 < (2 : ℚ) ^ i := by positivity
  have hsplit (j i : ℤ) : (2 : ℚ) ^ j * 2 ^ i = 2 ^ (j + i) := (zpow_add₀ (by norm_num) j i).symm
  rcases le_or_gt (-1022) l with hnormal | hsmall
  · have hlarge : (2 : ℚ) ^ (52 : ℤ) ≤ v / 2 ^ (l - 52) := by
      rw [le_div_iff₀ (hscale _), hsplit, add_sub_cancel]
      exact hlow
    have hbelow : v / 2 ^ (l - 52) < (2 : ℚ) ^ (53 : ℤ) := by
      rw [div_lt_iff₀ (hscale _), hsplit, show (53 : ℤ) + (l - 52) = l + 1 by ring]
      exact hhigh
    norm_num at hlarge hbelow
    refine ⟨l - 52, by omega, by linarith, ?_, .inl ?_⟩
    · norm_num
      exact hbelow
    · norm_num
      exact hlarge
  · have hbelow : v / 2 ^ (-1074 : ℤ) < (2 : ℚ) ^ (53 : ℤ) := by
      rw [div_lt_iff₀ (hscale _), hsplit]
      exact hhigh.trans_le (zpow_le_zpow_right₀ (by norm_num) (by omega))
    refine ⟨-1074, le_refl _, ?_, by exact_mod_cast hbelow, .inr rfl⟩
    rwa [le_div_iff₀ (hscale _), one_mul]

/-- Every positive number that is not tiny is rounded, perhaps beyond the largest number. -/
theorem exists_rounds (hv : (2 : ℚ) ^ (-1074 : ℤ) ≤ v) : ∃ n i, Canonical n i ∧ Rounds n i v := by
  obtain ⟨i, hi, hone, hlt, hnormal⟩ := exists_exponent hv
  obtain ⟨n, hn⟩ := exists_nearest (zero_le_one.trans hone)
  have hpos : 0 < n := hn.le_of_le (by exact_mod_cast hone)
  have hle : n ≤ 2 ^ 53 := hn.le_of_lt (by exact_mod_cast hlt)
  have hbits : 2 ^ 52 ≤ n ∨ i = -1074 :=
    hnormal.imp_left fun h => hn.le_of_le (by exact_mod_cast h)
  rcases Nat.lt_or_eq_of_le hle with hfits | rfl
  · refine ⟨n, i, ⟨hpos, hfits, hi, hbits⟩, hn, fun _ hnot => ?_⟩
    have hlarge := hnormal.resolve_right hnot
    linarith
  · -- the number is rounded up to the next power of two
    have hhalf : v / 2 ^ (i + 1) = v / 2 ^ i / 2 := by
      rw [zpow_add_one₀ (by norm_num), div_div]
    have hlow := hn.low
    refine ⟨2 ^ 52, i + 1, ⟨by norm_num, by norm_num, by omega, .inl (le_refl _)⟩, ?_,
      fun _ _ => ?_⟩
    · rw [hhalf]
      norm_num at hlow hlt ⊢
      refine ⟨?_, ?_, fun _ => rfl⟩
      · norm_num
        linarith
      · norm_num
        linarith
    · rw [hhalf]
      norm_num at hlow ⊢
      linarith

namespace Rounds

/-- What is rounded to a number of 53 bits is at most a quarter less than the least of these. -/
theorem carry_le (hn : Canonical n i) (h : Rounds n i v) (hi : i ≠ -1074) :
    (2 : ℚ) ^ 52 - 1 / 4 ≤ v / 2 ^ i := by
  rcases Nat.lt_or_eq_of_le (hn.normal.resolve_right hi) with hlt | heq
  · have hnext : (2 : ℚ) ^ 52 + 1 ≤ n := by exact_mod_cast hlt
    have hlow := h.nearest.low
    linarith
  · exact h.narrow heq.symm hi

/-- What is not rounded up to 54 bits is more than a half less than the least number of these. -/
theorem lt_carry (hn : Canonical n i) (h : Rounds n i v) : v / 2 ^ i < (2 : ℚ) ^ 53 - 1 / 2 := by
  have hhigh := h.nearest.high
  rcases Nat.lt_or_eq_of_le (Nat.succ_le_of_lt hn.lt) with hlt | heq
  · have hnext : (n : ℚ) + 2 ≤ 2 ^ 53 := by exact_mod_cast hlt
    linarith
  · have hlast : (n : ℚ) + 1 = 2 ^ 53 := by exact_mod_cast heq
    refine lt_of_le_of_ne (by linarith) fun htie => ?_
    -- the largest number of 53 bits is odd
    have heven := h.nearest.even (.inr (by linarith))
    omega

/-- A larger number is not rounded to a smaller one. -/
theorem mono (hn : Canonical n i) (hn' : Canonical n' i') (h : Rounds n i v)
    (h' : Rounds n' i' w) (hle : v ≤ w) : i < i' ∨ i = i' ∧ n ≤ n' := by
  rcases lt_trichotomy i i' with hlt | rfl | hgt
  · exact .inl hlt
  · refine .inr ⟨rfl, h.nearest.mono h'.nearest ?_⟩
    exact div_le_div_of_nonneg_right hle (by positivity)
  · -- with the smaller exponent the larger number needs a bit more than there is
    exfalso
    have hleast := hn'.le
    have hlow := h.carry_le hn (by omega)
    have hhigh := h'.lt_carry hn'
    have hdouble : 2 * (v / 2 ^ i) ≤ w / 2 ^ i' := by
      have htwo : (2 : ℚ) * 2 ^ i' ≤ 2 ^ i := by
        rw [← zpow_one_add₀ (by norm_num)]
        exact zpow_le_zpow_right₀ (by norm_num) (by omega)
      rw [le_div_iff₀ (by positivity)]
      calc 2 * (v / 2 ^ i) * 2 ^ i' = v / 2 ^ i * (2 * 2 ^ i') := by ring
        _ ≤ v / 2 ^ i * 2 ^ i := mul_le_mul_of_nonneg_left htwo (by linarith)
        _ = v := div_mul_cancel₀ _ (by positivity)
        _ ≤ w := hle
    linarith

end Rounds

end HybridPlan.Rounding

namespace HybridPlan.Binary64

open Float.Model Float.Model.UnpackedFloat Rounding

variable {n n' : ℕ} {i i' : ℤ} {v w : ℚ} {u u' c : UnpackedFloat}

/-! ## Positive numbers -/

/-- What the machine holds of a positive number: what it is rounded to or, beyond the largest number, an
infinity. -/
inductive Held (v : ℚ) : UnpackedFloat → Prop
  | finite {n : ℕ} {i : ℤ} (hn : Canonical n i) (hv : Rounds n i v) (hi : i ≤ 971) :
      Held v (.finite .positive n i hn.pos)
  | infinity {n : ℕ} {i : ℤ} (hn : Canonical n i) (hv : Rounds n i v) (hi : 971 < i) :
      Held v (.infinity .positive)

theorem unpack_pack_overflow (s : Sign) (hn : 0 < n) (hi : 971 < i) :
    (Float.Model.pack (.finite s n i hn)).unpack = .infinity s := by
  have hbias : i + (Format.binary64.exponentBias : ℕ) +
      (Format.binary64.mantissaBitsWithoutImplicit : ℕ) = i + 1075 := by
    simp [Format.exponentBias]
    omega
  have hpack : UnpackedFloat.pack .binary64 (.finite s n i hn) = packedInfinity .binary64 s := by
    simp only [UnpackedFloat.pack, hbias]
    exact if_pos (by simp; omega)
  change UnpackedFloat.unpack .binary64 (UnpackedFloat.pack .binary64 (.finite s n i hn)) = _
  rw [hpack]
  cases s <;> rfl

theorem held_pack (hn : Canonical n i) (hv : Rounds n i v) :
    Held v (Float.Model.pack (.finite .positive n i hn.pos)).unpack := by
  rcases le_or_gt i 971 with hi | hi
  · rw [unpack_modelPack hn hi]
    exact .finite hn hv hi
  · rw [unpack_pack_overflow .positive hn.pos hi]
    exact .infinity hn hv hi

/-- Positive numbers are compared by their exponents first. -/
theorem le_finite_iff {hn : 0 < n} {hn' : 0 < n'} :
    UnpackedFloat.le (.finite .positive n i hn) (.finite .positive n' i' hn') = true ↔
      i < i' ∨ i = i' ∧ n ≤ n' := by
  have hcompare : UnpackedFloat.le (.finite .positive n i hn) (.finite .positive n' i' hn') =
      ((compare i i').then (compare n n')).isLE := rfl
  rw [hcompare, Ordering.isLE_then_iff_or, Int.compare_eq_lt, Int.compare_eq_eq, Nat.isLE_compare]

/-- What is at most a positive number is at most every larger one. -/
theorem Held.le_of_le (h : Held v u) (h' : Held w u') (hle : v ≤ w) (hc : c.le u = true) :
    c.le u' = true := by
  cases h with
  | @finite n i hn hv hi =>
    cases h' with
    | @finite n' i' hn' hw hi' =>
      have hmono := hv.mono hn hn' hw hle
      cases c with
      | notANumber => cases hc
      | infinity s => cases s <;> first | rfl | cases hc
      | zero s => rfl
      | finite s m e hm =>
        cases s with
        | negative => rfl
        | positive =>
          rw [le_finite_iff] at hc ⊢
          omega
    | infinity hn' hw hi' =>
      cases c with
      | notANumber => cases hc
      | infinity s => cases s <;> rfl
      | zero s => rfl
      | finite s m e hm => rfl
  | infinity hn hv hi =>
    cases h' with
    | finite hn' hw hi' =>
      have hmono := hv.mono hn hn' hw hle
      omega
    | infinity hn' hw hi' => exact hc

/-! ## Multiples -/

variable {ε : Binary64} {j k : ℕ}

theorem le_eq (v w : Binary64) :
    Scalar.le v w = v.toFloat.toModel.unpack.le w.toFloat.toModel.unpack := by
  have hmodel : (v.toFloat.toModel ≤ w.toFloat.toModel) ↔
      v.toFloat.toModel.unpack.le w.toFloat.toModel.unpack = true := Iff.rfl
  refine Bool.eq_iff_iff.2 ?_
  exact decide_eq_true_iff.trans
    ((decide_eq_true_iff (p := v.toFloat.toModel ≤ w.toFloat.toModel)).trans hmodel)

/-- A result of the machine is held as it is. -/
theorem unpack_ofFloat (x : Float) (s : Option Bool) :
    (ofFloat x s).toFloat.toModel.unpack = x.toModel.unpack := by
  unfold ofFloat
  split
  · next h =>
    have hundefined : x.toModel.unpack = .notANumber := by
      change x.toModel.unpack.isNaN = true at h
      cases hx : x.toModel.unpack <;> rw [hx] at h <;> first | rfl | cases h
    exact unpack_undefined.trans hundefined.symm
  · rfl

theorem unpack_mul (v w : Binary64) : (v * w).toFloat.toModel.unpack =
    (Float.Model.pack (UnpackedFloat.mul .binary64 v.toFloat.toModel.unpack
      w.toFloat.toModel.unpack)).unpack :=
  unpack_ofFloat _ _

/-- A natural number of at most 53 bits is held exactly. -/
theorem unpack_nat (hk : 0 < k) (hbits : k < 2 ^ 53) : ∃ m e, ∃ hm : Canonical m e,
    (Scalar.nat k : Binary64).toFloat.toModel.unpack = .finite .positive m e hm.pos ∧ 2 ^ 52 ≤ m ∧
      (m * 2 ^ e : ℚ) = k := by
  obtain ⟨m, e, hm, -, he, hnormal, hvalue⟩ := ofNat_eq hk hbits
  have hrounds : Rounds m e (k * 10 ^ (0 : ℤ)) := by
    rw [zpow_zero, mul_one, ← hvalue]
    exact rounds_self m e
  obtain ⟨x, hx, hdecimal, hunpack⟩ := ofDecimal_eq hm (by omega) hrounds
  refine ⟨m, e, hm, ?_, hnormal, hvalue⟩
  change (Binary64.ofDecimal k 0).toFloat.toModel.unpack = _
  rw [hdecimal]
  exact hunpack

/-- A positive number is an infinity or finite. -/
theorem unpack_of_pos (hε : Scalar.lt Scalar.zero ε = true) :
    ε.toFloat.toModel.unpack = .infinity .positive ∨
      ∃ m e, ∃ hm : Canonical m e, ε.toFloat.toModel.unpack = .finite .positive m e hm.pos := by
  obtain ⟨hzero, hzero'⟩ := zero_eq
  have hfloat : (number 0 hzero).toFloat = 0 := rfl
  rw [hzero', lt_eq, hfloat, unpack_zero] at hε
  cases ε with
  | undefined negative =>
    have hundefined : (undefined negative).toFloat.toModel.unpack = .notANumber := unpack_undefined
    rw [hundefined] at hε
    cases hε
  | number x hx =>
    have hholds := holds_of_defined hx
    rw [toFloat] at hε ⊢
    generalize x.toModel.unpack = u at hholds hε
    cases hholds with
    | infinity s =>
      cases s with
      | positive => exact .inl rfl
      | negative => cases hε
    | zero s => cases hε
    | @finite m e s hm _ =>
      cases s with
      | positive => exact .inr ⟨m, e, hm, rfl⟩
      | negative => cases hε

/-- The multiples of a finite positive number are rounded once. -/
theorem held_multiple {m : ℕ} {e : ℤ} (hm : Canonical m e)
    (hε : ε.toFloat.toModel.unpack = .finite .positive m e hm.pos) (hk : 0 < k) (hbits : k < 2 ^ 53) :
    Held (k * (m * 2 ^ e)) (Scalar.nat k * ε).toFloat.toModel.unpack := by
  obtain ⟨m', e', hm', hnat, hnormal, hvalue⟩ := unpack_nat hk hbits
  have hlarge : (2 : ℚ) ^ (-1074 : ℤ) ≤ k * (m * 2 ^ e) := by
    have hleast : (2 : ℚ) ^ (-1074 : ℤ) ≤ 2 ^ e := zpow_le_zpow_right₀ (by norm_num) hm.le
    have hone : (1 : ℚ) ≤ (k * m : ℕ) := by exact_mod_cast Nat.mul_pos hk hm.pos
    rw [← mul_assoc, ← Nat.cast_mul]
    exact hleast.trans (le_mul_of_one_le_left (by positivity) hone)
  obtain ⟨n, i, hn, hv⟩ := exists_rounds hlarge
  have hproduct : UnpackedFloat.mul .binary64 (.finite .positive m' e' hm'.pos)
      (.finite .positive m e hm.pos) = .finite .positive n i hn.pos := by
    refine mul_eq .positive .positive _ _ ?_ hn (by rwa [hvalue])
    exact hnormal.trans (Nat.le_mul_of_pos_right _ hm.pos)
  rw [unpack_mul, hnat, hε, hproduct]
  exact held_pack hn hv

/-- What is at most a multiple of a positive number is at most every larger multiple. -/
theorem le_multiple {c : Binary64} (hε : Scalar.lt Scalar.zero ε = true) (hj : 0 < j) (hjk : j ≤ k)
    (hk : k < 2 ^ 53) (h : Scalar.le c (Scalar.nat j * ε) = true) :
    Scalar.le c (Scalar.nat k * ε) = true := by
  have hpos : 0 < k := by omega
  rw [le_eq] at h ⊢
  rcases unpack_of_pos hε with hinfinity | ⟨m, e, hm, hfinite⟩
  · have hmultiple {l : ℕ} (hl : 0 < l) (hbits : l < 2 ^ 53) :
        (Scalar.nat l * ε).toFloat.toModel.unpack = .infinity .positive := by
      obtain ⟨m', e', hm', hnat, -⟩ := unpack_nat hl hbits
      rw [unpack_mul, hnat, hinfinity]
      exact (Holds.infinity .positive).unpack_pack
    rwa [hmultiple hpos hk, ← hmultiple hj (by omega)]
  · refine (held_multiple hm hfinite hj (by omega)).le_of_le (held_multiple hm hfinite hpos hk) ?_ h
    exact mul_le_mul_of_nonneg_right (Nat.cast_le.2 hjk) (by positivity)

end HybridPlan.Binary64
