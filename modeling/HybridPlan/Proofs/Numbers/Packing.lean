import HybridPlan.Decimal.Shortest
import HybridPlan.Proofs.Numbers.Rounding

set_option autoImplicit false

/-! # The bits of a number in double precision

A number in double precision is held by its sign, its exponent and its mantissa. Taking the bits apart and
putting them together again are inverse to each other. -/

namespace HybridPlan.Rounding

open Float.Model Float.Model.UnpackedFloat

/-! ## Components -/

section

variable (b : BitVec 64)

/-- The bits of the exponent. -/
def exponentBits : BitVec 11 := @unpackExponent .binary64 b

/-- The bits of the mantissa. -/
def mantissaBits : BitVec 52 := @unpackMantissa .binary64 b

def signOf : Sign := .ofBitVec (@unpackSign .binary64 b)

/-- The components together are the bits. -/
theorem packComponents_eq :
    packComponents .binary64 (signOf b) (exponentBits b) (mantissaBits b) = b := by
  have hsign : (signOf b).toBitVec = @unpackSign .binary64 b := by
    have h : ∀ c : BitVec 1, (Sign.ofBitVec c).toBitVec = c := by decide
    exact h _
  simp only [packComponents, hsign, unpackSign, unpackExponent, unpackMantissa, BitVec.extractLsb,
    exponentBits, mantissaBits]
  ext i hi
  grind

theorem toNat_exponentBits : (exponentBits b).toNat = b.toNat / 2 ^ 52 % 2 ^ 11 := by
  simp [exponentBits, unpackExponent, Nat.shiftRight_eq_div_pow]

theorem toNat_mantissaBits : (mantissaBits b).toNat = b.toNat % 2 ^ 52 := by
  simp [mantissaBits, unpackMantissa]

theorem signOf_eq : signOf b = if b.toNat / 2 ^ 63 = 1 then .negative else .positive := by
  have hbit : (@unpackSign .binary64 b).toNat = b.toNat / 2 ^ 63 := by
    have hlt := b.isLt
    simp only [unpackSign, BitVec.toNat_cast, BitVec.extractLsb_toNat, Nat.shiftRight_eq_div_pow]
    omega
  have hzero : (@unpackSign .binary64 b = 0#1) ↔ b.toNat / 2 ^ 63 = 0 := by
    rw [← hbit]
    exact (BitVec.toNat_inj (y := 0#1)).symm
  have hlt := b.isLt
  rw [signOf, Sign.ofBitVec]
  simp only [hzero]
  split <;> split <;> first | rfl | omega

theorem toNat_implicit (m : BitVec 52) : (1#1 ++ m).toNat = 2 ^ 52 + m.toNat := by
  rw [BitVec.toNat_append, ← Nat.shiftLeft_add_eq_or_of_lt m.isLt]
  simp [Nat.shiftLeft_eq]

/-- What the bits hold, told from the exponent and the mantissa. -/
theorem unpack_eq : unpack .binary64 b =
    if (exponentBits b).toNat = 2047 then
      if (mantissaBits b).toNat = 0 then .infinity (signOf b) else .notANumber
    else if (exponentBits b).toNat = 0 then
      if h : (mantissaBits b).toNat = 0 then .zero (signOf b)
      else .finite (signOf b) (mantissaBits b).toNat (-1074) (Nat.pos_of_ne_zero h)
    else .finite (signOf b) (2 ^ 52 + (mantissaBits b).toNat) ((exponentBits b).toNat - 1075)
      (Nat.add_pos_left (by norm_num) _) := by
  have hones : (@unpackExponent .binary64 b = -1#_) ↔ (exponentBits b).toNat = 2047 :=
    (BitVec.toNat_inj (x := exponentBits b)).symm
  have hzero : (@unpackExponent .binary64 b = 0#_) ↔ (exponentBits b).toNat = 0 :=
    (BitVec.toNat_inj (x := exponentBits b)).symm
  have hmantissa : (@unpackMantissa .binary64 b = 0#_) ↔ (mantissaBits b).toNat = 0 :=
    (BitVec.toNat_inj (x := mantissaBits b)).symm
  have hbias : ((Format.binary64.exponentBias : ℕ) : ℤ) + (Format.binary64.mantissaBitsWithoutImplicit : ℕ) =
      1075 := rfl
  unfold UnpackedFloat.unpack
  simp only [hones, hzero, hmantissa, hbias]
  split
  · rfl
  · split
    · next h =>
      split
      · rfl
      · have hexponent : ((@unpackExponent .binary64 b).toNat : ℤ) = 0 := by exact_mod_cast h
        simp only [hexponent]
        rfl
    · simp only [toNat_implicit]
      rfl

end

/-! ## Packing -/

section

variable {s : Sign} {n : ℕ} {i : ℤ}

theorem finite_congr {m : ℕ} {e : ℤ} {hm : 0 < m} {hn : 0 < n} (h : m = n) (h' : e = i) :
    UnpackedFloat.finite s m e hm = .finite s n i hn := by
  subst h h'
  rfl

theorem log2_of_normal (hlow : 2 ^ 52 ≤ n) (hhigh : n < 2 ^ 53) : n.log2 = 52 := by
  have hpos : n ≠ 0 := by omega
  have := (Nat.le_log2 hpos).2 hlow
  have := (Nat.log2_lt hpos).2 hhigh
  omega

/-- A number of 53 bits is held without the first of them. -/
theorem pack_normal (hn : Canonical n i) (hi : i ≤ 971) (hnormal : 2 ^ 52 ≤ n) :
    UnpackedFloat.pack .binary64 (.finite s n i hn.pos) =
      packComponents .binary64 s (BitVec.ofNat 11 (i + 1075).toNat) (BitVec.ofNat 52 n) := by
  have hle := hn.le
  have hlog := log2_of_normal hnormal hn.lt
  have hbias : i + (Format.binary64.exponentBias : ℕ) + (Format.binary64.mantissaBitsWithoutImplicit : ℕ) =
      i + 1075 := by
    simp [Format.exponentBias]
    omega
  simp only [UnpackedFloat.pack, hbias, hlog]
  rw [if_neg (by simp; omega), if_pos (by decide)]

/-- A smaller number is held with the exponent zero. -/
theorem pack_subnormal (hn : Canonical n i) (hsmall : n < 2 ^ 52) :
    UnpackedFloat.pack .binary64 (.finite s n i hn.pos) =
      packComponents .binary64 s 0#11 (BitVec.ofNat 52 n) := by
  obtain rfl := hn.normal.resolve_left (Nat.not_le.2 hsmall)
  have hlog : n.log2 < 52 := (Nat.log2_lt hn.pos.ne').2 hsmall
  simp only [UnpackedFloat.pack]
  rw [if_neg (by decide), if_neg (by simp [Format.mantissaBits]; omega)]

theorem signOf_packComponents (e : BitVec 11) (m : BitVec 52) :
    signOf (packComponents .binary64 s e m) = s := by
  have hsign : @unpackSign .binary64 (packComponents .binary64 s e m) = s.toBitVec := by
    simp only [packComponents, unpackSign, BitVec.extractLsb]
    ext i hi
    grind
  rw [signOf, hsign]
  cases s <;> rfl

/-- A number in double precision comes out as it went in. -/
theorem unpack_pack (hn : Canonical n i) (hi : i ≤ 971) :
    UnpackedFloat.unpack .binary64 (UnpackedFloat.pack .binary64 (.finite s n i hn.pos)) =
      .finite s n i hn.pos := by
  have hle := hn.le
  have hlt := hn.lt
  have hexponent (e : BitVec 11) (m : BitVec 52) :
      exponentBits (packComponents .binary64 s e m) = e := unpackExponent_packComponents
  have hmantissa (e : BitVec 11) (m : BitVec 52) :
      mantissaBits (packComponents .binary64 s e m) = m := unpackMantissa_packComponents
  rcases Nat.lt_or_ge n (2 ^ 52) with hsmall | hnormal
  · obtain rfl := hn.normal.resolve_left (Nat.not_le.2 hsmall)
    have hpos := hn.pos
    rw [pack_subnormal hn hsmall, unpack_eq, hexponent, hmantissa, signOf_packComponents]
    have hn' : n % 2 ^ 52 = n := Nat.mod_eq_of_lt hsmall
    simp only [BitVec.toNat_ofNat, hn']
    rw [if_neg (by decide), if_pos (by decide), dif_neg hpos.ne']
  · rw [pack_normal hn hi hnormal, unpack_eq, hexponent, hmantissa, signOf_packComponents]
    have hi' : (i + 1075).toNat % 2 ^ 11 = (i + 1075).toNat := Nat.mod_eq_of_lt (by omega)
    have hn' : n % 2 ^ 52 = n - 2 ^ 52 := by omega
    simp only [BitVec.toNat_ofNat, hi', hn']
    rw [if_neg (by omega), if_neg (by omega)]
    exact finite_congr (by omega) (by omega)

end

/-! ## The numbers that bits hold -/

/-- What a number in double precision can be, with the bits of its magnitude. -/
inductive Form (b : BitVec 64) : UnpackedFloat → Prop
  | undefined : Form b .notANumber
  | infinity (hexponent : (exponentBits b).toNat = 2047) (hmantissa : (mantissaBits b).toNat = 0) :
      Form b (.infinity (signOf b))
  | zero (hexponent : (exponentBits b).toNat = 0) (hmantissa : (mantissaBits b).toNat = 0) :
      Form b (.zero (signOf b))
  | finite {n : ℕ} {i : ℤ} (hn : Canonical n i) (hi : i ≤ 971)
      (hexponent : (exponentBits b).toNat = if n < 2 ^ 52 then 0 else (i + 1075).toNat)
      (hmantissa : (mantissaBits b).toNat = n % 2 ^ 52) : Form b (.finite (signOf b) n i hn.pos)

theorem form_unpack (b : BitVec 64) : Form b (UnpackedFloat.unpack .binary64 b) := by
  have hexponent := (exponentBits b).isLt
  have hmantissa := (mantissaBits b).isLt
  rw [unpack_eq]
  split
  · next h =>
    split
    · next h' => exact .infinity h h'
    · exact .undefined
  · split
    · next h =>
      split
      · next h' => exact .zero h h'
      · next h' =>
        have hn : Canonical (mantissaBits b).toNat (-1074) :=
          ⟨Nat.pos_of_ne_zero h', by omega, le_refl _, .inr rfl⟩
        exact .finite hn (by omega) (by rw [if_pos hmantissa, h]) (Nat.mod_eq_of_lt hmantissa).symm
    · next h =>
      have hn : Canonical (2 ^ 52 + (mantissaBits b).toNat) ((exponentBits b).toNat - 1075) :=
        ⟨by omega, by omega, by omega, .inl (by omega)⟩
      exact .finite hn (by omega) (by rw [if_neg (by omega)]; omega) (by omega)

/-- What is taken apart is put together again. -/
theorem pack_unpack (x : Float.Model) (hx : x.unpack ≠ .notANumber) : Float.Model.pack x.unpack = x := by
  obtain ⟨bits, hvalid⟩ := x
  have hform := form_unpack bits.toBitVec
  have hbits := packComponents_eq bits.toBitVec
  have hexponent {e : BitVec 11} (h : (exponentBits bits.toBitVec).toNat = e.toNat) :
      exponentBits bits.toBitVec = e := BitVec.eq_of_toNat_eq h
  have hmantissa {m : BitVec 52} (h : (mantissaBits bits.toBitVec).toNat = m.toNat) :
      mantissaBits bits.toBitVec = m := BitVec.eq_of_toNat_eq h
  suffices h : UnpackedFloat.pack .binary64 (UnpackedFloat.unpack .binary64 bits.toBitVec) =
      bits.toBitVec by
    simp only [Float.Model.pack, Float.Model.unpack, h]
  have hx : UnpackedFloat.unpack .binary64 bits.toBitVec ≠ .notANumber := hx
  generalize UnpackedFloat.unpack .binary64 bits.toBitVec = u at hform hx
  cases hform with
  | undefined => exact absurd rfl hx
  | infinity he hm =>
    rw [hexponent (e := 2047#11) he, hmantissa (m := 0#52) hm] at hbits
    exact hbits
  | zero he hm =>
    rw [hexponent (e := 0#11) he, hmantissa (m := 0#52) hm] at hbits
    exact hbits
  | @finite n i hn hi he hm =>
    have hle := hn.le
    rw [hmantissa (m := BitVec.ofNat 52 n) (by rw [hm, BitVec.toNat_ofNat])] at hbits
    rcases Nat.lt_or_ge n (2 ^ 52) with hsmall | hnormal
    · rw [if_pos hsmall] at he
      rw [hexponent (e := 0#11) he] at hbits
      rw [pack_subnormal hn hsmall, hbits]
    · rw [if_neg (Nat.not_lt.2 hnormal)] at he
      have hmod : (i + 1075).toNat % 2 ^ 11 = (i + 1075).toNat := Nat.mod_eq_of_lt (by omega)
      rw [hexponent (e := BitVec.ofNat 11 (i + 1075).toNat) (by rw [he, BitVec.toNat_ofNat, hmod])] at hbits
      rw [pack_normal hn hi hnormal, hbits]

/-- Two numbers that hold the same are the same. -/
theorem eq_of_unpack_eq {x y : Float.Model} (h : x.unpack = y.unpack) (hx : x.unpack ≠ .notANumber) :
    x = y := by
  rw [← pack_unpack x hx, h, pack_unpack y (h ▸ hx)]

/-! ## Magnitudes -/

/-- The magnitude that the bits hold is that of the number. -/
theorem ofBits_eq (bits : UInt64) : Decimal.Binary.ofBits bits =
    if (exponentBits bits.toBitVec).toNat = 0 then ⟨(mantissaBits bits.toBitVec).toNat, -1074, false⟩
    else ⟨2 ^ 52 + (mantissaBits bits.toBitVec).toNat, (exponentBits bits.toBitVec).toNat - 1075,
      (mantissaBits bits.toBitVec).toNat = 0 && (exponentBits bits.toBitVec).toNat > 1⟩ := by
  have hexponent : ((bits >>> 52) &&& 0x7FF).toNat = (exponentBits bits.toBitVec).toNat := by
    rw [toNat_exponentBits, UInt64.toNat_and, UInt64.toNat_shiftRight]
    exact (Nat.and_two_pow_sub_one_eq_mod _ 11).trans (by rw [Nat.shiftRight_eq_div_pow]; rfl)
  have hmantissa : (bits &&& 0xFFFFFFFFFFFFF).toNat = (mantissaBits bits.toBitVec).toNat := by
    rw [toNat_mantissaBits, UInt64.toNat_and]
    exact Nat.and_two_pow_sub_one_eq_mod _ 52
  rw [Decimal.Binary.ofBits]
  simp only [hexponent, hmantissa]
  rfl

theorem signOf_toBitVec (bits : UInt64) : signOf bits.toBitVec =
    if bits >>> 63 = 1 then .negative else .positive := by
  have hbit : (bits >>> 63 = 1) ↔ bits.toBitVec.toNat / 2 ^ 63 = 1 := by
    rw [← UInt64.toNat_inj, UInt64.toNat_shiftRight, Nat.shiftRight_eq_div_pow]
    rfl
  rw [signOf_eq]
  simp only [hbit]

end HybridPlan.Rounding
