import HybridPlan.Proofs.Numbers.Conversion
import HybridPlan.Proofs.Numbers.Legible
import HybridPlan.Proofs.Numbers.Shortest

set_option autoImplicit false

/-! # Double precision is legible

The text of a finite number in double precision reads back as the number, its sign included. -/

namespace HybridPlan.Binary64

open Float.Model Float.Model.UnpackedFloat Rounding

/-! ## Numbers that the machine holds -/

/-- What a number in double precision is, unless it is undefined. -/
inductive Holds : UnpackedFloat → Prop
  | infinity (s : Sign) : Holds (.infinity s)
  | zero (s : Sign) : Holds (.zero s)
  | finite {n : ℕ} {i : ℤ} (s : Sign) (hn : Canonical n i) (hi : i ≤ 971) :
      Holds (.finite s n i hn.pos)

/-- The sign of a number; an undefined one has none. -/
def sign? : UnpackedFloat → Option Sign
  | .infinity s | .zero s | .finite s _ _ _ => some s
  | .notANumber => none

namespace Holds

variable {u : UnpackedFloat}

theorem unpack_pack (h : Holds u) : (Float.Model.pack u).unpack = u := by
  cases h with
  | infinity s => cases s <;> rfl
  | zero s => cases s <;> rfl
  | finite s hn hi => exact unpack_modelPack hn hi

theorem neg (h : Holds u) : Holds u.neg := by
  cases h with
  | infinity s => exact .infinity _
  | zero s => exact .zero _
  | finite s hn hi => exact .finite _ hn hi

theorem abs (h : Holds u) : Holds u.abs := by
  cases h with
  | infinity s => exact .infinity _
  | zero s => exact .zero _
  | finite s hn hi => exact .finite _ hn hi

theorem isNaN (h : Holds u) : u.isNaN = false := by
  cases h <;> rfl

theorem exists_sign (h : Holds u) : ∃ s, sign? u = some s := by
  cases h <;> exact ⟨_, rfl⟩

/-- A positive number is its own magnitude, a negative one the opposite of it. -/
theorem of_abs {s : Sign} (h : Holds u) (hs : sign? u = some s) :
    (s = .positive → u.abs = u) ∧ (s = .negative → u.abs.neg = u) := by
  cases h <;> cases hs <;> exact ⟨by rintro rfl; rfl, by rintro rfl; rfl⟩

end Holds

theorem holds_of_defined {x : Float} (hx : x.isNaN = false) : Holds x.toModel.unpack := by
  have hform := form_unpack x.toModel.toBits.toBitVec
  change x.toModel.unpack.isNaN = false at hx
  change Form _ x.toModel.unpack at hform
  generalize x.toModel.unpack = u at hform hx
  cases hform with
  | undefined => contradiction
  | infinity => exact .infinity _
  | zero => exact .zero _
  | finite hn hi => exact .finite _ hn hi

variable {x y : Float} {hx : x.isNaN = false} {hy : y.isNaN = false}

theorem unpack_neg (hx : x.isNaN = false) : (-x).toModel.unpack = x.toModel.unpack.neg :=
  (holds_of_defined hx).neg.unpack_pack

theorem unpack_abs (hx : x.isNaN = false) : x.abs.toModel.unpack = x.toModel.unpack.abs :=
  (holds_of_defined hx).abs.unpack_pack

/-- Numbers that hold the same are the same. -/
theorem number_congr (h : x.toModel.unpack = y.toModel.unpack) : number x hx = number y hy := by
  have hdefined : x.toModel.unpack ≠ .notANumber := fun hu => by
    have hnan := (holds_of_defined hx).isNaN
    rw [hu] at hnan
    contradiction
  have hxy : x = y := congrArg Float.ofModel (eq_of_unpack_eq h hdefined)
  subst hxy
  rfl

theorem neg_number (hx : x.isNaN = false) : ∃ h, -number x hx = number (-x) h :=
  ofFloat_eq none (unpack_neg hx) (holds_of_defined hx).neg.isNaN

theorem abs_number (hx : x.isNaN = false) : ∃ h, Scalar.abs (number x hx) = number x.abs h :=
  ofFloat_eq none (unpack_abs hx) (holds_of_defined hx).abs.isNaN

theorem unpack_zero : (0 : Float).toModel.unpack = .zero .positive := rfl

theorem zero_eq : ∃ h, (Scalar.zero : Binary64) = number 0 h := ofFloat_eq none unpack_zero rfl

theorem unpack_infinity : (1 / 0 : Float).toModel.unpack = .infinity .positive := rfl

theorem infinity_eq : ∃ h, (Scalar.infinity : Binary64) = number (1 / 0) h :=
  ofFloat_eq none unpack_infinity rfl

/-! ## Comparisons -/

variable (v w : Binary64)

theorem lt_eq : Scalar.lt v w = v.toFloat.toModel.unpack.lt w.toFloat.toModel.unpack := by
  have hmodel : (v.toFloat.toModel < w.toFloat.toModel) ↔
      v.toFloat.toModel.unpack.lt w.toFloat.toModel.unpack = true := Iff.rfl
  refine Bool.eq_iff_iff.2 ?_
  exact decide_eq_true_iff.trans ((decide_eq_true_iff (p := v.toFloat.toModel < w.toFloat.toModel)).trans hmodel)

theorem eq_eq : Scalar.eq v w = v.toFloat.toModel.unpack.beq w.toFloat.toModel.unpack := rfl

theorem unpack_undefined : (0 / 0 : Float).toModel.unpack = .notANumber := rfl

/-- A number is finite if it holds zero or a magnitude. -/
theorem exists_of_isFinite {v : Binary64} (h : Scalar.isFinite v = true) :
    ∃ x hx, v = number x hx ∧ x.toModel.unpack.isFinite = true := by
  obtain ⟨hinfinity, hinfinity'⟩ := infinity_eq
  rw [Scalar.isFinite, hinfinity'] at h
  cases v with
  | undefined negative =>
    have habs : Scalar.abs (undefined negative) = undefined false := rfl
    have hundefined : (undefined false).toFloat.toModel.unpack = .notANumber := unpack_undefined
    rw [habs, lt_eq, hundefined] at h
    contradiction
  | number x hx =>
    refine ⟨x, hx, rfl, ?_⟩
    obtain ⟨habs, habs'⟩ := abs_number hx
    have hholds := holds_of_defined hx
    rw [habs', lt_eq, toFloat, toFloat, unpack_abs hx, unpack_infinity] at h
    generalize x.toModel.unpack = u at hholds h ⊢
    cases hholds with
    | infinity s => contradiction
    | zero s => rfl
    | finite s hn hi => rfl

/-! ## Texts -/

section

variable {b : BitVec 64} {s : Sign} {u : UnpackedFloat}

/-- The sign bit is that of the number. -/
theorem isNegative_number (h : sign? x.toModel.unpack = some s) :
    (number x hx).isNegative = true ↔ s = .negative := by
  have hform := form_unpack x.toModel.toBits.toBitVec
  have hsign := signOf_toBitVec x.toModel.toBits
  change Form _ x.toModel.unpack at hform
  have hs : s = signOf x.toModel.toBits.toBitVec := by
    generalize x.toModel.unpack = u at hform h
    cases hform with
    | undefined => contradiction
    | infinity | zero | finite => exact (Option.some.inj h).symm
  rw [hs, hsign, isNegative, decide_eq_true_iff]
  split <;> simp_all [toFloat, Float.toBits]

/-- The magnitude of a finite number is written so that it reads back as the number without its
sign. -/
theorem exists_decimal (hx : x.isNaN = false) (h : x.toModel.unpack.isFinite = true) :
    ∃ digits n e, (number x hx).magnitude?.map (fun b => b.shortest.positional) = some digits ∧
      Token.IsDecimal digits.toList ∧
      Decimal.readDecimal? digits.toList = some (.decimal n e) ∧
      ∃ y hy, Binary64.ofDecimal n e = .number y hy ∧ y.toModel.unpack = x.toModel.unpack.abs := by
  obtain ⟨m, hm⟩ : ∃ m, Decimal.Binary.ofBits x.toModel.toBits = m := ⟨_, rfl⟩
  have hmagnitude : (number x hx).magnitude? = some m := by
    rw [← hm]
    exact if_pos h
  obtain ⟨n, e, hdecimal, hread, hvalue⟩ := m.shortest.read_positional
  refine ⟨m.shortest.positional, n, e, by rw [hmagnitude]; rfl, hdecimal, hread, ?_⟩
  have hform := form_unpack x.toModel.toBits.toBitVec
  change Form _ x.toModel.unpack at hform
  generalize x.toModel.unpack = u at hform h
  cases hform with
  | undefined => contradiction
  | infinity => contradiction
  | zero hexponent hmantissa =>
    obtain rfl : (⟨0, -1074, false⟩ : Decimal.Binary) = m := by
      rw [ofBits_eq, if_pos hexponent, hmantissa] at hm
      exact hm
    have hzero : (n : ℚ) * 10 ^ e = 0 := hvalue.trans (zero_mul _)
    have hn : n = 0 := by
      exact_mod_cast (mul_eq_zero.1 hzero).resolve_right (zpow_ne_zero _ (by norm_num))
    obtain ⟨hdefined, hfloat⟩ := ofFloat_eq none unpack_zero rfl
    exact ⟨0, hdefined, by rw [Binary64.ofDecimal, if_pos hn, hfloat], unpack_zero⟩
  | @finite S E hS hE hexponent hmantissa =>
    obtain ⟨narrow, hbits, hnarrow⟩ := Decimal.Binary.ofBits_of_form _ hS hexponent hmantissa
    rw [hbits] at hm
    subst hm
    have hdouble : (⟨S, E, narrow⟩ : Decimal.Binary).IsDouble := ⟨hS, hnarrow⟩
    have hrounds := Decimal.Binary.rounds_shortest hdouble
    rw [← hvalue] at hrounds
    exact ofDecimal_eq hS hE hrounds

/-- The signs that a numeral and a number have. -/
theorem lt_zero_iff (hu : sign? x.toModel.unpack = some s) (h : x.toModel.unpack.isFinite = true) :
    s = .negative ↔
      Scalar.lt (number x hx) Scalar.zero = true ∨ Scalar.unsignedZero (number x hx) ≠ number x hx := by
  obtain ⟨hzero, hzero'⟩ := zero_eq
  have hfloat : (number x hx).toFloat = x := rfl
  have hfloat' : (number 0 hzero).toFloat = 0 := rfl
  rw [Scalar.unsignedZero, Scalar.isZero, hzero', lt_eq, eq_eq, hfloat, hfloat', unpack_zero]
  have hholds := holds_of_defined hx
  have hnumber : number 0 hzero = number x hx ↔ .zero .positive = x.toModel.unpack := by
    refine ⟨fun heq => ?_, fun heq => number_congr heq⟩
    rw [← unpack_zero]
    cases heq
    rfl
  generalize x.toModel.unpack = u at hu h hholds hnumber
  cases hholds with
  | infinity => contradiction
  | zero s' =>
    obtain rfl : s' = s := Option.some.inj hu
    have hequal : UnpackedFloat.beq (.zero s') (.zero .positive) = true := rfl
    have hless : UnpackedFloat.lt (.zero s') (.zero .positive) = false := rfl
    rw [hequal, hless, if_pos rfl, Ne, hnumber]
    cases s' <;> simp
  | @finite n i s' hn hi =>
    obtain rfl : s' = s := Option.some.inj hu
    have hequal : UnpackedFloat.beq (.finite s' n i hn.pos) (.zero .positive) = false := by
      cases s' <;> rfl
    rw [hequal, if_neg (by decide)]
    cases s'
    · simp [UnpackedFloat.lt, UnpackedFloat.compare]
    · simp [UnpackedFloat.lt, UnpackedFloat.compare]

theorem legible_number (hx : x.isNaN = false) (hfinite : x.toModel.unpack.isFinite = true) :
    Scalar.Legible (number x hx) := by
  obtain ⟨digits, n, e, hmagnitude, hdecimal, hread, y, hy, hconverted, habs⟩ := exists_decimal hx hfinite
  have hholds := holds_of_defined hx
  obtain ⟨s, hs⟩ := hholds.exists_sign
  have hnegative := @isNegative_number x hx s hs
  have hmagnitude' : (Scalar.ofNumeral ⟨false, .decimal n e⟩ : Binary64) = number y hy := hconverted
  refine ⟨(number x hx).isNegative, digits.toList, .decimal n e, ?_, ?_, hdecimal, hread, ?_, ?_⟩
  · have htext : Scalar.text (number x hx) = if (number x hx).isNegative then "-" ++ digits else digits := by
      change signed (number x hx) (fun b => b.shortest.positional) = _
      rw [signed]
      · rw [hmagnitude]
        rfl
      · simp
    rw [htext]
    split
    · rw [String.toList_append]
      rfl
    · rfl
  · rw [hnegative, lt_zero_iff hs hfinite]
  · cases s with
    | positive =>
      have hpositive : (number x hx).isNegative = false := by
        rw [Bool.eq_false_iff, Ne, hnegative]
        intro h
        cases h
      rw [hpositive, hmagnitude']
      exact number_congr (habs.trans ((hholds.of_abs hs).1 rfl))
    | negative =>
      obtain ⟨hneg, hneg'⟩ := neg_number hy
      rw [hnegative.2 rfl, Scalar.ofNumeral_negative, hmagnitude', hneg']
      refine number_congr ?_
      rw [unpack_neg hy, habs]
      exact (hholds.of_abs hs).2 rfl
  · intro hlt
    obtain ⟨hzero, hzero'⟩ := zero_eq
    have hfloat : (number x hx).toFloat = x := rfl
    have hfloat' : (number y hy).toFloat = y := rfl
    have hfloat'' : (number 0 hzero).toFloat = 0 := rfl
    rw [hzero', lt_eq, hfloat, hfloat'', unpack_zero] at hlt
    rw [hmagnitude', Scalar.isZero, hzero', eq_eq, hfloat', hfloat'', unpack_zero, habs]
    generalize x.toModel.unpack = u at hlt
    cases u with
    | finite s n i h => rfl
    | zero s => contradiction
    | infinity s => rfl
    | notANumber => rfl

/-- A finite number is legible. -/
theorem legible_of_isFinite {v : Binary64} (h : Scalar.isFinite v = true) : Scalar.Legible v := by
  obtain ⟨x, hx, rfl, hfinite⟩ := exists_of_isFinite h
  exact legible_number hx hfinite

/-- A number that is neither finite nor undefined is an infinity, which its name writes. -/
theorem restores_infinite (hx : x.isNaN = false) (h : x.toModel.unpack.isFinite = false) :
    Scalar.Restores (number x hx) (number x hx) := by
  obtain ⟨s, hs⟩ : ∃ s, x.toModel.unpack = .infinity s := by
    have hholds := holds_of_defined hx
    generalize x.toModel.unpack = u at hholds h
    cases hholds with
    | infinity s => exact ⟨s, rfl⟩
    | zero s => contradiction
    | finite s hn hi => contradiction
  have hmagnitude : (number x hx).magnitude? = none := if_neg fun hfinite => Bool.false_ne_true (h.symm.trans hfinite)
  have hnegative := @isNegative_number x hx s (by rw [hs]; rfl)
  have htext : Scalar.text (number x hx) = if (number x hx).isNegative then "-inf" else "inf" := by
    change signed (number x hx) (fun b => b.shortest.positional) = _
    rw [signed]
    · rw [hmagnitude]
      rfl
    · simp
  obtain ⟨hdefined, hinfinity⟩ := infinity_eq
  cases s with
  | positive =>
    have hpositive : ¬(number x hx).isNegative = true := by
      intro h
      cases hnegative.1 h
    rw [if_neg hpositive] at htext
    refine ⟨?_, rfl, by rw [htext]; decide, by rw [htext]; exact Scalar.plain_of_all rfl⟩
    have hread : Decimal.Numeral.read? "inf".toList = some ⟨false, .infinity⟩ := rfl
    rw [htext, Scalar.read?, hread]
    exact congrArg some (hinfinity.trans (number_congr hs.symm))
  | negative =>
    rw [if_pos (hnegative.2 rfl)] at htext
    refine ⟨?_, rfl, by rw [htext]; decide, by rw [htext]; exact Scalar.plain_of_all rfl⟩
    have hread : Decimal.Numeral.read? "-inf".toList = some ⟨true, .infinity⟩ := rfl
    have hpositive : (Scalar.ofNumeral ⟨false, .infinity⟩ : Binary64) = number (1 / 0) hdefined := hinfinity
    obtain ⟨hneg, hneg'⟩ := neg_number hdefined
    rw [htext, Scalar.read?, hread, Option.map_some, Scalar.ofNumeral_negative, hpositive, hneg']
    refine congrArg some (number_congr ?_)
    rw [unpack_neg hdefined, unpack_infinity, hs]
    rfl

theorem isUndefined_undefined (negative : Bool) : Scalar.isUndefined (undefined negative) = true := by
  have hunpack : (undefined negative).toFloat.toModel.unpack = .notANumber := unpack_undefined
  rw [Scalar.isUndefined, eq_eq, hunpack]
  rfl

theorem restores_undefined (negative : Bool) :
    Scalar.Restores (undefined negative) (undefined false) := by
  have htext : Scalar.text (undefined negative) = "NaN" := rfl
  have hread : Decimal.Numeral.read? "NaN".toList = some ⟨false, .undefined⟩ := rfl
  refine ⟨?_, rfl, by rw [htext]; decide, by rw [htext]; exact Scalar.plain_of_all rfl⟩
  rw [htext, Scalar.read?, hread]
  rfl

/-- The text of any number reads back as the number, undefined numbers not being told apart. -/
theorem exists_restores (v : Binary64) : ∃ w, Scalar.Restores v w ∧ Scalar.Same v w := by
  cases v with
  | undefined negative =>
    exact ⟨undefined false, restores_undefined negative,
      .inr ⟨isUndefined_undefined _, isUndefined_undefined _⟩⟩
  | number x hx =>
    refine ⟨number x hx, ?_, .inl rfl⟩
    cases h : x.toModel.unpack.isFinite with
    | false => exact restores_infinite hx h
    | true => exact (legible_number hx h).restores

end

end HybridPlan.Binary64
