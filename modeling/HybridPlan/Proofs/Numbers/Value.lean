import HybridPlan.Proofs.Numbers.Binary64
import HybridPlan.Proofs.Numbers.Exact

set_option autoImplicit false

/-! # Exact values of numbers in double precision

A finite number in double precision is a real number. What is neither undefined nor equal to an
infinity is finite, and so it is written in digits. -/

namespace HybridPlan.Binary64

open Float.Model Float.Model.UnpackedFloat Rounding
open Exact (real)

/-- The exact number that the machine holds. -/
noncomputable def unpackedValue : UnpackedFloat → Exact
  | .zero _ => real 0
  | .finite .positive n i _ => real (n * 2 ^ i : ℚ)
  | .finite .negative n i _ => real (-(n * 2 ^ i : ℚ))
  | .infinity .positive => .infinite false
  | .infinity .negative => .infinite true
  | .notANumber => .undefined

/-- The exact value of a number. -/
noncomputable def exact (v : Binary64) : Exact := unpackedValue v.toFloat.toModel.unpack

variable {v : Binary64}

theorem exact_undefined (negative : Bool) : (undefined negative).exact = .undefined :=
  congrArg unpackedValue unpack_undefined

theorem exact_neg (v : Binary64) : (-v).exact = -v.exact := by
  cases v with
  | undefined negative =>
    have hneg : -undefined negative = undefined !negative := rfl
    rw [hneg, exact_undefined, exact_undefined]
    rfl
  | number x hx =>
    obtain ⟨hneg, hneg'⟩ := neg_number hx
    rw [hneg', exact, exact, toFloat, toFloat, unpack_neg hx]
    cases x.toModel.unpack with
    | zero s => exact congrArg real neg_zero.symm
    | finite s n i h =>
      cases s with
      | positive => rfl
      | negative => exact congrArg real (neg_neg _).symm
    | infinity s => cases s <;> rfl
    | notANumber => rfl

/-- Taking the opposite of a number twice gives it back. -/
theorem neg_neg_eq (v : Binary64) : - -v = v := by
  cases v with
  | undefined negative => exact neg_neg_undefined negative
  | number x hx =>
    obtain ⟨hneg, hneg'⟩ := neg_number hx
    obtain ⟨hneg₂, hneg₂'⟩ := neg_number hneg
    rw [hneg', hneg₂']
    refine number_congr ?_
    rw [unpack_neg hneg, unpack_neg hx]
    cases x.toModel.unpack with
    | zero s | infinity s | finite s n i h => cases s <;> rfl
    | notANumber => rfl

theorem eq_infinity : Scalar.eq v Scalar.infinity = true ↔
    v.toFloat.toModel.unpack = .infinity .positive := by
  obtain ⟨hinfinity, hinfinity'⟩ := infinity_eq
  have hfloat : (number (1 / 0) hinfinity).toFloat = 1 / 0 := rfl
  rw [hinfinity', eq_eq, hfloat, unpack_infinity]
  cases v.toFloat.toModel.unpack with
  | infinity s =>
    cases s with
    | positive => exact iff_of_true rfl rfl
    | negative => simp [UnpackedFloat.beq, UnpackedFloat.compare]
  | zero s | finite s n i h => cases s <;> simp [UnpackedFloat.beq, UnpackedFloat.compare]
  | notANumber => simp [UnpackedFloat.beq, UnpackedFloat.compare]

theorem eq_neg_infinity : Scalar.eq v (-Scalar.infinity) = true ↔
    v.toFloat.toModel.unpack = .infinity .negative := by
  obtain ⟨hinfinity, hinfinity'⟩ := infinity_eq
  obtain ⟨hneg, hneg'⟩ := neg_number hinfinity
  have hunpack : (number (-(1 / 0)) hneg).toFloat.toModel.unpack = .infinity .negative :=
    (unpack_neg hinfinity).trans (congrArg UnpackedFloat.neg unpack_infinity)
  rw [hinfinity', hneg', eq_eq, hunpack]
  cases v.toFloat.toModel.unpack with
  | infinity s =>
    cases s with
    | positive => simp [UnpackedFloat.beq, UnpackedFloat.compare]
    | negative => exact iff_of_true rfl rfl
  | zero s | finite s n i h => cases s <;> simp [UnpackedFloat.beq, UnpackedFloat.compare]
  | notANumber => simp [UnpackedFloat.beq, UnpackedFloat.compare]

/-- Numbers that hold the same are the same, unless they are undefined. -/
theorem eq_of_unpack {w : Binary64} (h : v.toFloat.toModel.unpack = w.toFloat.toModel.unpack)
    (hdefined : w.toFloat.toModel.unpack ≠ .notANumber) : v = w := by
  cases v with
  | undefined negative => exact absurd (h.symm.trans unpack_undefined) hdefined
  | number x hx =>
    cases w with
    | undefined negative => exact absurd unpack_undefined hdefined
    | number y hy => exact number_congr h

theorem eq_of_eq_infinity (h : Scalar.eq v Scalar.infinity = true) : v = Scalar.infinity := by
  have hinfinity := (eq_infinity (v := Scalar.infinity)).1 rfl
  refine eq_of_unpack ((eq_infinity.1 h).trans hinfinity.symm) ?_
  rw [hinfinity]
  exact nofun

theorem eq_of_eq_neg_infinity (h : Scalar.eq v (-Scalar.infinity) = true) :
    v = -Scalar.infinity := by
  have hinfinity := (eq_neg_infinity (v := -Scalar.infinity)).1 rfl
  refine eq_of_unpack ((eq_neg_infinity.1 h).trans hinfinity.symm) ?_
  rw [hinfinity]
  exact nofun

theorem isUndefined_iff : Scalar.isUndefined v = true ↔ ∃ negative, v = undefined negative := by
  constructor
  · intro h
    cases v with
    | undefined negative => exact ⟨negative, rfl⟩
    | number x hx =>
      have hholds := holds_of_defined hx
      have hfloat : (number x hx).toFloat = x := rfl
      rw [Scalar.isUndefined, eq_eq, hfloat] at h
      generalize x.toModel.unpack = u at hholds h
      cases hholds with
      | infinity s | zero s => cases s <;> contradiction
      | finite s hn hi => cases s <;> simp [UnpackedFloat.beq, UnpackedFloat.compare] at h
  · rintro ⟨negative, rfl⟩
    exact isUndefined_undefined negative

/-- A number that is no infinity is legible. -/
theorem legible_of_defined (hdefined : ¬Scalar.isUndefined v = true)
    (hinfinity : ¬Scalar.eq v Scalar.infinity = true)
    (hinfinity' : ¬Scalar.eq v (-Scalar.infinity) = true) : Scalar.Legible v := by
  cases v with
  | undefined negative => exact absurd (isUndefined_undefined negative) hdefined
  | number x hx =>
    refine legible_number hx ?_
    have hholds := holds_of_defined hx
    have hfloat : (number x hx).toFloat = x := rfl
    rw [eq_infinity, hfloat] at hinfinity
    rw [eq_neg_infinity, hfloat] at hinfinity'
    generalize x.toModel.unpack = u at hholds hinfinity hinfinity'
    cases hholds with
    | infinity s =>
      cases s with
      | positive => exact absurd rfl hinfinity
      | negative => exact absurd rfl hinfinity'
    | zero s | finite s hn hi => rfl

/-- One half has an exact value. -/
theorem exact_half :
    (Scalar.ofNumeral ⟨false, .decimal 5 (-1)⟩ : Binary64).exact = real (1 / 2) := by
  have hunpack : (Scalar.ofNumeral ⟨false, .decimal 5 (-1)⟩ : Binary64).toFloat.toModel.unpack =
      .finite .positive (2 ^ 52) (-53) (by decide) := rfl
  rw [exact, hunpack, unpackedValue]
  norm_num

end HybridPlan.Binary64
