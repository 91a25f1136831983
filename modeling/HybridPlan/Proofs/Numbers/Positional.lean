import HybridPlan.Decimal.Shortest
import HybridPlan.Proofs.Expr.Scanning
import Mathlib.Algebra.Order.Field.Power
import Mathlib.Algebra.Order.Field.Rat
import Mathlib.Data.List.TakeWhile
import Mathlib.Tactic.FieldSimp
import Mathlib.Tactic.NormNum
import Mathlib.Tactic.Ring

set_option autoImplicit false

/-! # Decimals in positional notation

The text of a decimal is a numeral with the same value. -/

namespace HybridPlan.Decimal

/-! ## Digits -/

theorem ofDigits_append (cs ds : List Char) :
    ofDigits (cs ++ ds) = ofDigits cs * 10 ^ ds.length + ofDigits ds := by
  have h (cs : List Char) : ofDigits cs = Nat.ofDigitChars 10 cs 0 := Nat.ofDigitChars_eq_foldl.symm
  rw [h, h, h, Nat.ofDigitChars_append, Nat.ofDigitChars_eq_ofDigitChars_zero, Nat.mul_comm]

theorem ofDigits_replicate_zero (k : ℕ) : ofDigits (List.replicate k '0') = 0 := by
  have h : ofDigits (List.replicate k '0') = Nat.ofDigitChars 10 (List.replicate k '0') 0 :=
    Nat.ofDigitChars_eq_foldl.symm
  rw [h, Nat.ofDigitChars_replicate_zero, Nat.mul_zero]

theorem toList_natText (n : ℕ) : (natText n).toList = Nat.toDigits 10 n := Nat.toList_repr

theorem ofDigits_natText (n : ℕ) : ofDigits (natText n).toList = n := by
  rw [toList_natText]
  exact Nat.ofDigitChars_eq_foldl.symm.trans Nat.ofDigitChars_ten_toDigits

theorem isDigit_of_mem_natText {n : ℕ} {c : Char} (h : c ∈ (natText n).toList) : c.isDigit := by
  rw [toList_natText] at h
  exact Nat.isDigit_of_mem_toDigits (by decide) (by decide) h

theorem natText_ne_nil (n : ℕ) : (natText n).toList ≠ [] := by
  rw [toList_natText]
  exact Nat.toDigits_ne_nil

/-! ## Numerals without an exponent -/

variable {whole fraction : List Char}

theorem readDecimal?_whole (hne : whole ≠ []) (hwhole : ∀ c ∈ whole, c.isDigit) :
    readDecimal? whole = some (.decimal (ofDigits whole) 0) := by
  have htake : whole.takeWhile Char.isDigit = whole := List.takeWhile_eq_self_iff.2 hwhole
  have hdrop : whole.dropWhile Char.isDigit = [] := List.dropWhile_eq_nil_iff.2 hwhole
  simp [readDecimal?, htake, hdrop, hne]

theorem readDecimal?_point (hne : whole ≠ []) (hwhole : ∀ c ∈ whole, c.isDigit)
    (hfraction : ∀ c ∈ fraction, c.isDigit) :
    readDecimal? (whole ++ '.' :: fraction) =
      some (.decimal (ofDigits (whole ++ fraction)) (-(fraction.length : ℤ))) := by
  have hpoint : ('.').isDigit = false := rfl
  have htake : (whole ++ '.' :: fraction).takeWhile Char.isDigit = whole := by
    rw [List.takeWhile_append_of_pos hwhole]
    simp [hpoint]
  have hdrop : (whole ++ '.' :: fraction).dropWhile Char.isDigit = '.' :: fraction := by
    rw [List.dropWhile_append_of_pos hwhole]
    simp [hpoint]
  have htake' : fraction.takeWhile Char.isDigit = fraction := List.takeWhile_eq_self_iff.2 hfraction
  have hdrop' : fraction.dropWhile Char.isDigit = [] := List.dropWhile_eq_nil_iff.2 hfraction
  simp [readDecimal?, htake, hdrop, htake', hdrop', hne]

/-! ## Positional notation -/

namespace Digits

/-- The value of a decimal. -/
def value (d : Digits) : ℚ := d.digits * 10 ^ d.exponent

/-- The zeros at the end of a text, and what is before them. -/
theorem exists_zeros (cs : List Char) :
    ∃ k, (cs.reverse.dropWhile (· = '0')).reverse ++ List.replicate k '0' = cs := by
  have hzeros : cs.reverse.takeWhile (· = '0') =
      List.replicate (cs.reverse.takeWhile (· = '0')).length '0' :=
    List.eq_replicate_iff.2 ⟨rfl, fun c hc => by simpa using List.mem_takeWhile_imp hc⟩
  refine ⟨(cs.reverse.takeWhile (· = '0')).length, ?_⟩
  rw [← List.reverse_replicate, ← hzeros, ← List.reverse_append, List.takeWhile_append_dropWhile,
    List.reverse_reverse]

/-- The places of a fraction without the zeros that end them. -/
theorem exists_trimmed {places fraction : ℕ} (hplaces : 0 < places) (h : fraction < 10 ^ places) :
    ∃ trimmed k, ((List.replicate (places - (natText fraction).toList.length) '0' ++
        (natText fraction).toList).reverse.dropWhile (· = '0')).reverse = trimmed ∧
      (∀ c ∈ trimmed, c.isDigit) ∧ trimmed.length + k = places ∧ ofDigits trimmed * 10 ^ k = fraction := by
  have hlength : (natText fraction).toList.length ≤ places := by
    rw [toList_natText]
    exact (Nat.length_toDigits_le_iff (by decide) hplaces).2 h
  obtain ⟨padded, hpadded⟩ : ∃ padded, List.replicate (places - (natText fraction).toList.length) '0' ++
    (natText fraction).toList = padded := ⟨_, rfl⟩
  have hvalue : ofDigits padded = fraction := by
    rw [← hpadded, ofDigits_append, ofDigits_replicate_zero, ofDigits_natText, Nat.zero_mul, Nat.zero_add]
  have hplaces : padded.length = places := by
    rw [← hpadded, List.length_append, List.length_replicate]
    omega
  have hdigits : ∀ c ∈ padded, c.isDigit := by
    rw [← hpadded]
    refine List.forall_mem_append.2 ⟨fun c hc => ?_, fun c => isDigit_of_mem_natText⟩
    rw [List.eq_of_mem_replicate hc]
    rfl
  rw [hpadded]
  obtain ⟨k, hk⟩ := exists_zeros padded
  generalize (padded.reverse.dropWhile (· = '0')).reverse = trimmed at hk ⊢
  subst hk
  refine ⟨trimmed, k, rfl, fun c hc => hdigits c (List.mem_append_left _ hc), ?_, ?_⟩
  · rw [← hplaces, List.length_append, List.length_replicate]
  · rw [← hvalue, ofDigits_append, ofDigits_replicate_zero, List.length_replicate, Nat.add_zero]

theorem isDecimal_natText (n : ℕ) : Token.IsDecimal (natText n).toList where
  ne_nil := natText_ne_nil n
  isNumberChar c hc := by simp [Token.isNumberChar, isDigit_of_mem_natText hc]

/-- The text is a numeral of the value. -/
def ReadsAs (cs : List Char) (v : ℚ) : Prop :=
  ∃ n e, Token.IsDecimal cs ∧ readDecimal? cs = some (.decimal n e) ∧ value ⟨n, e⟩ = v

theorem readsAs_natText (n : ℕ) : ReadsAs (natText n).toList n := by
  refine ⟨n, 0, isDecimal_natText n, ?_, by simp [value]⟩
  rw [readDecimal?_whole (natText_ne_nil n) fun c => isDigit_of_mem_natText, ofDigits_natText]

theorem readsAs_point (n : ℕ) (hfraction : ∀ c ∈ fraction, c.isDigit) :
    ReadsAs (natText n ++ "." ++ String.ofList fraction).toList
      (n + ofDigits fraction / 10 ^ fraction.length) := by
  have htext : (natText n ++ "." ++ String.ofList fraction).toList =
      (natText n).toList ++ '.' :: fraction := by
    simp [String.toList_append]
  rw [htext]
  refine ⟨_, _, ⟨by simp, fun c hc => ?_⟩,
    readDecimal?_point (natText_ne_nil n) (fun c => isDigit_of_mem_natText) hfraction, ?_⟩
  · rcases List.mem_append.1 hc with hc | hc
    · exact (isDecimal_natText _).isNumberChar c hc
    · rcases List.mem_cons.1 hc with rfl | hc
      · rfl
      · simp [Token.isNumberChar, hfraction c hc]
  · rw [ofDigits_append, ofDigits_natText, value, zpow_neg, zpow_natCast]
    push_cast
    field_simp

/-- The whole part and the fraction of a decimal with places. -/
theorem value_places (digits places : ℕ) : value ⟨digits, -places⟩ =
    (digits / 10 ^ places : ℕ) + ((digits % 10 ^ places : ℕ) : ℚ) / 10 ^ places := by
  have hsplit : (digits : ℚ) =
      (digits / 10 ^ places : ℕ) * 10 ^ places + (digits % 10 ^ places : ℕ) := by
    exact_mod_cast (Nat.div_add_mod' digits (10 ^ places)).symm
  rw [value, zpow_neg, zpow_natCast, hsplit]
  field_simp

/-- The text of a decimal is a numeral of the same value. -/
theorem read_positional (d : Digits) : ReadsAs d.positional.toList d.value := by
  obtain ⟨digits, exponent⟩ := d
  unfold positional
  simp only [Nat.pow_eq]
  split
  · next h => exact ⟨0, 0, Token.isDecimal_singleton rfl, by rfl, by simp [value, h]⟩
  split
  · next hexponent =>
    obtain ⟨k, rfl⟩ := Int.eq_ofNat_of_zero_le hexponent
    have hvalue : value ⟨digits, (k : ℤ)⟩ = (digits * 10 ^ k : ℕ) := by simp [value]
    rw [Int.toNat_natCast, hvalue]
    exact readsAs_natText _
  · obtain ⟨places, rfl, hpos⟩ : ∃ places : ℕ, exponent = -places ∧ 0 < places :=
      ⟨(-exponent).toNat, by omega, by omega⟩
    rw [Int.neg_neg, Int.toNat_natCast, value_places]
    split
    · next hfraction =>
      rw [hfraction, Nat.cast_zero, zero_div, add_zero]
      exact readsAs_natText _
    · obtain ⟨trimmed, k, htrimmed, hdigit, hlength, hends⟩ := exists_trimmed hpos
        (Nat.mod_lt digits (Nat.pow_pos (by decide) : 0 < 10 ^ places))
      have hfraction : ((digits % 10 ^ places : ℕ) : ℚ) / 10 ^ places =
          ofDigits trimmed / 10 ^ trimmed.length := by
        rw [← hends, ← hlength, pow_add]
        push_cast
        field_simp
      rw [htrimmed, hfraction]
      exact readsAs_point _ hdigit

end Digits

end HybridPlan.Decimal
