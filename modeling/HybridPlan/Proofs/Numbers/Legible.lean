import HybridPlan.Proofs.Expr.Scanning
import HybridPlan.Proofs.Text.Lines

set_option autoImplicit false

/-! # Numbers that can be read back

What the texts of numbers must satisfy so that a number that is written is the number that is
read. -/

namespace HybridPlan.Scalar

variable {α : Type} [Scalar α]

/-- The text of the number: digits with an optional point, behind a minus sign if the number is
negative or the negative zero. They read back as the number. -/
structure Written (v : α) (negative : Bool) (digits : List Char) (m : Decimal.Magnitude) : Prop where
  text : (Scalar.text v).toList = if negative then '-' :: digits else digits
  sign : negative = true ↔ lt v zero ∨ unsignedZero v ≠ v
  decimal : Token.IsDecimal digits
  read : Decimal.readDecimal? digits = some m
  value : ofNumeral ⟨negative, m⟩ = v
  /-- A negative number is the opposite of something else than zero. -/
  nonzero : lt v zero → isZero (ofNumeral ⟨false, m⟩ : α) = false

/-- The number is written so that it reads back. -/
def Legible (v : α) : Prop := ∃ negative digits m, Written v negative digits m

/-- The numbers are the same as data, or both undefined. -/
def Same (v w : α) : Prop := v = w ∨ isUndefined v ∧ isUndefined w

/-- The text of the number reads back as a number with the same text. It is one word, without an
underscore. -/
structure Restores (v w : α) : Prop where
  read : read? (text v) = some w
  text : Scalar.text w = Scalar.text v
  ne_nil : (Scalar.text v).toList ≠ []
  plain : ∀ c ∈ (Scalar.text v).toList, Text.isBlank c = false ∧ c ≠ '_'

theorem plain_of_all {cs : List Char} (h : cs.all fun c => !Text.isBlank c && c ≠ '_') :
    ∀ c ∈ cs, Text.isBlank c = false ∧ c ≠ '_' :=
  fun c hc => by simpa using List.all_eq_true.1 h c hc

theorem plain_of_isNumberChar {c : Char} (h : Token.isNumberChar c) : Text.isBlank c = false ∧ c ≠ '_' := by
  rcases Bool.or_eq_true_iff.1 h with hdigit | hpoint
  · refine ⟨Text.isBlank_of_isAlphanum (by simp [Char.isAlphanum, hdigit]), ?_⟩
    rintro rfl
    contradiction
  · rw [of_decide_eq_true hpoint]
    exact ⟨rfl, by decide⟩

/-- What is written in digits is none of the words that are numbers. -/
theorem read?_of_isDecimal {digits : List Char} {m : Decimal.Magnitude} (h : Token.IsDecimal digits)
    (hm : Decimal.readDecimal? digits = some m) : Decimal.Magnitude.read? digits = some m := by
  obtain ⟨c, r, rfl⟩ := List.exists_cons_of_ne_nil h.ne_nil
  have hlower : c.toLower = c := by
    rcases Bool.or_eq_true_iff.1 (h.isNumberChar c List.mem_cons_self) with hdigit | hpoint
    · unfold Char.toLower
      grind [Char.isDigit]
    · rw [of_decide_eq_true hpoint]
      rfl
  have hletter {d : Char} (hd : Token.isNumberChar d = false) : c.toLower ≠ d := by
    rintro rfl
    rw [hlower, h.isNumberChar c List.mem_cons_self] at hd
    contradiction
  have hi : c.toLower ≠ 'i' := hletter rfl
  have hn : c.toLower ≠ 'n' := hletter rfl
  unfold Decimal.Magnitude.read?
  dsimp only
  rw [if_neg, if_neg, hm]
  · simp [hn]
  · simp [hi]

/-- A number that is written in digits is restored. -/
theorem Legible.restores {v : α} (h : Legible v) : Restores v v := by
  obtain ⟨negative, digits, m, hwritten⟩ := h
  have hmagnitude := read?_of_isDecimal hwritten.decimal hwritten.read
  have hplain (c : Char) (hc : c ∈ digits) : Text.isBlank c = false ∧ c ≠ '_' :=
    plain_of_isNumberChar (hwritten.decimal.isNumberChar c hc)
  obtain ⟨c, r, rfl⟩ := List.exists_cons_of_ne_nil hwritten.decimal.ne_nil
  cases negative with
  | true =>
    have htext : (Scalar.text v).toList = '-' :: c :: r := hwritten.text
    refine ⟨?_, rfl, by simp [htext], ?_⟩
    · rw [read?, htext, Decimal.Numeral.read?, hmagnitude, Option.map_some, Option.map_some, hwritten.value]
    · rw [htext]
      exact List.forall_mem_cons.2 ⟨by decide, hplain⟩
  | false =>
    have htext : (Scalar.text v).toList = c :: r := hwritten.text
    have hunsigned : c ≠ '-' ∧ c ≠ '+' := by
      have hc := hwritten.decimal.isNumberChar c List.mem_cons_self
      constructor <;> rintro rfl <;> contradiction
    refine ⟨?_, rfl, by simp [htext], ?_⟩
    · rw [read?, htext, Decimal.Numeral.read?, hmagnitude, Option.map_some, Option.map_some, hwritten.value]
      · exact fun r' h => hunsigned.1 (List.cons.inj h).1
      · exact fun r' h => hunsigned.2 (List.cons.inj h).1
    · rw [htext]
      exact hplain

theorem ofNumeral_negative (m : Decimal.Magnitude) :
    (ofNumeral ⟨true, m⟩ : α) = -ofNumeral ⟨false, m⟩ := rfl

end HybridPlan.Scalar
