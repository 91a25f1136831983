import HybridPlan.Decimal.Numeral
import Mathlib.Data.List.TakeWhile

set_option autoImplicit false

/-! # What numerals write

The texts that are numbers without a sign, and the numbers that they write: digits with an optional
point and an optional exponent. Exactly these are read, each as the number that it writes. -/

namespace HybridPlan.Decimal

/-! ## Numerals -/

/-- The number that decimal digits write. -/
abbrev written (digits : List Char) : Nat := Nat.ofDigitChars 10 digits 0

/-- One digit or more. -/
structure AreDigits (cs : List Char) : Prop where
  ne_nil : cs ≠ []
  isDigit : ∀ c ∈ cs, c.isDigit

/-- An optional sign. -/
inductive WritesSign : List Char → (negative : Bool) → Prop
  | none : WritesSign [] false
  | plus : WritesSign ['+'] false
  | minus : WritesSign ['-'] true

/-- The digits of an exponent with an optional sign. -/
inductive WritesInt : List Char → Int → Prop
  | mk {sign digits : List Char} {negative : Bool} (hsign : WritesSign sign negative)
      (hdigits : AreDigits digits) :
      WritesInt (sign ++ digits) (if negative then -written digits else written digits)

/-- An optional exponent. -/
inductive WritesExponent : List Char → Int → Prop
  | none : WritesExponent [] 0
  | some {e : Char} {cs : List Char} {k : Int} (he : e = 'e' ∨ e = 'E') (hcs : WritesInt cs k) :
      WritesExponent (e :: cs) k

/-- A number without a sign and an exponent: its digits, and how many of them stand behind the
point. -/
inductive WritesMantissa : List Char → (digits : List Char) → (places : Nat) → Prop
  | whole {ds : List Char} (hds : AreDigits ds) : WritesMantissa ds ds 0
  | point {ds fs : List Char} (hds : AreDigits (ds ++ fs)) :
      WritesMantissa (ds ++ '.' :: fs) (ds ++ fs) fs.length

/-- A number without a sign: `digits * 10 ^ k`, where every digit behind the point lowers the exponent
by one. -/
inductive WritesNumber : List Char → Magnitude → Prop
  | mk {mantissa digits exponent : List Char} {places : Nat} {k : Int}
      (hmantissa : WritesMantissa mantissa digits places) (hexponent : WritesExponent exponent k) :
      WritesNumber (mantissa ++ exponent) (.decimal (written digits) (k - places))

/-! ## Reading -/

variable {cs ds : List Char} {k : Int} {m : Magnitude}

theorem ofDigits_eq_written (cs : List Char) : ofDigits cs = written cs := Nat.ofDigitChars_eq_foldl.symm

theorem areDigits_iff : AreDigits cs ↔ (cs.isEmpty || !cs.all Char.isDigit) = false := by
  constructor
  · intro h
    simpa [h.ne_nil] using h.isDigit
  · intro h
    simp only [Bool.or_eq_false_iff, Bool.not_eq_false', List.isEmpty_eq_false_iff, List.all_eq_true] at h
    exact ⟨h.1, h.2⟩

/-- Digits are no signs. -/
theorem AreDigits.head_ne (h : AreDigits cs) : ∀ c ∈ cs.head?, c ≠ '-' ∧ c ≠ '+' := by
  intro c hc
  have hdigit := h.isDigit c (List.mem_of_mem_head? hc)
  constructor <;> rintro rfl <;> contradiction

theorem WritesMantissa.ne_nil {places : Nat} (h : WritesMantissa cs ds places) : cs ≠ [] := by
  cases h with
  | whole hds => exact hds.ne_nil
  | point => exact List.append_ne_nil_of_right_ne_nil _ (List.cons_ne_nil _ _)

theorem WritesNumber.ne_nil (h : WritesNumber cs m) : cs ≠ [] := by
  obtain ⟨hmantissa, -⟩ := h
  exact List.append_ne_nil_of_left_ne_nil hmantissa.ne_nil _

/-- A text begins with a sign or with something else. -/
theorem exists_sign (cs : List Char) : ∃ sign negative ds, cs = sign ++ ds ∧ WritesSign sign negative ∧
    (sign = [] → ∀ c ∈ ds.head?, c ≠ '-' ∧ c ≠ '+') := by
  by_cases h : ∃ r, cs = '-' :: r ∨ cs = '+' :: r
  · obtain ⟨r, rfl | rfl⟩ := h
    · exact ⟨['-'], true, r, rfl, .minus, by simp⟩
    · exact ⟨['+'], false, r, rfl, .plus, by simp⟩
  · refine ⟨[], false, cs, rfl, .none, fun _ c hc => ?_⟩
    obtain ⟨r, rfl⟩ := List.head?_eq_some_iff.1 hc
    constructor <;> rintro rfl <;> simp at h

/-- What stands behind the sign has to be digits. -/
theorem readExponent?_sign {sign : List Char} {negative : Bool} (hsign : WritesSign sign negative)
    (h : sign = [] → ∀ c ∈ ds.head?, c ≠ '-' ∧ c ≠ '+') :
    readExponent? (sign ++ ds) = if ds.isEmpty || !ds.all Char.isDigit then none
      else some (if negative then -(written ds : Int) else written ds) := by
  rw [← ofDigits_eq_written]
  cases hsign with
  | plus | minus => rfl
  | none =>
    have h := h rfl
    cases ds with
    | nil => rfl
    | cons c r =>
      obtain ⟨hminus, hplus⟩ := h c rfl
      rw [List.nil_append, readExponent?.eq_def]
      split
      next heq =>
        split at heq
        · next hcons => exact absurd (List.cons.inj hcons).1 hminus
        · next hcons => exact absurd (List.cons.inj hcons).1 hplus
        · cases heq
          rfl

theorem readExponent?_eq_some : readExponent? cs = some k ↔ WritesInt cs k := by
  constructor
  · intro h
    obtain ⟨sign, negative, ds, rfl, hsign, hhead⟩ := exists_sign cs
    rw [readExponent?_sign hsign hhead] at h
    split at h
    · cases h
    · next hds =>
      cases h
      exact .mk hsign (areDigits_iff.2 (Bool.eq_false_iff.2 hds))
  · rintro @⟨sign, digits, negative, hsign, hdigits⟩
    rw [readExponent?_sign hsign fun _ => hdigits.head_ne, if_neg]
    rw [areDigits_iff.1 hdigits]
    exact Bool.false_ne_true

/-- What is read behind the digits of a number, some of which are places behind the point. -/
def readTail? (digits : List Char) (places : Nat) : List Char → Option Magnitude
  | [] => some (.decimal (ofDigits digits) (-(places : Int)))
  | c :: r =>
    if c = 'e' || c = 'E' then (readExponent? r).map fun k => .decimal (ofDigits digits) (k - places)
    else none

theorem readTail?_eq_some {digits : List Char} {places : Nat} : readTail? digits places cs = some m ↔
    ∃ k, WritesExponent cs k ∧ m = .decimal (written digits) (k - places) := by
  rw [← ofDigits_eq_written]
  cases cs with
  | nil =>
    rw [readTail?, Option.some.injEq]
    constructor
    · rintro rfl
      exact ⟨0, .none, by simp⟩
    · rintro ⟨k, hk, rfl⟩
      cases hk
      simp
  | cons c r =>
    rw [readTail?]
    constructor
    · intro h
      split at h
      · next he =>
        obtain ⟨k, hk, rfl⟩ := Option.map_eq_some_iff.1 h
        exact ⟨k, .some (by simpa using he) (readExponent?_eq_some.1 hk), rfl⟩
      · cases h
    · rintro ⟨k, hk, rfl⟩
      cases hk with
      | some he hr => rw [if_pos (by simpa using he), readExponent?_eq_some.2 hr, Option.map_some]

/-- A text begins with some characters of a class, and with no further one. -/
theorem takeWhile_exact {p : Char → Bool} {ds after : List Char} (hds : ∀ c ∈ ds, p c)
    (hafter : ∀ c ∈ after.head?, p c = false) :
    (ds ++ after).takeWhile p = ds ∧ (ds ++ after).dropWhile p = after := by
  rw [List.takeWhile_append_of_pos hds, List.dropWhile_append_of_pos hds]
  cases after with
  | nil => simp
  | cons c after => simp [hafter c rfl]

/-- The places behind a point, and what follows them; without a point there are no places. -/
def splitPoint : List Char → List Char × List Char
  | '.' :: r => (r.takeWhile Char.isDigit, r.dropWhile Char.isDigit)
  | r => ([], r)

theorem splitPoint_of_ne (h : ∀ c ∈ cs.head?, c ≠ '.') : splitPoint cs = ([], cs) := by
  unfold splitPoint
  split
  · exact absurd rfl (h '.' rfl)
  · rfl

theorem readDecimal?_eq (cs : List Char) :
    readDecimal? cs =
      if (cs.takeWhile Char.isDigit).isEmpty && (splitPoint (cs.dropWhile Char.isDigit)).1.isEmpty then none
      else readTail? (cs.takeWhile Char.isDigit ++ (splitPoint (cs.dropWhile Char.isDigit)).1)
        (splitPoint (cs.dropWhile Char.isDigit)).1.length (splitPoint (cs.dropWhile Char.isDigit)).2 := rfl

theorem readDecimal?_of_whole {ds after : List Char} (hds : ∀ c ∈ ds, c.isDigit)
    (hafter : ∀ c ∈ after.head?, c.isDigit = false ∧ c ≠ '.') :
    readDecimal? (ds ++ after) = if ds.isEmpty then none else readTail? ds 0 after := by
  obtain ⟨htake, hdrop⟩ := takeWhile_exact hds fun c hc => (hafter c hc).1
  rw [readDecimal?_eq, htake, hdrop, splitPoint_of_ne fun c hc => (hafter c hc).2]
  simp

theorem readDecimal?_of_point {ds fs after : List Char} (hds : ∀ c ∈ ds, c.isDigit)
    (hfs : ∀ c ∈ fs, c.isDigit) (hafter : ∀ c ∈ after.head?, c.isDigit = false) :
    readDecimal? (ds ++ '.' :: (fs ++ after)) =
      if (ds ++ fs).isEmpty then none else readTail? (ds ++ fs) fs.length after := by
  have hpoint : ∀ c ∈ ('.' :: (fs ++ after)).head?, c.isDigit = false := by simp
  obtain ⟨htake, hdrop⟩ := takeWhile_exact hds hpoint
  obtain ⟨htake', hdrop'⟩ := takeWhile_exact hfs hafter
  rw [readDecimal?_eq, htake, hdrop, splitPoint, htake', hdrop']
  simp

theorem head_dropWhile {p : Char → Bool} : ∀ c ∈ (cs.dropWhile p).head?, p c = false := by
  intro c hc
  have h := List.head?_dropWhile_not p cs
  rw [hc] at h
  exact h

theorem writesNumber_of_readDecimal? (h : readDecimal? cs = some m) : WritesNumber cs m := by
  have hds : ∀ c ∈ cs.takeWhile Char.isDigit, c.isDigit := List.all_eq_true.1 List.all_takeWhile
  have hcs : cs.takeWhile Char.isDigit ++ cs.dropWhile Char.isDigit = cs := List.takeWhile_append_dropWhile
  have hafter : ∀ c ∈ (cs.dropWhile Char.isDigit).head?, c.isDigit = false := head_dropWhile
  rw [← hcs] at h ⊢
  generalize cs.takeWhile Char.isDigit = ds at hds h ⊢
  generalize cs.dropWhile Char.isDigit = after at hafter h ⊢
  by_cases hpoint : ∃ r, after = '.' :: r
  · obtain ⟨r, rfl⟩ := hpoint
    have hfs : ∀ c ∈ r.takeWhile Char.isDigit, c.isDigit := List.all_eq_true.1 List.all_takeWhile
    have hr : r.takeWhile Char.isDigit ++ r.dropWhile Char.isDigit = r := List.takeWhile_append_dropWhile
    rw [← hr, readDecimal?_of_point hds hfs head_dropWhile] at h
    split at h
    · cases h
    · next hne =>
      obtain ⟨k, hk, rfl⟩ := readTail?_eq_some.1 h
      have hall : AreDigits (ds ++ r.takeWhile Char.isDigit) :=
        ⟨by simpa using hne, List.forall_mem_append.2 ⟨hds, hfs⟩⟩
      have hnumber := WritesNumber.mk (.point hall) hk
      rwa [List.append_assoc, List.cons_append, hr] at hnumber
  · have hafter : ∀ c ∈ after.head?, c.isDigit = false ∧ c ≠ '.' := by
      intro c hc
      refine ⟨hafter c hc, ?_⟩
      rintro rfl
      exact hpoint (List.head?_eq_some_iff.1 hc)
    rw [readDecimal?_of_whole hds hafter] at h
    split at h
    · cases h
    · next hne =>
      obtain ⟨k, hk, rfl⟩ := readTail?_eq_some.1 h
      exact .mk (.whole ⟨by simpa using hne, hds⟩) hk

theorem readDecimal?_of_writesNumber (h : WritesNumber cs m) : readDecimal? cs = some m := by
  obtain @⟨mantissa, digits, exponent, places, k, hmantissa, hexponent⟩ := h
  have hafter : ∀ c ∈ exponent.head?, c.isDigit = false ∧ c ≠ '.' := by
    intro c hc
    cases hexponent with
    | none => cases hc
    | some he =>
      cases hc
      rcases he with rfl | rfl <;> decide
  have htail : readTail? digits places exponent = some (.decimal (written digits) (k - places)) :=
    readTail?_eq_some.2 ⟨k, hexponent, rfl⟩
  cases hmantissa with
  | whole hds =>
    rw [readDecimal?_of_whole hds.isDigit hafter, if_neg (by simpa using hds.ne_nil)]
    exact htail
  | @point ds fs hds =>
    obtain ⟨hds', hfs⟩ := List.forall_mem_append.1 hds.isDigit
    rw [List.append_assoc, List.cons_append,
      readDecimal?_of_point hds' hfs fun c hc => (hafter c hc).1, if_neg (by simpa using hds.ne_nil)]
    exact htail

/-- A numeral is read if and only if the grammar of numbers has it. -/
theorem readDecimal?_eq_some : readDecimal? cs = some m ↔ WritesNumber cs m :=
  ⟨writesNumber_of_readDecimal?, readDecimal?_of_writesNumber⟩

end HybridPlan.Decimal
