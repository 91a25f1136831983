import HybridPlan.Domain.Basic
import HybridPlan.Expr.Token

set_option autoImplicit false

/-! # How texts split into tokens

A text is scanned piece by piece: what a piece of it is depends on the piece and on the character
behind it, which must not continue a number or a word. -/

namespace HybridPlan

namespace Token

/-- Nothing follows, or a character that ends every number and every word. -/
def Delimits (rest : List Char) : Prop := ∀ c ∈ rest.head?, c = ' ' ∨ c = ',' ∨ c = '(' ∨ c = ')'

theorem delimits_nil : Delimits [] := nofun

theorem delimits_cons {c : Char} {rest : List Char} (h : c = ' ' ∨ c = ',' ∨ c = '(' ∨ c = ')') :
    Delimits (c :: rest) := by
  intro d hd
  cases hd
  exact h

/-- Such a character belongs to no class of which numbers and words are made. -/
theorem Delimits.takeWhile_append {p : Char → Bool} {cs rest : List Char} (hrest : Delimits rest)
    (hcs : ∀ c ∈ cs, p c) (hp : p ' ' = false ∧ p ',' = false ∧ p '(' = false ∧ p ')' = false) :
    (cs ++ rest).takeWhile p = cs ∧ (cs ++ rest).dropWhile p = rest := by
  rw [List.takeWhile_append_of_pos hcs, List.dropWhile_append_of_pos hcs]
  cases rest with
  | nil => simp
  | cons c rest =>
    have hc : p c = false := by
      rcases hrest c rfl with rfl | rfl | rfl | rfl
      · exact hp.1
      · exact hp.2.1
      · exact hp.2.2.1
      · exact hp.2.2.2
    simp [hc]

/-- No space belongs to a class of which numbers and words are made. -/
theorem isSpace_eq_false {p : Char → Bool} {c : Char} (hc : p c)
    (hp : p ' ' = false ∧ p '\t' = false ∧ p '\r' = false) : isSpace c = false := by
  obtain ⟨hblank, htab, hreturn⟩ := hp
  have hne (d : Char) (hd : p d = false) : c ≠ d := by
    rintro rfl
    rw [hc] at hd
    contradiction
  simp [isSpace, hne _ hblank, hne _ htab, hne _ hreturn]

/-- The text of a number without a sign and an exponent. -/
structure IsDecimal (cs : List Char) : Prop where
  ne_nil : cs ≠ []
  isNumberChar : ∀ c ∈ cs, isNumberChar c

theorem isDecimal_singleton {c : Char} (h : isNumberChar c) : IsDecimal [c] where
  ne_nil := List.cons_ne_nil _ _
  isNumberChar d hd := by rwa [List.mem_singleton.1 hd]

theorem first_of_isNumberChar {c : Char} (h : isNumberChar c) (r : List Char) :
    first c r = match Decimal.readDecimal? ((c :: r).take (numberLength (c :: r))) with
      | some m => .ok (num m, numberLength (c :: r) - 1)
      | none => .error (.malformedNumber, numberLength (c :: r) - 1) := by
  unfold first
  split <;> first | exact absurd h (by decide) | exact if_pos h

theorem first_number {c : Char} {r rest : List Char} {m : Decimal.Magnitude}
    (h : IsDecimal (c :: r)) (hm : Decimal.readDecimal? (c :: r) = some m) (hrest : Delimits rest) :
    first c (r ++ rest) = .ok (num m, r.length) := by
  have hlength : numberLength (c :: r ++ rest) = (c :: r).length := by
    obtain ⟨htake, hdrop⟩ := hrest.takeWhile_append h.isNumberChar (by decide)
    rw [numberLength, htake, hdrop]
    cases rest with
    | nil => rfl
    | cons d rest =>
      have hd : ¬(d = 'e' ∨ d = 'E') := by
        rcases hrest d rfl with rfl | rfl | rfl | rfl <;> decide
      simp only [exponentLength, Bool.or_eq_true, decide_eq_true_eq, if_neg hd, Nat.add_zero]
  rw [first_of_isNumberChar (h.isNumberChar c List.mem_cons_self), ← List.cons_append, hlength,
    List.take_left, hm]
  rfl

/-- No word begins like a number. -/
theorem isNumberChar_eq_false {c : Char} (h : isWordStart c) : isNumberChar c = false := by
  rcases Bool.or_eq_true_iff.1 h with hletter | hline
  · have hdigit : c.isDigit = false := by
      unfold Char.isAlpha Char.isUpper Char.isLower at hletter
      grind [Char.isDigit]
    have hpoint : c ≠ '.' := by
      rintro rfl
      exact absurd hletter (by decide)
    simp [isNumberChar, hdigit, hpoint]
  · obtain rfl := of_decide_eq_true hline
    rfl

theorem first_of_isWordStart {c : Char} (h : isWordStart c) (hnumber : isNumberChar c = false)
    (r : List Char) :
    first c r = .ok (ofWord (String.ofList (c :: r.takeWhile isWordChar)), (r.takeWhile isWordChar).length) := by
  unfold first
  split <;> first | exact absurd h (by decide) | rw [if_neg (by simp [hnumber]), if_pos h]

theorem first_word {c : Char} {r rest : List Char} (h : isIdentifier (c :: r)) (hrest : Delimits rest) :
    first c (r ++ rest) = .ok (ofWord (String.ofList (c :: r)), r.length) := by
  obtain ⟨hc, hr⟩ := Bool.and_eq_true_iff.1 h
  obtain ⟨htake, -⟩ := hrest.takeWhile_append (p := isWordChar) (List.all_eq_true.1 hr) (by decide)
  rw [first_of_isWordStart hc (isNumberChar_eq_false hc), htake]

end Token

namespace Lexeme

open Text

/-- Before the rest of the text, the characters are exactly the tokens. -/
def Scans (start : Nat) (cs rest : List Char) (tokens : List Lexeme) : Prop :=
  scan start (cs ++ rest) = (scan (start + byteSize cs) rest).map (tokens ++ ·)

namespace Scans

variable {start : Nat} {c : Char} {cs ds rest : List Char} {us vs : List Lexeme}

theorem nil : Scans start [] rest [] := by
  unfold Scans
  rw [List.nil_append, byteSize_nil, Nat.add_zero]
  cases scan start rest <;> rfl

/-- A text of tokens to its end. -/
theorem scan_eq (h : Scans start cs [] us) : scan start cs = .ok us := by
  rw [Scans, List.append_nil, scan] at h
  rw [h]
  simp [Except.map]

theorem append (h : Scans start cs (ds ++ rest) us) (h' : Scans (start + byteSize cs) ds rest vs) :
    Scans start (cs ++ ds) rest (us ++ vs) := by
  unfold Scans at h h' ⊢
  rw [List.append_assoc, h, h', byteSize_append, Nat.add_assoc]
  cases scan (start + (byteSize cs + byteSize ds)) rest with
  | error e => rfl
  | ok tokens => simp [Except.map]

theorem space : Scans start [' '] rest [] := by
  unfold Scans
  rw [List.singleton_append, scan, if_pos (by decide)]
  cases h : scan (start + 1) rest <;> simp [Except.map, h, Char.utf8Size]

/-- A token whose first character decides where it ends. -/
theorem token {t : Token} (hspace : Token.isSpace c = false)
    (h : Token.first c (cs ++ rest) = .ok (t, cs.length)) :
    Scans start (c :: cs) rest [⟨t, start, start + byteSize (c :: cs)⟩] := by
  unfold Scans
  rw [List.cons_append, scan, if_neg (by simp [hspace]), h]
  dsimp only
  rw [List.take_left, List.drop_left, byteSize_cons, Nat.add_assoc]
  cases scan (start + (c.utf8Size + byteSize cs)) rest <;> rfl

theorem number {m : Decimal.Magnitude} (h : Token.IsDecimal cs)
    (hm : Decimal.readDecimal? cs = some m) (hrest : Token.Delimits rest) :
    Scans start cs rest [⟨.num m, start, start + byteSize cs⟩] := by
  obtain ⟨c, r, rfl⟩ := List.exists_cons_of_ne_nil h.ne_nil
  have hc : Token.isNumberChar c := h.isNumberChar c List.mem_cons_self
  exact token (Token.isSpace_eq_false hc (by decide)) (Token.first_number h hm hrest)

theorem word {s : String} (h : isIdentifier s.toList) (hrest : Token.Delimits rest) :
    Scans start s.toList rest [⟨Token.ofWord s, start, start + byteSize s.toList⟩] := by
  have hne : s.toList ≠ [] := fun hs => by simp [hs, isIdentifier] at h
  obtain ⟨c, r, hs⟩ := List.exists_cons_of_ne_nil hne
  have hword : s = String.ofList (c :: r) := by rw [← hs, String.ofList_toList]
  rw [hs] at h
  rw [hs, hword]
  have hc : Token.isWordStart c := (Bool.and_eq_true_iff.1 h).1
  exact token (Token.isSpace_eq_false hc (by decide)) (Token.first_word h hrest)

end Scans

end Lexeme

end HybridPlan
