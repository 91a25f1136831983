import HybridPlan.Proofs.Expr.Scanning
import HybridPlan.Proofs.Numbers.Numeral
import Mathlib.Data.List.Infix

set_option autoImplicit false

/-! # How tokens are spelled

Which texts are one token, without regard to the reader: signs, connectives, identifiers and numbers. The reader
takes the longest such text at each place, and the token that it spells. -/

namespace HybridPlan.Token

/-- All of the text is one token. -/
inductive Spells : List Char → Token → Prop
  | leftParen : Spells ['('] leftParen
  | rightParen : Spells [')'] rightParen
  | comma : Spells [','] comma
  | op (o : ArithOp) : Spells o.symbol.toList (op o)
  /-- The other sign for powers. -/
  | caret : Spells ['^'] (op .pow)
  | compare (o : Comparison) : Spells o.symbol.toList (compare o)
  | word (w : Connective) : Spells w.word.toList (word w)
  | ident {cs : List Char} (hcs : isIdentifier cs) (hwords : ∀ w : Connective, cs ≠ w.word.toList) :
      Spells cs (ident (String.ofList cs))
  | num {cs : List Char} {m : Decimal.Magnitude} (hcs : Decimal.WritesNumber cs m) : Spells cs (num m)

variable {c : Char} {r ds cs : List Char} {t t' : Token} {n n' : Nat}

/-! ## Numbers -/

theorem isNumberChar_of_isDigit (h : c.isDigit) : isNumberChar c := Bool.or_eq_true_iff.2 (.inl h)

/-- The characters of a number up to its exponent. -/
theorem isNumberChar_of_writes {places : Nat} (h : Decimal.WritesMantissa cs ds places) :
    ∀ c ∈ cs, isNumberChar c := by
  cases h with
  | whole hds => exact fun c hc => isNumberChar_of_isDigit (hds.isDigit c hc)
  | point hds =>
    obtain ⟨hds, hfs⟩ := List.forall_mem_append.1 hds.isDigit
    refine List.forall_mem_append.2 ⟨fun c hc => isNumberChar_of_isDigit (hds c hc), ?_⟩
    exact List.forall_mem_cons.2 ⟨rfl, fun c hc => isNumberChar_of_isDigit (hfs c hc)⟩

/-- A number begins with a digit or with its point. -/
theorem head_of_writesNumber {m : Decimal.Magnitude} (h : Decimal.WritesNumber cs m) :
    ∀ c ∈ cs.head?, isNumberChar c := by
  obtain ⟨hmantissa, -⟩ := h
  intro c hc
  rw [List.head?_append_of_ne_nil _ hmantissa.ne_nil] at hc
  exact isNumberChar_of_writes hmantissa c (List.mem_of_mem_head? hc)

/-- Behind its digits and points, a number goes on with an exponent only. -/
theorem head_of_writesExponent {k : Int} (h : Decimal.WritesExponent cs k) :
    ∀ c ∈ cs.head?, isNumberChar c = false := by
  intro c hc
  cases h with
  | none => cases hc
  | some he =>
    cases hc
    rcases he with rfl | rfl <;> rfl

theorem exponentLength_of_writes {k : Int} (h : Decimal.WritesExponent cs k) :
    exponentLength cs = cs.length := by
  cases h with
  | none => rfl
  | @some e cs k he hcs =>
    obtain @⟨sign, digits, negative, hsign, hdigits⟩ := hcs
    have htake : digits.takeWhile Char.isDigit = digits := List.takeWhile_eq_self_iff.2 hdigits.isDigit
    have hhead : (sign ++ digits).head?.any (fun s => s = '+' || s = '-') = !sign.isEmpty := by
      cases hsign with
      | plus | minus => rfl
      | none =>
        obtain ⟨d, r, rfl⟩ := List.exists_cons_of_ne_nil hdigits.ne_nil
        obtain ⟨hminus, hplus⟩ := hdigits.head_ne d rfl
        simp [hplus, hminus]
    have hlength : (if !sign.isEmpty then 1 else 0) = sign.length := by cases hsign <;> rfl
    rw [exponentLength, if_pos (by simpa using he)]
    dsimp only
    rw [hhead, hlength, List.drop_left, htake, if_neg (by simpa using hdigits.ne_nil), List.length_cons,
      List.length_append]
    omega

theorem numberLength_of_writes {m : Decimal.Magnitude} (h : Decimal.WritesNumber cs m) :
    numberLength cs = cs.length := by
  obtain ⟨hmantissa, hexponent⟩ := h
  obtain ⟨htake, hdrop⟩ :=
    Decimal.takeWhile_exact (isNumberChar_of_writes hmantissa) (head_of_writesExponent hexponent)
  rw [numberLength, htake, hdrop, exponentLength_of_writes hexponent, List.length_append]

theorem length_takeWhile_mono (p : Char → Bool) (h : ds <+: cs) :
    (ds.takeWhile p).length ≤ (cs.takeWhile p).length := by
  obtain ⟨e, rfl⟩ := h
  rw [List.takeWhile_append]
  split
  · next hall =>
    rw [hall, List.length_append]
    exact Nat.le_add_right _ _
  · exact le_rfl

/-- What follows a text can only make its exponent longer. -/
theorem exponentLength_mono (h : ds <+: cs) : exponentLength ds ≤ exponentLength cs := by
  cases ds with
  | nil => exact Nat.zero_le _
  | cons c r =>
    obtain ⟨e, rfl⟩ := h
    cases r with
    | nil => simp [exponentLength]
    | cons s r =>
      rw [List.cons_append, exponentLength, exponentLength]
      split
      · dsimp only
        rw [List.cons_append, List.head?_cons, List.head?_cons]
        generalize (if (some s).any (fun s => s = '+' || s = '-') then 1 else 0) = sign
        have hdrop : (s :: r).drop sign <+: (s :: (r ++ e)).drop sign :=
          List.IsPrefix.drop (List.prefix_append (s :: r) e) sign
        have hdigits := length_takeWhile_mono Char.isDigit hdrop
        split
        · exact Nat.zero_le _
        · rw [if_neg (by omega)]
          omega
      · exact le_rfl

/-- What follows a text can only make its number longer. -/
theorem numberLength_mono (h : ds <+: cs) : numberLength ds ≤ numberLength cs := by
  obtain ⟨e, rfl⟩ := h
  have hsplit : (ds.takeWhile isNumberChar).length + (ds.dropWhile isNumberChar).length = ds.length := by
    rw [← List.length_append, List.takeWhile_append_dropWhile]
  -- what follows goes on with the digits and points, or comes behind the exponent's first character at least
  by_cases hall : ds.dropWhile isNumberChar = []
  · have hlength := length_takeWhile_mono isNumberChar (List.prefix_append ds e)
    rw [numberLength, numberLength, hall]
    exact Nat.add_le_add hlength (Nat.zero_le _)
  · have hne : (ds.takeWhile isNumberChar).length ≠ ds.length := by
      have := List.length_pos_iff.2 hall
      omega
    rw [numberLength, numberLength, List.takeWhile_append, List.dropWhile_append, if_neg hne,
      if_neg (by simpa using hall)]
    exact Nat.add_le_add_left (exponentLength_mono (List.prefix_append _ e)) _

/-! ## Words -/

theorem isWordChar_of_isWordStart (h : isWordStart c) : isWordChar c := by
  rcases Bool.or_eq_true_iff.1 h with h | h
  · exact Bool.or_eq_true_iff.2 (.inl (Bool.or_eq_true_iff.2 (.inl h)))
  · exact Bool.or_eq_true_iff.2 (.inr h)

theorem ofList_eq_iff {s : String} : String.ofList cs = s ↔ cs = s.toList := by
  constructor
  · rintro rfl
    rw [String.toList_ofList]
  · rintro rfl
    rw [String.ofList_toList]

/-- A word is spelled as it is written. -/
theorem spells_ofWord (h : isIdentifier cs) : Spells cs (ofWord (String.ofList cs)) := by
  unfold ofWord
  split
  · next hand =>
    rw [ofList_eq_iff.1 hand]
    exact .word .and
  · next hand =>
    split
    · next hor =>
      rw [ofList_eq_iff.1 hor]
      exact .word .or
    · next hor =>
      refine .ident h fun w hw => ?_
      cases w with
      | and => exact hand (ofList_eq_iff.2 hw)
      | or => exact hor (ofList_eq_iff.2 hw)

theorem ofWord_of_ne (h : ∀ w : Connective, cs ≠ w.word.toList) :
    ofWord (String.ofList cs) = .ident (String.ofList cs) := by
  have hand : String.ofList cs ≠ "and" := fun hand => h .and (ofList_eq_iff.1 hand)
  have hor : String.ofList cs ≠ "or" := fun hor => h .or (ofList_eq_iff.1 hor)
  rw [ofWord, if_neg hand, if_neg hor]

/-! ## The reader -/

theorem Spells.ne_nil (h : Spells cs t) : cs ≠ [] := by
  cases h with
  | leftParen | rightParen | comma | caret => exact List.cons_ne_nil _ _
  | op o => cases o <;> decide
  | compare o => cases o <;> decide
  | word w => cases w <;> decide
  | ident hcs =>
    rintro rfl
    cases hcs
  | num hcs => exact hcs.ne_nil

/-- What is one token is read as that token. -/
theorem Spells.first_eq (h : Spells (c :: r) t) : first c r = .ok (t, r.length) := by
  generalize hcs : c :: r = cs at h
  cases h with
  | leftParen | rightParen | comma | caret =>
    cases hcs
    rfl
  | op o => cases o <;> (cases hcs; rfl)
  | compare o => cases o <;> (cases hcs; rfl)
  | word w => cases w <;> (cases hcs; rfl)
  | ident hident hwords =>
    subst hcs
    have hfirst := first_word hident delimits_nil
    rwa [List.append_nil, ofWord_of_ne hwords] at hfirst
  | num hnumber =>
    subst hcs
    have hc : isNumberChar c := head_of_writesNumber hnumber c rfl
    rw [first_of_isNumberChar hc, numberLength_of_writes hnumber, List.take_length,
      Decimal.readDecimal?_eq_some.2 hnumber]
    rfl

/-- A text spells at most one token. -/
theorem Spells.unique (h : Spells cs t) (h' : Spells cs t') : t = t' := by
  obtain ⟨c, r, rfl⟩ := List.exists_cons_of_ne_nil h.ne_nil
  have hfirst := h.first_eq
  rw [h'.first_eq] at hfirst
  cases hfirst
  rfl

theorem take_length_takeWhile (p : Char → Bool) (cs : List Char) :
    cs.take (cs.takeWhile p).length = cs.takeWhile p :=
  (List.prefix_iff_eq_take.1 (List.takeWhile_prefix p)).symm

/-- A token that begins neither like a number nor like a word is one sign or two. -/
theorem first_sign (hnumber : ¬isNumberChar c) (hword : ¬isWordStart c) (h : first c r = .ok (t, n)) :
    (n = 0 ∧ Spells [c] t) ∨ ∃ d s, r = d :: s ∧ n = 1 ∧ Spells [c, d] t := by
  have hpair {d : Char} (hd : r.head? = some d) (hspells : Spells [c, d] t) :
      ∃ d s, r = d :: s ∧ 1 = 1 ∧ Spells [c, d] t := by
    obtain ⟨s, rfl⟩ := List.head?_eq_some_iff.1 hd
    exact ⟨d, s, rfl, rfl, hspells⟩
  unfold first at h
  split at h
  case h_1 =>
    cases h
    exact .inl ⟨rfl, .leftParen⟩
  case h_2 =>
    cases h
    exact .inl ⟨rfl, .rightParen⟩
  case h_3 =>
    cases h
    exact .inl ⟨rfl, .comma⟩
  case h_4 =>
    cases h
    exact .inl ⟨rfl, .op .add⟩
  case h_5 =>
    cases h
    exact .inl ⟨rfl, .op .sub⟩
  case h_6 =>
    cases h
    exact .inl ⟨rfl, .op .div⟩
  case h_7 =>
    cases h
    exact .inl ⟨rfl, .caret⟩
  case h_8 =>
    split at h
    · next hd =>
      cases h
      exact .inr (hpair hd (.op .pow))
    · cases h
      exact .inl ⟨rfl, .op .mul⟩
  case h_9 =>
    split at h
    · next hd =>
      cases h
      exact .inr (hpair hd (.compare .le))
    · cases h
      exact .inl ⟨rfl, .compare .lt⟩
  case h_10 =>
    split at h
    · next hd =>
      cases h
      exact .inr (hpair hd (.compare .ge))
    · cases h
      exact .inl ⟨rfl, .compare .gt⟩
  case h_11 =>
    split at h
    · next hd =>
      cases h
      exact .inr (hpair hd (.compare .eq))
    · cases h
  case h_12 =>
    rw [if_neg hnumber, if_neg hword] at h
    cases h

theorem first_of_head?_eq (hnumber : ¬isNumberChar c) (hword : ¬isWordStart c) (h : r.head? = ds.head?) :
    first c r = first c ds := by
  unfold first
  split <;> simp only [h, hnumber, hword, Bool.false_eq_true, if_false]

/-- What is read is spelled by the characters that are taken. -/
theorem spells_of_first (h : first c r = .ok (t, n)) : Spells (c :: r.take n) t := by
  by_cases hnumber : isNumberChar c
  · have hpos : 0 < numberLength (c :: r) := by
      rw [numberLength, List.takeWhile_cons_of_pos hnumber]
      exact Nat.add_pos_left (Nat.succ_pos _) _
    rw [first_of_isNumberChar hnumber] at h
    split at h
    · next hread =>
      cases h
      rw [← List.take_succ_cons, Nat.sub_add_cancel hpos]
      exact .num (Decimal.readDecimal?_eq_some.1 hread)
    · cases h
  · by_cases hword : isWordStart c
    · rw [first_of_isWordStart hword (isNumberChar_eq_false hword)] at h
      cases h
      rw [take_length_takeWhile]
      refine spells_ofWord (Bool.and_eq_true_iff.2 ⟨hword, List.all_takeWhile⟩)
    · rcases first_sign hnumber hword h with ⟨rfl, hspells⟩ | ⟨d, s, rfl, rfl, hspells⟩
      · exact hspells
      · exact hspells

/-- What follows a text can only make its first token longer. -/
theorem first_mono (h : first c r = .ok (t, n)) (h' : first c ds = .ok (t', n')) (hbefore : ds <+: r) :
    n' ≤ n := by
  by_cases hnumber : isNumberChar c
  · rw [first_of_isNumberChar hnumber] at h h'
    split at h <;> split at h' <;> cases h <;> cases h'
    exact Nat.sub_le_sub_right (numberLength_mono ((List.cons_prefix_cons).2 ⟨rfl, hbefore⟩)) 1
  · by_cases hword : isWordStart c
    · rw [first_of_isWordStart hword (isNumberChar_eq_false hword)] at h h'
      cases h
      cases h'
      exact length_takeWhile_mono isWordChar hbefore
    · -- only the sign behind the first one matters, and this one is the same
      rcases first_sign hnumber hword h' with ⟨rfl, -⟩ | ⟨d, s, rfl, rfl, -⟩
      · exact Nat.zero_le n
      · obtain ⟨e, rfl⟩ := hbefore
        have hsame : first c (d :: s ++ e) = first c (d :: s) := first_of_head?_eq hnumber hword rfl
        rw [hsame, h'] at h
        cases h
        exact le_rfl

/-- No longer beginning of the text is a token. -/
theorem length_le_of_first (h : first c r = .ok (t, n)) (hspells : Spells (c :: ds) t') (hbefore : ds <+: r) :
    ds.length ≤ n :=
  first_mono h hspells.first_eq hbefore

end HybridPlan.Token
