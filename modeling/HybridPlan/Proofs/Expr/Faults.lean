import HybridPlan.Proofs.Expr.Preservation
import HybridPlan.Proofs.Expr.Spelling
import HybridPlan.Proofs.Source.Range

set_option autoImplicit false

/-! # Where faults are reported

A token stands in the text that is parsed, and so does every fault: it is found at a token, at characters that
are no token, or at the last byte of the text. A text of tokens has only characters of one byte, so its last
byte is a range of it. Only a text without any byte has none that could be shown. -/

namespace HybridPlan

open Text

/-- The bytes of the source that a token covers. -/
def Lexeme.span (source : Source) (l : Lexeme) : Span := ⟨source, l.start, l.stop⟩

/-! ## Tokens -/

namespace Token

/-- All characters take one byte. -/
def Narrow (cs : List Char) : Prop := ∀ c ∈ cs, c.utf8Size = 1

theorem utf8Size_of_isAlphanum {c : Char} (h : c.isAlphanum) : c.utf8Size = 1 := by
  have hhigh : c.val ≤ 126 := (visible_of_isAlphanum h).2
  exact Char.utf8Size_eq_one_iff.2 (UInt32.le_trans hhigh (by decide))

theorem utf8Size_of_isDigit {c : Char} (h : c.isDigit) : c.utf8Size = 1 :=
  utf8Size_of_isAlphanum (by rw [Char.isAlphanum, h, Bool.or_true])

theorem utf8Size_of_isWordChar {c : Char} (h : isWordChar c) : c.utf8Size = 1 := by
  rcases Bool.or_eq_true_iff.1 h with h | h
  · exact utf8Size_of_isAlphanum h
  · rw [of_decide_eq_true h]
    rfl

theorem utf8Size_of_isNumberChar {c : Char} (h : isNumberChar c) : c.utf8Size = 1 := by
  rcases Bool.or_eq_true_iff.1 h with h | h
  · exact utf8Size_of_isDigit h
  · rw [of_decide_eq_true h]
    rfl

theorem narrow_nil : Narrow [] := fun _ h => absurd h List.not_mem_nil

theorem narrow_cons {c : Char} {cs : List Char} : Narrow (c :: cs) ↔ c.utf8Size = 1 ∧ Narrow cs :=
  List.forall_mem_cons

theorem Narrow.append {cs ds : List Char} (hcs : Narrow cs) (hds : Narrow ds) : Narrow (cs ++ ds) :=
  List.forall_mem_append.2 ⟨hcs, hds⟩

theorem narrow_of_all {cs : List Char} (h : cs.all (·.utf8Size == 1)) : Narrow cs :=
  fun c hc => eq_of_beq (List.all_eq_true.1 h c hc)

/-- An exponent is a letter, a sign perhaps, and digits. -/
theorem narrow_exponent {cs : List Char} {k : Int} (h : Decimal.WritesExponent cs k) : Narrow cs := by
  cases h with
  | none => exact narrow_nil
  | some he hcs =>
    obtain ⟨hsign, hdigits⟩ := hcs
    refine narrow_cons.2 ⟨by rcases he with rfl | rfl <;> rfl, .append ?_ ?_⟩
    · cases hsign with
      | none => exact narrow_nil
      | plus | minus => exact narrow_cons.2 ⟨rfl, narrow_nil⟩
    · exact fun d hd => utf8Size_of_isDigit (hdigits.isDigit d hd)

theorem narrow_identifier {cs : List Char} (h : isIdentifier cs) : Narrow cs := by
  cases cs with
  | nil => exact narrow_nil
  | cons c r =>
    obtain ⟨hc, hr⟩ := Bool.and_eq_true_iff.1 h
    exact narrow_cons.2 ⟨utf8Size_of_isWordChar (isWordChar_of_isWordStart hc),
      fun d hd => utf8Size_of_isWordChar (List.all_eq_true.1 hr d hd)⟩

/-- Every token is made of characters of one byte. -/
theorem Spells.narrow {cs : List Char} {t : Token} (h : Spells cs t) : Narrow cs := by
  cases h with
  | leftParen | rightParen | comma | caret => exact narrow_cons.2 ⟨rfl, narrow_nil⟩
  | op o => cases o <;> exact narrow_of_all rfl
  | compare o => cases o <;> exact narrow_of_all rfl
  | word w => cases w <;> exact narrow_of_all rfl
  | ident hcs => exact narrow_identifier hcs
  | num hcs =>
    obtain ⟨hmantissa, hexponent⟩ := hcs
    exact Narrow.append (fun c hc => utf8Size_of_isNumberChar (isNumberChar_of_writes hmantissa c hc))
      (narrow_exponent hexponent)

end Token

namespace Lexeme

variable {source : Source} {start : Nat} {text : List Char}

theorem isSpace_narrow {c : Char} (h : Token.isSpace c) : c.utf8Size = 1 := by
  rcases Bool.or_eq_true_iff.1 h with h | h
  · rcases Bool.or_eq_true_iff.1 h with h | h <;> rw [of_decide_eq_true h] <;> rfl
  · rw [of_decide_eq_true h]
    rfl

/-- A text of tokens has only characters of one byte. -/
theorem narrow_of_scan {tokens : List Lexeme} (h : scan start text = .ok tokens) : Token.Narrow text := by
  fun_induction scan start text generalizing tokens with
  | case1 start => exact Token.narrow_nil
  | case2 start c r hspace ih => exact Token.narrow_cons.2 ⟨isSpace_narrow hspace, ih h⟩
  | case3 start c r hspace token n hfirst stop =>
    next ih =>
    obtain ⟨rest, hrest, -⟩ := Except.bind_eq_ok.1 h
    have hsplit := (Token.spells_of_first hfirst).narrow.append (ih hrest)
    rwa [List.cons_append, List.take_append_drop] at hsplit
  | case4 => cases h

/-- The bytes from `i` up to `j` are those of characters of the text, which starts at `start`. -/
def Covers (start : Nat) (text : List Char) (i j : Nat) : Prop :=
  ∃ before part after, text = before ++ part ++ after ∧ part ≠ [] ∧ i = start + byteSize before ∧
    j = i + byteSize part

namespace Covers

variable {i j : Nat}

theorem bounds (h : Covers start text i j) : start ≤ i ∧ i < j ∧ j ≤ start + byteSize text := by
  obtain ⟨before, part, after, rfl, hne, rfl, rfl⟩ := h
  have hpos := byteSize_pos hne
  rw [byteSize_append, byteSize_append]
  omega

theorem fits (h : Covers start text i j) (hplace : StandsAt source.text.toList start text) :
    Span.Fits ⟨source, i, j⟩ := by
  obtain ⟨before, part, after, rfl, -, rfl, rfl⟩ := h
  rw [List.append_assoc] at hplace
  exact ⟨part, hplace.of_append.2.of_append.1, rfl⟩

/-- The first characters of a text are covered. -/
theorem first (c : Char) (r : List Char) (n : Nat) :
    Covers start (c :: r) start (start + c.utf8Size + byteSize (r.take n)) := by
  refine ⟨[], c :: r.take n, r.drop n, ?_, List.cons_ne_nil _ _, rfl, ?_⟩
  · rw [List.nil_append, List.cons_append, List.take_append_drop]
  · rw [byteSize_cons, Nat.add_assoc]

/-- What is covered behind the first characters is covered. -/
theorem behind {c : Char} {r : List Char} {n : Nat}
    (h : Covers (start + c.utf8Size + byteSize (r.take n)) (r.drop n) i j) : Covers start (c :: r) i j := by
  obtain ⟨before, part, after, hdrop, hne, rfl, rfl⟩ := h
  refine ⟨c :: r.take n ++ before, part, after, ?_, hne, ?_, rfl⟩
  · rw [List.append_assoc, List.append_assoc, ← List.append_assoc before, ← hdrop, List.cons_append,
      List.take_append_drop]
  · rw [byteSize_append, byteSize_cons]
    omega

end Covers

/-- Tokens cover characters of the text, and so does what is no token. -/
theorem covers_of_scan (start : Nat) (text : List Char) :
    (∀ tokens, scan start text = .ok tokens → ∀ l ∈ tokens, Covers start text l.start l.stop) ∧
      ∀ e, scan start text = .error e → Covers start text e.start e.stop := by
  fun_induction scan start text with
  | case1 start =>
    refine ⟨fun tokens htokens => ?_, fun e he => (by cases he)⟩
    cases htokens
    exact fun l hl => absurd hl List.not_mem_nil
  | case2 start c r hspace ih =>
    have hrest {i j : Nat} (h : Covers (start + 1) r i j) : Covers start (c :: r) i j :=
      .behind (n := 0) (by rwa [isSpace_narrow hspace])
    exact ⟨fun tokens h l hl => hrest (ih.1 tokens h l hl), fun e he => hrest (ih.2 e he)⟩
  | case3 start c r hspace token n hfirst stop =>
    next ih =>
    cases hscan : scan (start + c.utf8Size + byteSize (r.take n)) (r.drop n) with
    | error e =>
      refine ⟨fun _ h => (by cases h), fun e' he => ?_⟩
      cases he
      exact (ih.2 e hscan).behind
    | ok rest =>
      refine ⟨fun _ h => ?_, fun _ he => (by cases he)⟩
      cases h
      exact List.forall_mem_cons.2 ⟨.first c r n, fun l hl => (ih.1 rest hscan l hl).behind⟩
  | case4 start c r hspace fault n hfirst =>
    refine ⟨fun _ h => (by cases h), fun e he => ?_⟩
    cases he
    exact .first c r n

end Lexeme

/-! ## Parsers -/

namespace Parser

variable {α : Type} [Scalar α] (input : ParserInput) {text : List Char}

/-- The last byte of a text of characters of one byte is a range of the source. -/
theorem fits_lastByte (hplace : StandsAt input.source.text.toList input.start text)
    (hstop : input.stop = input.start + byteSize text) (hne : text ≠ []) (hnarrow : Token.Narrow text) :
    Span.Fits ⟨input.source, lastByte input, lastByte input + 1⟩ := by
  obtain ⟨front, c, rfl⟩ := (List.eq_nil_or_concat text).resolve_left hne
  rw [List.concat_eq_append] at hplace hstop hnarrow
  have hsize : c.utf8Size = 1 := hnarrow c (List.mem_append_right _ (List.mem_singleton_self c))
  have hlast : lastByte input = input.start + byteSize front := by
    rw [byteSize_append, byteSize_cons, byteSize_nil, hsize] at hstop
    unfold lastByte
    omega
  refine ⟨[c], ?_, by rw [byteSize_cons, byteSize_nil, hsize]⟩
  rw [hlast]
  exact hplace.of_append.2

/-- The tokens that are left stand in the source, and so does every fault. -/
theorem preserved_fits (hlast : Span.Fits ⟨input.source, lastByte input, lastByte input + 1⟩) :
    Preserved (α := α) input (fun s => ∀ l ∈ s.rest, (l.span input.source).Fits)
      fun e => (e.span input.source).Fits where
  intern _ _ h _ := h
  skip h _ := fun l hl => h l (List.mem_cons_of_mem _ hl)
  function h _ _ := fun l hl => h l (List.mem_cons_of_mem _ hl)
  symbol h _ _ := fun l hl => h l (List.mem_cons_of_mem _ hl)
  found h _ := h _ List.mem_cons_self
  ended _ := hlast

end Parser

namespace Build

variable {α : Type} [Scalar α] {source : Source} {start stop : Nat}

/-- Every fault of a range with at least one byte is found in a range of the source. -/
theorem fits_of_parseRange (hrange : Span.Fits ⟨source, start, stop⟩) (hlt : start < stop) (a : Arena α)
    {e : ParseError} (h : ((parseRange source start stop).run.run a).1 = .error e) : (e.span source).Fits := by
  obtain ⟨text, hplace, hstop⟩ := hrange
  dsimp only at hplace hstop
  have htext : slice source.text.toList start stop = text := by rw [hstop, hplace.slice]
  have hne : text ≠ [] := by
    rintro rfl
    rw [byteSize_nil] at hstop
    omega
  obtain ⟨htokens, herrors⟩ := Lexeme.covers_of_scan start text
  unfold parseRange at h
  rw [htext] at h
  dsimp only at h
  cases hscan : Lexeme.scan start text with
  | error e' =>
    rw [hscan] at h
    cases h
    exact (herrors _ hscan).fits hplace
  | ok tokens =>
    rw [hscan] at h
    have hlast := Parser.fits_lastByte ⟨source, start, stop⟩ hplace hstop hne (Lexeme.narrow_of_scan hscan)
    have hfits : ∀ l ∈ tokens, (l.span source).Fits := fun l hl => (htokens tokens hscan l hl).fits hplace
    exact ((Parser.preserved_fits _ hlast).whole ⟨a, tokens⟩ hfits).error e h

/-- The end of a text without any byte is reported at a byte that the text does not have, and there is no
message about it. -/
theorem parse_empty (a : Arena α) : ∃ e, ((parse "").run.run a).1 = .error e ∧
    ¬(e.span ⟨"", none⟩).Fits ∧ e.message? ⟨"", none⟩ = none := by
  have hscan : Lexeme.scan 0 (slice "".toList 0 "".utf8ByteSize) = .ok [] := by
    rw [slice_whole]
    exact Lexeme.scan.eq_1 0
  have hout : ¬Span.Fits ⟨⟨"", none⟩, 0, 1⟩ := fun h => absurd h.stop_le (by decide)
  refine ⟨⟨.unexpectedEnd .expression, 0, 1⟩, ?_, hout, Message.about?_eq_none hout (by decide) _⟩
  unfold parse parseRange
  dsimp only
  rw [hscan]
  rfl

/-- A text has a message for every fault if and only if it is not empty: its faults are found in ranges of
the text then. -/
theorem parse_faults_shown_iff (a : Arena α) (text : String) :
    (∀ e, ((parse text).run.run a).1 = .error e → (e.span ⟨text, none⟩).Fits ∧
      e.message? ⟨text, none⟩ = some (e.message ⟨text, none⟩)) ↔ text ≠ "" := by
  constructor
  · rintro h rfl
    obtain ⟨e, he, hout, -⟩ := parse_empty a
    exact hout (h e he).1
  · intro hne e he
    have hsize : text.utf8ByteSize = byteSize text.toList := utf8ByteSize_eq text
    have hpos : 0 < text.utf8ByteSize := by
      rw [Nat.pos_iff_ne_zero, ne_eq, String.utf8ByteSize_eq_zero_iff]
      exact hne
    have hfits : (e.span ⟨text, none⟩).Fits :=
      fits_of_parseRange ⟨text.toList, ⟨[], [], by simp, rfl⟩, by simp [hsize]⟩ hpos a he
    exact ⟨hfits, Message.about?_eq hfits _⟩

end Build

end HybridPlan
