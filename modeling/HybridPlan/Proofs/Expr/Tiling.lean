import HybridPlan.Proofs.Expr.Faults

set_option autoImplicit false

/-! # How tokens tile a text

The tokens of a text stand one behind the other, with nothing but blanks between them. Each is what the
characters of its range spell, and no further characters of the text would make a longer token of them. -/

namespace HybridPlan

/-- The bytes of the UTF-8 encoding. -/
def Text.bytes (cs : List Char) : List UInt8 := cs.flatMap String.utf8EncodeChar

namespace Text

theorem bytes_cons (c : Char) (cs : List Char) : bytes (c :: cs) = String.utf8EncodeChar c ++ bytes cs := rfl

theorem bytes_append (cs ds : List Char) : bytes (cs ++ ds) = bytes cs ++ bytes ds := List.flatMap_append

theorem length_bytes (cs : List Char) : (bytes cs).length = byteSize cs := by
  induction cs with
  | nil => rfl
  | cons c cs ih => rw [bytes_cons, List.length_append, String.length_utf8EncodeChar, ih, byteSize_cons]

end Text

namespace Lexeme

open Text

variable {start : Nat} {c : Char} {cs r text : List Char} {l : Lexeme} {t : Token} {n : Nat}

/-- A space, a tab or a carriage return. -/
def IsBlank (b : UInt8) : Prop := b = 0x20 ∨ b = 0x09 ∨ b = 0x0d

/-- The characters of the range of a token spell this token and no other one, and with some of the characters
that follow them they spell no token at all. -/
def Longest (start : Nat) (text : List Char) (l : Lexeme) : Prop :=
  ∃ before part after, text = before ++ part ++ after ∧ l.start = start + byteSize before ∧
    l.stop = l.start + byteSize part ∧ (∀ t, Token.Spells part t ↔ t = l.token) ∧
    ∀ more t, more <+: after → Token.Spells (part ++ more) t → more = []

/-- A text that starts at the given byte is made of the ranges of the tokens and of blanks. -/
structure Tiles (start : Nat) (text : List Char) (tokens : List Lexeme) : Prop where
  bounds : ∀ l ∈ tokens, start ≤ l.start ∧ l.start < l.stop ∧ l.stop ≤ start + byteSize text
  ordered : tokens.Pairwise fun l l' => l.stop ≤ l'.start
  /-- A byte that no token covers is a blank. -/
  blank : ∀ i b, (bytes text)[i]? = some b →
    (∀ l ∈ tokens, ¬(l.start ≤ start + i ∧ start + i < l.stop)) → IsBlank b

/-! ## Longest tokens -/

theorem Longest.behind (h : Longest (start + byteSize cs) text l) : Longest start (cs ++ text) l := by
  obtain ⟨before, part, after, rfl, hstart, hstop, hspells, hmore⟩ := h
  refine ⟨cs ++ before, part, after, by simp, ?_, hstop, hspells, hmore⟩
  rw [hstart, byteSize_append, Nat.add_assoc]

theorem longest_of_first (h : Token.first c r = .ok (t, n)) :
    Longest start (c :: r) ⟨t, start, start + byteSize (c :: r.take n)⟩ := by
  have hspells := Token.spells_of_first h
  refine ⟨[], c :: r.take n, r.drop n, ?_, rfl, rfl, fun t' => ⟨fun h' => h'.unique hspells, ?_⟩, ?_⟩
  · rw [List.nil_append, List.cons_append, List.take_append_drop]
  · rintro rfl
    exact hspells
  · intro more t' hmore hmunch
    -- a longer token would have been read
    rw [List.cons_append] at hmunch
    have hbefore : r.take n ++ more <+: r.take n ++ r.drop n := (List.prefix_append_right_inj _).2 hmore
    rw [List.take_append_drop] at hbefore
    have hlonger := Token.length_le_of_first h hmunch hbefore
    have hafter := hmore.length_le
    rw [List.length_append, List.length_take] at hlonger
    rw [List.length_drop] at hafter
    exact List.length_eq_zero_iff.1 (by omega)

/-! ## Tilings -/

namespace Tiles

variable {ds : List Char} {us vs : List Lexeme}

theorem nil : Tiles start [] [] where
  bounds l hl := absurd hl List.not_mem_nil
  ordered := .nil
  blank i b hb := by cases hb

theorem space (h : Token.isSpace c) : Tiles start [c] [] where
  bounds l hl := absurd hl List.not_mem_nil
  ordered := .nil
  blank i b hb _ := by
    have hmem := List.mem_of_getElem? hb
    rcases Bool.or_eq_true_iff.1 h with h | h
    · rcases Bool.or_eq_true_iff.1 h with h | h
      · rw [of_decide_eq_true h] at hmem
        exact .inl (List.mem_singleton.1 hmem)
      · rw [of_decide_eq_true h] at hmem
        exact .inr (.inl (List.mem_singleton.1 hmem))
    · rw [of_decide_eq_true h] at hmem
      exact .inr (.inr (List.mem_singleton.1 hmem))

theorem token (h : cs ≠ []) : Tiles start cs [⟨t, start, start + byteSize cs⟩] where
  bounds l hl := by
    have hpos := byteSize_pos h
    obtain rfl := List.mem_singleton.1 hl
    exact ⟨le_rfl, Nat.lt_add_of_pos_right hpos, le_rfl⟩
  ordered := List.pairwise_singleton _ _
  blank i b hb hout := by
    have hi : i < byteSize cs := by
      rw [← length_bytes]
      exact (List.getElem?_eq_some_iff.1 hb).1
    exact absurd ⟨Nat.le_add_right _ _, Nat.add_lt_add_left hi _⟩ (hout _ (List.mem_singleton_self _))

/-- Texts one behind the other. -/
theorem append (h : Tiles start cs us) (h' : Tiles (start + byteSize cs) ds vs) :
    Tiles start (cs ++ ds) (us ++ vs) where
  bounds l hl := by
    rw [byteSize_append]
    rcases List.mem_append.1 hl with hl | hl
    · have hbounds := h.bounds l hl
      omega
    · have hbounds := h'.bounds l hl
      omega
  ordered := by
    refine List.pairwise_append.2 ⟨h.ordered, h'.ordered, fun l hl l' hl' => ?_⟩
    exact (h.bounds l hl).2.2.trans (h'.bounds l' hl').1
  blank i b hb hout := by
    rw [bytes_append] at hb
    by_cases hi : i < byteSize cs
    · rw [List.getElem?_append_left (by rwa [length_bytes])] at hb
      exact h.blank i b hb fun l hl => hout l (List.mem_append_left vs hl)
    · rw [List.getElem?_append_right (by rw [length_bytes]; omega), length_bytes] at hb
      refine h'.blank _ b hb fun l hl => ?_
      rw [Nat.add_assoc, Nat.add_sub_of_le (Nat.le_of_not_lt hi)]
      exact hout l (List.mem_append_right us hl)

end Tiles

/-- The tokens that are read from a text tile it, and each is the longest one at its place. -/
theorem tiles_of_scan (start : Nat) (text : List Char) {tokens : List Lexeme}
    (h : scan start text = .ok tokens) :
    Tiles start text tokens ∧ ∀ l ∈ tokens, Longest start text l := by
  fun_induction scan start text generalizing tokens with
  | case1 start =>
    cases h
    exact ⟨.nil, fun l hl => absurd hl List.not_mem_nil⟩
  | case2 start c r hspace ih =>
    have hsize : byteSize [c] = 1 := by rw [byteSize_cons, isSpace_narrow hspace, byteSize_nil]
    obtain ⟨htiles, hlongest⟩ := ih h
    rw [← hsize] at htiles hlongest
    exact ⟨Tiles.append (.space hspace) htiles, fun l hl => (hlongest l hl).behind⟩
  | case3 start c r hspace token n hfirst stop =>
    next ih =>
    obtain ⟨rest, hrest, heq⟩ := Except.bind_eq_ok.1 h
    cases heq
    obtain ⟨htiles, hlongest⟩ := ih hrest
    have hstop : stop = start + byteSize (c :: r.take n) := by rw [byteSize_cons, ← Nat.add_assoc]
    have hsplit : c :: r.take n ++ r.drop n = c :: r := by rw [List.cons_append, List.take_append_drop]
    rw [hstop] at htiles hlongest ⊢
    constructor
    · rw [← hsplit]
      exact Tiles.append (.token (List.cons_ne_nil _ _)) htiles
    · refine List.forall_mem_cons.2 ⟨longest_of_first hfirst, fun l hl => ?_⟩
      rw [← hsplit]
      exact (hlongest l hl).behind
  | case4 => cases h

/-- The letter `e` belongs to a number only with the digits of an exponent behind it. -/
theorem tiles_lone_exponent :
    let tokens : List Lexeme :=
      [⟨.num (.decimal 2 0), 0, 1⟩, ⟨.ident "e", 1, 2⟩, ⟨.num (.decimal 2 (-3)), 3, 7⟩]
    scan 0 "2e 2e-3".toList = .ok tokens ∧
      (Tiles 0 "2e 2e-3".toList tokens ∧ ∀ l ∈ tokens, Longest 0 "2e 2e-3".toList l) := by
  have hexponent : Scans 3 ['2', 'e', '-', '3'] [] [⟨.num (.decimal 2 (-3)), 3, 7⟩] := .token rfl rfl
  have hspace : Scans 2 [' '] (['2', 'e', '-', '3'] ++ []) [] := .space
  have hident : Scans 1 ['e'] ([' ', '2', 'e', '-', '3'] ++ []) [⟨.ident "e", 1, 2⟩] := .token rfl rfl
  have hnumber : Scans 0 ['2'] (['e', ' ', '2', 'e', '-', '3'] ++ []) [⟨.num (.decimal 2 0), 0, 1⟩] :=
    .token rfl rfl
  have hscan := (hnumber.append (hident.append (hspace.append hexponent))).scan_eq
  exact ⟨hscan, tiles_of_scan 0 _ hscan⟩

end Lexeme

end HybridPlan
