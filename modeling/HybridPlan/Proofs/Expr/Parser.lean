import HybridPlan.Expr.Parser
import HybridPlan.Proofs.Except
import HybridPlan.Proofs.Expr.Constructors

set_option autoImplicit false

/-! # Parsing stays in a vocabulary

What a parser builds uses the literals and the symbols of the text. -/

namespace HybridPlan

variable {α : Type} [Scalar α]

/-- The token writes a literal or a symbol of the vocabulary, if it writes one. -/
def Lexeme.Writes (V : Vocabulary α) (l : Lexeme) : Prop :=
  match l.token with
  | .num m => V.literal (Scalar.ofNumeral ⟨false, m⟩)
  | .ident name => V.symbol name
  | _ => True

namespace Parser

/-- The parser reads tokens of a vocabulary, and its result, if it has one, refers to expressions
`R` of the vocabulary. -/
def Yields {ι : Type} (V : Vocabulary α) (C : Set ExprId) (p : Parser α ι) (R : ι → Set ExprId) :
    Prop :=
  ∀ s : ParserState α, s.arena.WellFormed → (∀ l ∈ s.rest, l.Writes V) →
    (∀ x ∈ C, s.arena.Uses V x) →
    (p.run.run s).2.arena.WellFormed ∧ s.arena ≤ (p.run.run s).2.arena ∧
      (∀ l ∈ (p.run.run s).2.rest, l.Writes V) ∧
      ∀ i, (p.run.run s).1 = .ok i → ∀ x ∈ R i, (p.run.run s).2.arena.Uses V x

namespace Yields

variable {ι κ : Type} {V : Vocabulary α} {C D : Set ExprId} {p : Parser α ι} {R : ι → Set ExprId}

theorem pure {i : ι} (h : R i ⊆ C) : Yields V C (Pure.pure i : Parser α ι) R := by
  refine fun s ha hl hC => ⟨ha, le_refl _, hl, fun j hj x hx => ?_⟩
  cases hj
  exact hC x (h hx)

theorem throw {e : ParseError} : Yields V C (MonadExcept.throw e : Parser α ι) R :=
  fun _ ha hl _ => ⟨ha, le_refl _, hl, fun _ hj => by cases hj⟩

theorem bind {f : ι → Parser α κ} {S : κ → Set ExprId} (hp : Yields V C p R)
    (hf : ∀ i, Yields V (R i ∪ C) (f i) S) : Yields V C (p >>= f) S := by
  intro s ha hl hC
  obtain ⟨ha₁, hle₁, hl₁, hR⟩ := hp s ha hl hC
  have hrun : (p >>= f).run.run s =
      (ExceptT.bindCont f (p.run.run s).1).run (p.run.run s).2 := rfl
  rw [hrun]
  cases hr : (p.run.run s).1 with
  | error e => exact ⟨ha₁, hle₁, hl₁, fun j hj => by cases hj⟩
  | ok i =>
    obtain ⟨ha₂, hle₂, hl₂, hS⟩ := hf i _ ha₁ hl₁ fun x hx =>
      hx.elim (hR i hr x) fun hx => (hC x hx).mono hle₁
    exact ⟨ha₂, le_trans hle₁ hle₂, hl₂, hS⟩

theorem mono {R' : ι → Set ExprId} (hp : Yields V C p R) (hCD : C ⊆ D)
    (hR : ∀ i, R' i ⊆ R i) : Yields V D p R' := by
  intro s ha hl hD
  obtain ⟨ha', hle, hl', h⟩ := hp s ha hl fun x hx => hD x (hCD hx)
  exact ⟨ha', hle, hl', fun i hi x hx => h i hi x (hR i hx)⟩

theorem weaken (hp : Yields V C p R) (hCD : C ⊆ D) : Yields V D p R :=
  hp.mono hCD fun _ => le_refl _

theorem build {b : Build α ι} (hb : Build.Yields V C b R) : Yields V C (Parser.build b) R := by
  intro s ha hl hC
  obtain ⟨ha', hle, hR⟩ := hb s.arena ha hC
  exact ⟨ha', hle, hl, fun i hi x hx => by cases hi; exact hR x hx⟩

/-- A parser may look at the tokens that are left. -/
theorem get {f : ParserState α → Parser α κ} {S : κ → Set ExprId}
    (h : ∀ s : ParserState α, (∀ l ∈ s.rest, l.Writes V) → Yields V C (f s) S) :
    Yields V C (MonadState.get >>= f) S :=
  fun s ha hl hC => h s hl s ha hl hC

theorem peek {f : Option Token → Parser α κ} {S : κ → Set ExprId}
    (h : ∀ t, Yields V C (f t) S) : Yields V C (peek? >>= f) S :=
  fun s ha hl hC => h _ s ha hl hC

theorem advance : Yields V C (Parser.advance (α := α)) fun _ => ∅ :=
  fun _ ha hl _ => ⟨ha, le_refl _, fun l h => hl l (List.mem_of_mem_tail h), fun _ _ _ hx => hx.elim⟩

/-- A parser that first skips a token. -/
theorem advanced {m : Parser α κ} {S : κ → Set ExprId} (hm : Yields V C m S) :
    Yields V C (do Parser.advance; m) S :=
  bind advance fun _ => hm.weaken Set.subset_union_right

theorem ite {c : Prop} [Decidable c] {p' : Parser α ι} (h : Yields V C p R)
    (h' : Yields V C p' R) : Yields V C (if c then p else p') R := by
  split
  · exact h
  · exact h'

theorem unexpected (input : ParserInput) (what : Expectation) :
    Yields V C (Parser.unexpected input what : Parser α ι) R := by
  refine get fun s _ => ?_
  split
  · exact throw
  · exact throw

theorem expect (input : ParserInput) (t : Token) (what : Expectation) :
    Yields V C (Parser.expect (α := α) input t what) fun _ => ∅ :=
  peek fun _ => ite advance (unexpected input what)

end Yields

/-! ## Lists and chains -/

variable {V : Vocabulary α} {C : Set ExprId} {item : Parser α ExprId}

theorem yields_more (separator : Token) (hitem : Yields V ∅ item ({·})) (n : Nat) :
    Yields V C (more separator item n) fun is => {x | x ∈ is} := by
  induction n generalizing C with
  | zero => exact .pure (by simp)
  | succ n ih =>
    refine .peek fun t => .ite (.advanced ?_) (.pure (by simp))
    refine .bind (hitem.weaken (Set.empty_subset _)) fun x => .bind ih fun is => .pure ?_
    rintro y (_ | ⟨_, hy⟩)
    · exact .inr (.inl rfl)
    · exact .inl hy

/-- A list of items is followed by a construction from them; there is one at least. -/
theorem yields_separated {κ : Type} {f : List ExprId → Parser α κ} {S : κ → Set ExprId}
    (separator : Token) (hitem : Yields V ∅ item ({·}))
    (hf : ∀ is, is ≠ [] → Yields V {x | x ∈ is} (f is) S) :
    Yields V C (separated separator item >>= f) S := by
  unfold separated
  rw [bind_assoc]
  refine .bind (hitem.weaken (Set.empty_subset _)) fun x => ?_
  rw [bind_assoc]
  refine .get fun s _ => ?_
  rw [bind_assoc]
  refine .bind (yields_more separator hitem _) fun is => ?_
  rw [pure_bind]
  refine (hf (x :: is) (List.cons_ne_nil x is)).weaken ?_
  rintro y (_ | ⟨_, hy⟩)
  · exact .inr (.inl rfl)
  · exact .inl hy

theorem yields_chain (hV : V.Closed) (ops : List ArithOp) (hitem : Yields V ∅ item ({·})) (n : Nat)
    {x : ExprId} (hx : x ∈ C) : Yields V C (chain ops item n x) ({·}) := by
  induction n generalizing x C with
  | zero => exact .pure (Set.singleton_subset_iff.2 hx)
  | succ n ih =>
    refine .peek fun t => ?_
    split
    · next op =>
      refine .ite (.advanced ?_) (.pure (Set.singleton_subset_iff.2 hx))
      refine .bind (hitem.weaken (Set.empty_subset _)) fun y => ?_
      refine .bind (.build (Build.yields_arith hV op (.inr hx) (.inl rfl))) fun z => ?_
      exact ih (.inl rfl)
    · exact .pure (Set.singleton_subset_iff.2 hx)

theorem yields_leftAssociative (hV : V.Closed) (ops : List ArithOp)
    (hitem : Yields V ∅ item ({·})) : Yields V C (leftAssociative ops item) ({·}) :=
  .bind (hitem.weaken (Set.empty_subset _)) fun _ => .get fun _ _ =>
    yields_chain hV ops hitem _ (.inl rfl)

/-! ## The grammar -/

variable (hV : V.Complete)
include hV

theorem yields_atom (input : ParserInput) {disjunction : Parser α ExprId}
    (hd : Yields V ∅ disjunction ({·})) : Yields V C (atom input disjunction) ({·}) := by
  refine .get fun s hs => ?_
  split
  · exact .unexpected input .expression
  · next l rest hrest =>
    have hl : l.Writes V := hs l (by rw [hrest]; exact List.mem_cons_self)
    split
    · next m hm =>
      refine .advanced (.build (Build.yields_num hV.toClosed ?_))
      simpa [Lexeme.Writes, hm] using hl
    · refine .advanced (.bind (hd.weaken (Set.empty_subset _)) fun e => ?_)
      refine .bind (.expect input .rightParen .closing) fun _ => .pure ?_
      exact Set.subset_union_of_subset_right Set.subset_union_left _
    · next name hname =>
      refine .advanced (.peek fun t => .ite ?_ (.build (Build.yields_sym ?_)))
      · split
        · exact .throw
        · next f _ =>
          refine .advanced (yields_separated .comma hd fun args _ => ?_)
          refine .bind (.expect input .rightParen .closingOrComma) fun _ => ?_
          split
          · next harity =>
            have hf : V.function f args.length := harity ▸ hV.arity f
            exact .build (Build.yields_call hV.toClosed hf fun x hx => .inr hx)
          · exact .throw
      · simpa [Lexeme.Writes, hname] using hl
    · exact .unexpected input .expression

theorem yields_level (input : ParserInput) (depth : Nat) (l : Level) :
    Yields V ∅ (level input depth l) ({·}) := by
  induction depth generalizing l with
  | zero => exact .unexpected input .expression
  | succ depth ih =>
    cases l with
    | disjunction =>
      exact yields_separated _ (ih _) fun items h => .build (Build.yields_join hV.compound h fun x hx => hx)
    | conjunction =>
      exact yields_separated _ (ih _) fun items h => .build (Build.yields_join hV.compound h fun x hx => hx)
    | comparison =>
      refine .bind (ih _) fun x => .peek fun t => ?_
      split
      · refine .advanced (.bind ((ih _).weaken (Set.empty_subset _)) fun y => .get fun s _ => ?_)
        split
        · exact .throw
        · exact .build (Build.yields_compare hV.compound (.inr (.inl rfl)) (.inl rfl))
      · exact .pure Set.subset_union_left
    | sum => exact yields_leftAssociative hV.toClosed _ (ih _)
    | product => exact yields_leftAssociative hV.toClosed _ (ih _)
    | unary =>
      refine .peek fun t => ?_
      split
      · exact .advanced (.bind (ih _) fun x => .build (Build.yields_neg hV.toClosed (.inl rfl)))
      · exact .advanced (ih _)
      · exact ih _
    | power =>
      refine .bind (ih _) fun x => .peek fun t => .ite (.advanced ?_) (.pure Set.subset_union_left)
      exact .bind ((ih _).weaken (Set.empty_subset _)) fun y =>
        .build (Build.yields_pow hV.toClosed (.inr (.inl rfl)) (.inl rfl))
    | atom => exact yields_atom hV input (ih _)

theorem yields_whole (input : ParserInput) : Yields V C (whole (α := α) input) ({·}) := by
  refine .get fun s _ => ?_
  refine .bind ((yields_level hV input _ _).weaken (Set.empty_subset _)) fun e => .get fun _ _ => ?_
  exact .ite (.pure Set.subset_union_left) (.unexpected input _)

end Parser

/-! ## Texts -/

variable {V : Vocabulary α} {C : Set ExprId}

omit [Scalar α] in
theorem Decimal.exists_of_readDecimal? {cs : List Char} {m : Magnitude}
    (h : readDecimal? cs = some m) : ∃ digits exponent, m = .decimal digits exponent := by
  unfold readDecimal? at h
  dsimp only at h
  -- with or without a fraction, what follows is read in the same way
  split at h
  all_goals
    split at h
    · contradiction
    · split at h
      · exact ⟨_, _, (Option.some.inj h).symm⟩
      · split at h
        · obtain ⟨e, -, rfl⟩ := Option.map_eq_some_iff.1 h
          exact ⟨_, _, rfl⟩
        · contradiction

theorem Token.ofWord_ne_num (w : String) (m : Decimal.Magnitude) : ofWord w ≠ num m := by
  unfold ofWord
  split
  · nofun
  · split <;> nofun

/-- A number token is decimal. -/
theorem Token.first_num {c : Char} {r : List Char} {m : Decimal.Magnitude} {n : Nat}
    (h : Token.first c r = .ok (.num m, n)) : ∃ digits exponent, m = .decimal digits exponent := by
  unfold Token.first at h
  split at h <;> try (first | cases h | (split at h <;> cases h))
  split at h
  · dsimp only at h
    split at h
    · next hm =>
      cases h
      exact Decimal.exists_of_readDecimal? hm
    · cases h
  · split at h
    · simp only [Except.ok.injEq, Prod.mk.injEq] at h
      exact absurd h.1 (ofWord_ne_num _ m)
    · cases h

theorem Token.ofWord_eq_ident {w s : String} (h : ofWord w = ident s) : s = w := by
  unfold ofWord at h
  split at h
  · cases h
  · split at h <;> cases h
    rfl

/-- An identifier is a name. -/
theorem Token.first_ident {c : Char} {r : List Char} {s : String} {n : Nat}
    (h : Token.first c r = .ok (.ident s, n)) : Vocabulary.IsName s := by
  unfold Token.first at h
  split at h <;> try (first | cases h | (split at h <;> cases h))
  split at h
  · dsimp only at h
    split at h <;> cases h
  · split at h
    · next hstart =>
      obtain ⟨hword, -⟩ := Prod.mk.inj (Except.ok.inj h)
      obtain rfl := ofWord_eq_ident hword
      refine ⟨?_, hword⟩
      rw [String.toList_ofList, isIdentifier, Bool.and_eq_true, List.all_eq_true]
      exact ⟨hstart, List.all_eq_true.1 List.all_takeWhile⟩
    · cases h

/-- If all decimal numbers and all names are of the vocabulary, all tokens of a text are. -/
theorem Lexeme.writes_of_scan (hdecimal : ∀ digits exponent, V.literal (Scalar.ofDecimal digits exponent))
    (hsymbol : ∀ s, Vocabulary.IsName s → V.symbol s) {start : Nat} {text : List Char} {tokens : List Lexeme}
    (h : Lexeme.scan start text = .ok tokens) : ∀ l ∈ tokens, l.Writes V := by
  fun_induction Lexeme.scan start text generalizing tokens with
  | case1 start =>
    cases h
    exact fun l hl => absurd hl List.not_mem_nil
  | case2 start c r hspace ih => exact ih h
  | case3 start c r _ token n hfirst stop =>
    next ih =>
    obtain ⟨rest, hrest, h⟩ := Except.bind_eq_ok.1 h
    cases h
    refine List.forall_mem_cons.2 ⟨?_, ih hrest⟩
    unfold Writes
    dsimp only
    split
    · obtain ⟨digits, exponent, rfl⟩ := Token.first_num hfirst
      exact hdecimal digits exponent
    · exact hsymbol _ (Token.first_ident hfirst)
    · trivial
  | case4 => cases h

namespace Build

variable (hV : V.Complete)
include hV

theorem yields_parseTokens (input : ParserInput) {tokens : List Lexeme}
    (ht : ∀ l ∈ tokens, l.Writes V) :
    Attempt.Yields V C (parseTokens (Parser.whole (α := α) input) tokens) ({·}) := by
  intro a ha hC
  obtain ⟨hb, hab, -, hR⟩ := Parser.yields_whole hV input ⟨a, tokens⟩ ha ht hC
  refine ⟨hb, hab, ?_⟩
  rintro x ⟨e, he, hx⟩
  exact hR e he x hx

theorem yields_parseRange (source : Source) (start stop : Nat) :
    Attempt.Yields V C (parseRange (α := α) source start stop) ({·}) := by
  exact .bind_except fun tokens htokens =>
    yields_parseTokens hV _ (Lexeme.writes_of_scan hV.decimal hV.name htokens)

end Build

end HybridPlan
