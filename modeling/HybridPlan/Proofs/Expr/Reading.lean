import HybridPlan.Proofs.Expr.Grammar
import HybridPlan.Proofs.Expr.Vocabulary

set_option autoImplicit false

/-! # The parser reads the grammar

What a parser reads is a phrase of the grammar, and it builds what the phrase builds. Conversely, a phrase
of a level is read by the parser of that level, if the token behind it does not continue it. So a
text is accepted if and only if its tokens are a phrase. -/

namespace HybridPlan

variable {α : Type} [Scalar α] {source : Source}

namespace Parser

/-! ## Runs -/

section

variable {ι κ : Type} {p : Parser α ι} {f : ι → Parser α κ} {s s' : ParserState α}

theorem run_bind_eq_ok {k : κ} :
    (p >>= f).run.run s = (.ok k, s') ↔
      ∃ i s₁, p.run.run s = (.ok i, s₁) ∧ (f i).run.run s₁ = (.ok k, s') := by
  have hrun : (p >>= f).run.run s = (ExceptT.bindCont f (p.run.run s).1).run (p.run.run s).2 := rfl
  rw [hrun]
  obtain ⟨r, s₁⟩ := p.run.run s
  cases r with
  | error e =>
    constructor
    · intro h
      cases h
    · rintro ⟨i, s₂, h, -⟩
      cases h
  | ok i =>
    constructor
    · intro h
      exact ⟨i, s₁, rfl, h⟩
    · rintro ⟨j, s₂, h, h'⟩
      cases h
      exact h'

theorem run_bind_of_ok {i : ι} {s₁ : ParserState α} (h : p.run.run s = (.ok i, s₁)) :
    (p >>= f).run.run s = (f i).run.run s₁ := by
  have hrun : (p >>= f).run.run s = (ExceptT.bindCont f (p.run.run s).1).run (p.run.run s).2 := rfl
  rw [hrun, h]
  rfl

theorem run_build (b : Build α ι) :
    (build b).run.run s = (.ok (b.run s.arena).1, ⟨(b.run s.arena).2, s.rest⟩) := rfl

theorem of_build_eq_ok {b : Build α ι} {i : ι} (h : (build b).run.run s = (.ok i, s')) :
    b.run s.arena = (i, s'.arena) ∧ s'.rest = s.rest := by
  cases h
  exact ⟨rfl, rfl⟩

theorem run_get {f : ParserState α → Parser α κ} : (get >>= f).run.run s = (f s).run.run s := rfl

theorem run_peek {f : Option Token → Parser α κ} :
    (peek? >>= f).run.run s = (f (s.rest.head?.map (·.token))).run.run s := rfl

theorem run_advance {m : Parser α κ} :
    (do advance; m).run.run s = m.run.run ⟨s.arena, s.rest.tail⟩ := rfl

theorem not_run_throw {e : ParseError} {i : ι} :
    (throw e : Parser α ι).run.run s ≠ (.ok i, s') := fun h => by cases h

theorem not_run_unexpected {input : ParserInput} {what : Expectation} {i : ι} :
    (unexpected input what : Parser α ι).run.run s ≠ (.ok i, s') := by
  unfold unexpected
  rw [run_get]
  split <;> exact not_run_throw

/-- The token that comes next is that of the first lexeme. -/
theorem exists_of_peek {rest : List Lexeme} {t : Token} (h : rest.head?.map (·.token) = some t) :
    ∃ l rest', rest = l :: rest' ∧ l.token = t := by
  obtain ⟨l, hl, htoken⟩ := Option.map_eq_some_iff.1 h
  obtain ⟨rest', rfl⟩ := List.head?_eq_some_iff.1 hl
  exact ⟨l, rest', rfl, htoken⟩

theorem expect_eq_ok {input : ParserInput} {t : Token} {what : Expectation} {a : Arena α}
    {rest : List Lexeme} :
    (expect input t what).run.run ⟨a, rest⟩ = (.ok (), s') ↔
      ∃ l rest', rest = l :: rest' ∧ l.token = t ∧ s' = ⟨a, rest'⟩ := by
  unfold expect
  rw [run_peek]
  cases rest with
  | nil =>
    constructor
    · intro h
      exact absurd h not_run_unexpected
    · rintro ⟨l, rest', h, -⟩
      cases h
  | cons l rest =>
    simp only [List.head?_cons, Option.map_some, Option.some.injEq]
    by_cases ht : l.token = t
    · rw [if_pos ht]
      constructor
      · intro h
        cases h
        exact ⟨l, rest, rfl, ht, rfl⟩
      · rintro ⟨l', rest', h, -, rfl⟩
        cases h
        rfl
    · rw [if_neg ht]
      constructor
      · intro h
        exact absurd h not_run_unexpected
      · rintro ⟨l', rest', h, ht', -⟩
        cases h
        exact absurd ht' ht

end

/-! ## What is read is a phrase -/

/-- The parser reads nothing but phrases of a kind, and builds what they build. -/
def Sound (source : Source) (p : Parser α ExprId) (P : List Lexeme → Phrase → Prop) : Prop :=
  ∀ a rest e s', p.run.run ⟨a, rest⟩ = (.ok e, s') → ∃ us t, rest = us ++ s'.rest ∧ P us t ∧
    (t.build source).run a = (e, s'.arena)

variable {item : Parser α ExprId} {P Q : List Lexeme → Phrase → Prop} {a : Arena α}
  {rest : List Lexeme} {e : ExprId} {s' : ParserState α}

theorem sound_more {separator : Token} (hitem : Sound source item P) {n : Nat} {es : List ExprId}
    (h : (more separator item n).run.run ⟨a, rest⟩ = (.ok es, s')) :
    ∃ us ts, rest = us ++ s'.rest ∧ More separator P us ts ∧
      (Phrase.buildAll source ts).run a = (es, s'.arena) := by
  induction n generalizing a rest es with
  | zero =>
    cases h
    exact ⟨[], [], rfl, .nil, rfl⟩
  | succ n ih =>
    unfold more at h
    rw [run_peek] at h
    split at h
    · next hpeek =>
      obtain ⟨l, rest, rfl, htoken⟩ := exists_of_peek hpeek
      rw [run_advance] at h
      obtain ⟨e, s₁, he, h⟩ := run_bind_eq_ok.1 h
      obtain ⟨es', s₂, hes, h⟩ := run_bind_eq_ok.1 h
      cases h
      obtain ⟨us, t, rfl, ht, hbuild⟩ := hitem _ _ _ _ he
      obtain ⟨vs, ts, hvs, hts, hbuilds⟩ := ih hes
      refine ⟨l :: us ++ vs, t :: ts, ?_, .cons htoken ht hts, Phrase.run_cons hbuild hbuilds⟩
      rw [hvs, List.cons_append, List.cons_append, List.append_assoc]
    · cases h
      exact ⟨[], [], rfl, .nil, rfl⟩

theorem sound_separated {separator : Token} (hitem : Sound source item P) {es : List ExprId}
    (h : (separated separator item).run.run ⟨a, rest⟩ = (.ok es, s')) :
    ∃ us vs t ts, rest = us ++ vs ++ s'.rest ∧ P us t ∧ More separator P vs ts ∧
      (Phrase.buildAll source (t :: ts)).run a = (es, s'.arena) := by
  obtain ⟨e, s₁, he, h⟩ := run_bind_eq_ok.1 h
  rw [run_get] at h
  obtain ⟨es', s₂, hes, h⟩ := run_bind_eq_ok.1 h
  cases h
  obtain ⟨us, t, rfl, ht, hbuild⟩ := hitem _ _ _ _ he
  obtain ⟨vs, ts, hvs, hts, hbuilds⟩ := sound_more hitem hes
  exact ⟨us, vs, t, ts, by rw [hvs, List.append_assoc], ht, hts, Phrase.run_cons hbuild hbuilds⟩

/-- A phrase of items with a connective between them. -/
def Joined (c : Connective) (P : List Lexeme → Phrase → Prop) (us : List Lexeme) (t : Phrase) : Prop :=
  ∃ vs ws x xs, us = vs ++ ws ∧ t = .joined c (x :: xs) ∧ P vs x ∧ More (.word c) P ws xs

theorem sound_joined (c : Connective) (hitem : Sound source item P) :
    Sound source (do let items ← separated (.word c) item; build (Build.join c items))
      (Joined c P) := by
  intro a rest e s' h
  obtain ⟨es, s₁, hes, h⟩ := run_bind_eq_ok.1 h
  cases h
  obtain ⟨us, vs, t, ts, hrest, ht, hts, hbuild⟩ := sound_separated hitem hes
  exact ⟨us ++ vs, _, hrest, ⟨us, vs, t, ts, rfl, rfl, ht, hts⟩, Phrase.run_joined c hbuild⟩

theorem sound_chain {ops : List ArithOp} (hitem : Sound source item P) {n : Nat} {x : Phrase}
    {a₀ : Arena α} {e₀ : ExprId} (hx : (x.build source).run a₀ = (e₀, a))
    (h : (chain ops item n e₀).run.run ⟨a, rest⟩ = (.ok e, s')) :
    ∃ us t, rest = us ++ s'.rest ∧ Chain ops P us x t ∧ (t.build source).run a₀ = (e, s'.arena) := by
  induction n generalizing a rest e₀ x with
  | zero =>
    cases h
    exact ⟨[], x, rfl, .nil, hx⟩
  | succ n ih =>
    unfold chain at h
    rw [run_peek] at h
    split at h
    · next op hpeek =>
      obtain ⟨l, rest, rfl, htoken⟩ := exists_of_peek hpeek
      split at h
      · next hop =>
        rw [run_advance] at h
        obtain ⟨d, s₁, hd, h⟩ := run_bind_eq_ok.1 h
        obtain ⟨c, s₂, hc, h⟩ := run_bind_eq_ok.1 h
        cases hc
        obtain ⟨us, y, hus, hy, hbuild⟩ := hitem _ _ _ _ hd
        obtain ⟨vs, t, hvs, ht, hresult⟩ := ih (Phrase.run_operation op hx hbuild) h
        refine ⟨l :: us ++ vs, t, ?_, .cons htoken (List.contains_iff_mem.1 hop) hy ht, hresult⟩
        rw [List.tail_cons] at hus
        rw [hus, hvs, List.cons_append, List.cons_append, List.append_assoc]
      · cases h
        exact ⟨[], x, rfl, .nil, hx⟩
    · cases h
      exact ⟨[], x, rfl, .nil, hx⟩

theorem sound_leftAssociative {ops : List ArithOp} (hitem : Sound source item P) :
    Sound source (leftAssociative ops item)
      fun us t => ∃ vs ws x, us = vs ++ ws ∧ P vs x ∧ Chain ops P ws x t := by
  intro a rest e s' h
  obtain ⟨d, s₁, hd, h⟩ := run_bind_eq_ok.1 h
  rw [run_get] at h
  obtain ⟨us, x, hus, hx, hbuild⟩ := hitem _ _ _ _ hd
  obtain ⟨vs, t, hvs, ht, hresult⟩ := sound_chain hitem hbuild h
  exact ⟨us ++ vs, t, by rw [hus, hvs, List.append_assoc], ⟨us, vs, x, rfl, hx, ht⟩, hresult⟩

theorem sound_atom {input : ParserInput} (hsource : input.source = source)
    (hitem : Sound source item (Derives .disjunction)) :
    Sound source (atom input item) (Derives .atom) := by
  intro a rest e s' h
  unfold atom at h
  rw [run_get] at h
  cases rest with
  | nil => exact absurd h not_run_unexpected
  | cons l rest =>
    dsimp only at h
    split at h
    · next m hm =>
      cases h
      exact ⟨[l], _, rfl, .number hm, rfl⟩
    · next hopen =>
      rw [run_advance] at h
      obtain ⟨d, s₁, hd, h⟩ := run_bind_eq_ok.1 h
      obtain ⟨⟨⟩, s₂, hclose, h⟩ := run_bind_eq_ok.1 h
      cases h
      obtain ⟨us, t, hus, ht, hbuild⟩ := hitem _ _ _ _ hd
      obtain ⟨lc, rest', hrest', hlc, rfl⟩ := expect_eq_ok.1 hclose
      refine ⟨l :: us ++ [lc], t, ?_, .bracketed hopen ht hlc, hbuild⟩
      rw [List.tail_cons] at hus
      simp [hus, hrest']
    · next name hname =>
      rw [run_advance, run_peek] at h
      split at h
      · next hpeek =>
        obtain ⟨lo, rest, rfl, hopen⟩ := exists_of_peek hpeek
        split at h
        · exact absurd h not_run_throw
        · next f hf =>
          rw [run_advance] at h
          obtain ⟨args, s₁, hargs, h⟩ := run_bind_eq_ok.1 h
          obtain ⟨⟨⟩, s₂, hclose, h⟩ := run_bind_eq_ok.1 h
          obtain ⟨us, vs, t, ts, hrest, ht, hts, hbuild⟩ := sound_separated hitem hargs
          obtain ⟨lc, rest', hrest', hlc, rfl⟩ := expect_eq_ok.1 hclose
          split at h
          · next harity =>
            obtain ⟨hresult, hleft⟩ := of_build_eq_ok h
            rw [← Phrase.length_buildAll hbuild] at harity
            refine ⟨l :: lo :: (us ++ vs) ++ [lc], _, ?_,
              .call hname hf hopen ht hts harity hlc, (Phrase.run_call f hbuild).trans hresult⟩
            rw [hleft]
            simp [show rest = us ++ vs ++ s₁.rest from hrest, hrest']
          · exact absurd h not_run_throw
      · cases h
        exact ⟨[l], _, rfl, .name hname, by rw [← hsource]; rfl⟩
    · exact absurd h not_run_unexpected

section

variable {input : ParserInput} {depth : Nat}

theorem sound_comparison (hsum : Sound source (level (α := α) input depth .sum) (Derives .sum)) :
    Sound source (level (α := α) input (depth + 1) .comparison) (Derives .comparison) := by
  intro a rest e s' h
  obtain ⟨d, ⟨b, rest₁⟩, hd, h⟩ := run_bind_eq_ok.1 h
  rw [run_peek] at h
  obtain ⟨us, x, hus, hx, hbuildx⟩ := hsum _ _ _ _ hd
  split at h
  · next op hpeek =>
    obtain ⟨lc, rest₂, rfl, hcompare⟩ := exists_of_peek hpeek
    rw [run_advance] at h
    obtain ⟨c, s₂, hc, h⟩ := run_bind_eq_ok.1 h
    obtain ⟨vs, y, hvs, hy, hbuildy⟩ := hsum _ _ _ _ hc
    rw [run_get] at h
    split at h
    · exact absurd h not_run_throw
    · cases h
      refine ⟨us ++ lc :: vs, _, ?_, .comparison hx hcompare hy,
        Phrase.run_comparison op hbuildx hbuildy⟩
      rw [List.tail_cons] at hvs
      simp [hus, hvs]
  · cases h
    exact ⟨us, x, hus, .sides hx, hbuildx⟩

theorem sound_unary (hunary : Sound source (level (α := α) input depth .unary) (Derives .unary))
    (hpower : Sound source (level (α := α) input depth .power) (Derives .power)) :
    Sound source (level (α := α) input (depth + 1) .unary) (Derives .unary) := by
  intro a rest e s' h
  unfold level at h
  rw [run_peek] at h
  split at h
  · next hpeek =>
    obtain ⟨l, rest, rfl, hsign⟩ := exists_of_peek hpeek
    rw [run_advance] at h
    obtain ⟨d, s₁, hd, h⟩ := run_bind_eq_ok.1 h
    cases h
    obtain ⟨us, x, hus, hx, hbuild⟩ := hunary _ _ _ _ hd
    rw [List.tail_cons] at hus
    exact ⟨l :: us, _, by rw [hus]; rfl, .opposite hsign hx, Phrase.run_opposite hbuild⟩
  · next hpeek =>
    obtain ⟨l, rest, rfl, hsign⟩ := exists_of_peek hpeek
    rw [run_advance] at h
    obtain ⟨us, x, hus, hx, hbuild⟩ := hunary _ _ _ _ h
    rw [List.tail_cons] at hus
    exact ⟨l :: us, x, by rw [hus]; rfl, .unchanged hsign hx, hbuild⟩
  · obtain ⟨us, t, hus, ht, hbuild⟩ := hpower _ _ _ _ h
    exact ⟨us, t, hus, .unsigned ht, hbuild⟩

theorem sound_power (hatom : Sound source (level (α := α) input depth .atom) (Derives .atom))
    (hunary : Sound source (level (α := α) input depth .unary) (Derives .unary)) :
    Sound source (level (α := α) input (depth + 1) .power) (Derives .power) := by
  intro a rest e s' h
  obtain ⟨d, ⟨b, rest₁⟩, hd, h⟩ := run_bind_eq_ok.1 h
  rw [run_peek] at h
  obtain ⟨us, x, hus, hx, hbuildx⟩ := hatom _ _ _ _ hd
  split at h
  · next hpeek =>
    obtain ⟨lp, rest₂, rfl, hpow⟩ := exists_of_peek hpeek
    rw [run_advance] at h
    obtain ⟨c, s₂, hc, h⟩ := run_bind_eq_ok.1 h
    cases h
    obtain ⟨vs, y, hvs, hy, hbuildy⟩ := hunary _ _ _ _ hc
    refine ⟨us ++ lp :: vs, _, ?_, .power hx hpow hy, Phrase.run_operation .pow hbuildx hbuildy⟩
    rw [List.tail_cons] at hvs
    simp [hus, hvs]
  · cases h
    exact ⟨us, x, hus, .base hx, hbuildx⟩

end

/-- Every level reads phrases of the level. -/
theorem sound_level {input : ParserInput} (hsource : input.source = source) (depth : Nat)
    (l : Level) : Sound source (level (α := α) input depth l) (Derives l) := by
  induction depth generalizing l with
  | zero => exact fun a rest e s' h => absurd h not_run_unexpected
  | succ depth ih =>
    intro a rest e s' h
    cases l with
    | disjunction =>
      obtain ⟨us, t, hrest, ⟨vs, ws, x, xs, rfl, rfl, hx, hxs⟩, hbuild⟩ :=
        sound_joined .or (ih .conjunction) _ _ _ _ h
      exact ⟨vs ++ ws, _, hrest, .disjunction hx hxs, hbuild⟩
    | conjunction =>
      obtain ⟨us, t, hrest, ⟨vs, ws, x, xs, rfl, rfl, hx, hxs⟩, hbuild⟩ :=
        sound_joined .and (ih .comparison) _ _ _ _ h
      exact ⟨vs ++ ws, _, hrest, .conjunction hx hxs, hbuild⟩
    | comparison => exact sound_comparison (ih .sum) _ _ _ _ h
    | sum =>
      obtain ⟨us, t, hrest, ⟨vs, ws, x, rfl, hx, ht⟩, hbuild⟩ :=
        sound_leftAssociative (ih .product) _ _ _ _ h
      exact ⟨vs ++ ws, t, hrest, .sum hx ht, hbuild⟩
    | product =>
      obtain ⟨us, t, hrest, ⟨vs, ws, x, rfl, hx, ht⟩, hbuild⟩ :=
        sound_leftAssociative (ih .unary) _ _ _ _ h
      exact ⟨vs ++ ws, t, hrest, .product hx ht, hbuild⟩
    | unary => exact sound_unary (ih .unary) (ih .power) _ _ _ _ h
    | power => exact sound_power (ih .atom) (ih .unary) _ _ _ _ h
    | atom => exact sound_atom hsource (ih .disjunction) _ _ _ _ h

/-! ## Phrases are read -/

/-- The parser reads every phrase of a kind that comes before tokens which end it, and leaves
these. -/
def Complete (source : Source) (p : Parser α ExprId) (P : List Lexeme → Phrase → Prop)
    (ends : List Lexeme → Prop) : Prop :=
  ∀ us t, P us t → ∀ a rest, ends rest → p.run.run ⟨a, us ++ rest⟩ =
    (.ok ((t.build source).run a).1, ⟨((t.build source).run a).2, rest⟩)

variable {ends : List Lexeme → Prop} {us vs : List Lexeme} {t : Phrase} {ts : List Phrase}

theorem ends_more {separator : Token} (hsep : ∀ l rest, l.token = separator → ends (l :: rest))
    (h : More separator P us ts) (hrest : ends rest) : ends (us ++ rest) := by
  cases h with
  | nil => exact hrest
  | cons hl ht hts => exact hsep _ _ hl

theorem complete_more {separator : Token} (hitem : Complete source item P ends)
    (hsep : ∀ l rest, l.token = separator → ends (l :: rest)) (h : More separator P us ts) {n : Nat}
    (hn : ts.length ≤ n) (hrest : ends rest) (hend : ∀ l ∈ rest.head?, l.token ≠ separator) :
    (more separator item n).run.run ⟨a, us ++ rest⟩ =
      (.ok ((Phrase.buildAll source ts).run a).1, ⟨((Phrase.buildAll source ts).run a).2, rest⟩) := by
  induction h generalizing n a with
  | nil =>
    cases n with
    | zero => rfl
    | succ n =>
      unfold more
      have hpeek : rest.head?.map (·.token) ≠ some separator := by
        intro h
        obtain ⟨l, hl, htoken⟩ := Option.map_eq_some_iff.1 h
        exact hend l hl htoken
      rw [run_peek, List.nil_append, if_neg hpeek]
      rfl
  | @cons l us vs t ts hl ht hts ih =>
    cases n with
    | zero => exact absurd hn (Nat.not_succ_le_zero _)
    | succ n =>
      have hfirst := hitem us t ht a (vs ++ rest) (ends_more hsep hts hrest)
      have hrest := ih (a := ((t.build source).run a).2) (Nat.le_of_succ_le_succ hn)
      unfold more
      rw [run_peek, List.append_assoc, List.cons_append, List.head?_cons, Option.map_some, hl,
        if_pos rfl, run_advance, List.tail_cons, run_bind_of_ok hfirst, run_bind_of_ok hrest,
        Phrase.run_cons rfl rfl]
      rfl

theorem complete_separated {separator : Token} (hitem : Complete source item P ends)
    (hsep : ∀ l rest, l.token = separator → ends (l :: rest)) (ht : P us t)
    (hts : More separator P vs ts) (hrest : ends rest)
    (hend : ∀ l ∈ rest.head?, l.token ≠ separator) :
    (separated separator item).run.run ⟨a, us ++ vs ++ rest⟩ =
      (.ok ((Phrase.buildAll source (t :: ts)).run a).1,
        ⟨((Phrase.buildAll source (t :: ts)).run a).2, rest⟩) := by
  have hlength : ts.length ≤ (vs ++ rest).length := by
    rw [List.length_append]
    exact Nat.le_add_right_of_le hts.length_le
  have hfirst := hitem us t ht a (vs ++ rest) (ends_more hsep hts hrest)
  have hmore := complete_more (a := ((t.build source).run a).2) hitem hsep hts hlength hrest hend
  unfold separated
  rw [List.append_assoc, run_bind_of_ok hfirst, run_get, run_bind_of_ok hmore, Phrase.run_cons rfl rfl]
  rfl

theorem complete_joined (c : Connective) (hitem : Complete source item P ends)
    (hsep : ∀ l rest, l.token = .word c → ends (l :: rest)) :
    Complete source (do let items ← separated (.word c) item; build (Build.join c items)) (Joined c P)
      fun rest => ends rest ∧ ∀ l ∈ rest.head?, l.token ≠ .word c := by
  rintro _ _ ⟨us, vs, t, ts, rfl, rfl, ht, hts⟩ a rest ⟨hrest, hend⟩
  rw [run_bind_of_ok (complete_separated hitem hsep ht hts hrest hend), run_build,
    Phrase.run_joined c rfl]
  rfl

theorem ends_chain {ops : List ArithOp} {x : Phrase}
    (hop : ∀ l rest, ∀ op ∈ ops, l.token = .op op → ends (l :: rest)) (h : Chain ops P us x t)
    (hrest : ends rest) : ends (us ++ rest) := by
  cases h with
  | nil => exact hrest
  | cons hl hmem hy ht => exact hop _ _ _ hmem hl

theorem complete_chain {ops : List ArithOp} {x : Phrase} (hitem : Complete source item P ends)
    (hop : ∀ l rest, ∀ op ∈ ops, l.token = .op op → ends (l :: rest)) (h : Chain ops P us x t)
    {n : Nat} (hn : us.length ≤ n) (hrest : ends rest)
    (hend : ∀ l ∈ rest.head?, ∀ op ∈ ops, l.token ≠ .op op) {a₀ : Arena α}
    (hx : (x.build source).run a₀ = (e, a)) :
    (chain ops item n e).run.run ⟨a, us ++ rest⟩ =
      (.ok ((t.build source).run a₀).1, ⟨((t.build source).run a₀).2, rest⟩) := by
  induction h generalizing n a e with
  | nil =>
    rw [hx]
    cases n with
    | zero => rfl
    | succ n =>
      unfold chain
      rw [run_peek, List.nil_append]
      cases rest with
      | nil => rfl
      | cons l rest =>
        rw [List.head?_cons, Option.map_some]
        split
        · next op hl =>
          have hnot : ¬ops.contains op := fun h =>
            hend l rfl op (List.contains_iff_mem.1 h) (Option.some.inj hl)
          rw [if_neg hnot]
          rfl
        · rfl
  | @cons l us vs op x y t hl hmem hy ht ih =>
    cases n with
    | zero => exact absurd hn (by simp)
    | succ n =>
      have hfirst := hitem us y hy a (vs ++ rest) (ends_chain hop ht hrest)
      have hlength : vs.length ≤ n := by
        simp only [List.length_append, List.length_cons] at hn
        omega
      unfold chain
      rw [run_peek, List.append_assoc, List.cons_append, List.head?_cons, Option.map_some, hl]
      dsimp only
      rw [if_pos (List.contains_iff_mem.2 hmem), run_advance, List.tail_cons, run_bind_of_ok hfirst,
        run_bind_of_ok (run_build _)]
      exact ih hlength (Phrase.run_operation op hx rfl)

theorem complete_leftAssociative {ops : List ArithOp} {x : Phrase}
    (hitem : Complete source item P ends)
    (hop : ∀ l rest, ∀ op ∈ ops, l.token = .op op → ends (l :: rest)) (hx : P us x)
    (ht : Chain ops P vs x t) (hrest : ends rest)
    (hend : ∀ l ∈ rest.head?, ∀ op ∈ ops, l.token ≠ .op op) :
    (leftAssociative ops item).run.run ⟨a, us ++ vs ++ rest⟩ =
      (.ok ((t.build source).run a).1, ⟨((t.build source).run a).2, rest⟩) := by
  have hlength : vs.length ≤ (vs ++ rest).length := by simp
  have hfirst := hitem us x hx a (vs ++ rest) (ends_chain hop ht hrest)
  unfold leftAssociative
  rw [List.append_assoc, run_bind_of_ok hfirst, run_get]
  exact complete_chain hitem hop ht hlength hrest hend rfl

/-- The phrases of a level that are short enough for a depth. -/
def Within (depth : Nat) (l : Level) (us : List Lexeme) (t : Phrase) : Prop :=
  Derives l us t ∧ l.height + 8 * us.length ≤ depth

theorem complete_atom {input : ParserInput} {depth : Nat} (hsource : input.source = source)
    (hitem : Complete source item (Within depth .disjunction) (Level.Ends .disjunction))
    (ht : Derives .atom us t) (hdepth : 8 * us.length ≤ depth + 8) (hrest : Level.Ends .atom rest) :
    (atom input item).run.run ⟨a, us ++ rest⟩ =
      (.ok ((t.build source).run a).1, ⟨((t.build source).run a).2, rest⟩) := by
  have hclosing (lc : Lexeme) (rest : List Lexeme) (hlc : lc.token = .rightParen) :
      Level.Ends .disjunction (lc :: rest) := .cons (by rw [hlc]; decide)
  have hcomma (lc : Lexeme) (rest : List Lexeme) (hlc : lc.token = .comma) :
      Level.Ends .disjunction (lc :: rest) := .cons (by rw [hlc]; decide)
  unfold atom
  rw [run_get]
  cases ht with
  | @number l m hl =>
    dsimp only [List.cons_append]
    rw [hl]
    dsimp only
    rw [run_advance, run_build]
    rfl
  | @name l s hl =>
    have hpeek : rest.head?.map (·.token) ≠ some .leftParen := by
      intro h
      obtain ⟨lo, hlo, htoken⟩ := Option.map_eq_some_iff.1 h
      have := hrest lo hlo
      rw [htoken] at this
      exact absurd this (by decide)
    dsimp only [List.cons_append]
    rw [hl]
    dsimp only
    rw [run_advance, run_peek, List.tail_cons, List.nil_append, if_neg hpeek, run_build, hsource]
    rfl
  | @call l lo lc us vs s f t ts hl hf hlo ht hts harity hlc =>
    simp only [List.length_append, List.length_cons, List.length_nil] at hdepth
    have hfirst : Within depth .disjunction us t := ⟨ht, by rw [Level.height]; omega⟩
    have hmore : More .comma (Within depth .disjunction) vs ts :=
      hts.mono fun ws t hlength h => ⟨h, by rw [Level.height]; omega⟩
    have hargs := complete_separated (a := a) hitem hcomma hfirst hmore
      (hclosing lc rest hlc) fun l h => by
        cases h
        rw [hlc]
        exact Token.noConfusion
    have hcount : ((Phrase.buildAll source (t :: ts)).run a).1.length = f.arity :=
      (Phrase.length_buildAll rfl).symm.trans harity
    have hlist : l :: lo :: (us ++ vs) ++ [lc] ++ rest = l :: lo :: (us ++ vs ++ lc :: rest) := by simp
    rw [hlist]
    dsimp only
    rw [hl]
    dsimp only
    rw [run_advance, run_peek, List.tail_cons, List.head?_cons, Option.map_some, hlo, if_pos rfl, hf]
    dsimp only
    rw [run_advance, List.tail_cons, run_bind_of_ok hargs,
      run_bind_of_ok (expect_eq_ok.2 ⟨lc, rest, rfl, hlc, rfl⟩), if_pos hcount, run_build,
      Phrase.run_call f rfl]
    rfl
  | @bracketed lo lc us t hlo ht hlc =>
    simp only [List.length_append, List.length_cons, List.length_nil] at hdepth
    have hinner := hitem us t ⟨ht, by rw [Level.height]; omega⟩ a (lc :: rest) (hclosing lc rest hlc)
    have hlist : lo :: us ++ [lc] ++ rest = lo :: (us ++ lc :: rest) := by simp
    rw [hlist]
    dsimp only
    rw [hlo]
    dsimp only
    rw [run_advance, List.tail_cons, run_bind_of_ok hinner,
      run_bind_of_ok (expect_eq_ok.2 ⟨lc, rest, rfl, hlc, rfl⟩)]
    rfl

section

variable {input : ParserInput} {depth : Nat}
  (hbelow : ∀ l, Complete source (level (α := α) input depth l) (Within depth l) (Level.Ends l))

include hbelow

theorem complete_disjunction : Complete source (level (α := α) input (depth + 1) .disjunction)
    (Within (depth + 1) .disjunction) (Level.Ends .disjunction) := by
  rintro _ _ ⟨ht, hdepth⟩ a rest hrest
  cases ht with
  | @disjunction us vs t ts ht hts =>
    simp only [Level.height, List.length_append] at hdepth
    have hfirst : Within depth .conjunction us t := ⟨ht, by rw [Level.height]; omega⟩
    have hmore : More (.word .or) (Within depth .conjunction) vs ts :=
      hts.mono fun ws y hlength hy => ⟨hy, by rw [Level.height]; omega⟩
    exact complete_joined .or (hbelow .conjunction) (fun l rest hl => .cons (by rw [hl]; decide)) _ _
      ⟨us, vs, t, ts, rfl, rfl, hfirst, hmore⟩ a rest ⟨hrest.mono (by decide), hrest.ne (by decide)⟩

theorem complete_conjunction : Complete source (level (α := α) input (depth + 1) .conjunction)
    (Within (depth + 1) .conjunction) (Level.Ends .conjunction) := by
  rintro _ _ ⟨ht, hdepth⟩ a rest hrest
  cases ht with
  | @conjunction us vs t ts ht hts =>
    simp only [Level.height, List.length_append] at hdepth
    have hfirst : Within depth .comparison us t := ⟨ht, by rw [Level.height]; omega⟩
    have hmore : More (.word .and) (Within depth .comparison) vs ts :=
      hts.mono fun ws y hlength hy => ⟨hy, by rw [Level.height]; omega⟩
    exact complete_joined .and (hbelow .comparison) (fun l rest hl => .cons (by rw [hl]; decide)) _ _
      ⟨us, vs, t, ts, rfl, rfl, hfirst, hmore⟩ a rest ⟨hrest.mono (by decide), hrest.ne (by decide)⟩

theorem complete_comparison : Complete source (level (α := α) input (depth + 1) .comparison)
    (Within (depth + 1) .comparison) (Level.Ends .comparison) := by
  rintro us t ⟨ht, hdepth⟩ a rest hrest
  cases ht with
  | sides ht =>
    simp only [Level.height] at hdepth
    have hsum := hbelow .sum us t ⟨ht, by rw [Level.height]; omega⟩ a rest (hrest.mono (by decide))
    unfold level
    rw [run_bind_of_ok hsum, run_peek]
    split
    · next op hpeek =>
      obtain ⟨l, rest, rfl, htoken⟩ := exists_of_peek hpeek
      exact absurd htoken (hrest.ne (t := .compare op) (Nat.le_refl 6) l rfl)
    · rfl
  | @comparison l us vs op x y hx hl hy =>
    simp only [Level.height, List.length_append, List.length_cons] at hdepth
    have hcompare : Level.height .sum < l.token.continues := by
      simp [hl, Level.height, Token.continues]
    have hleft := hbelow .sum us x ⟨hx, by rw [Level.height]; omega⟩ a (l :: (vs ++ rest))
      (.cons hcompare)
    have hright := hbelow .sum vs y ⟨hy, by rw [Level.height]; omega⟩ ((x.build source).run a).2
      rest (hrest.mono (by decide))
    unfold level
    rw [List.append_assoc, List.cons_append, run_bind_of_ok hleft, run_peek, List.head?_cons,
      Option.map_some, hl]
    dsimp only
    rw [run_advance, List.tail_cons, run_bind_of_ok hright, run_get]
    split
    · next op' start stop rest' hrest' =>
      have hhead : rest.head? = some ⟨.compare op', start, stop⟩ := by
        rw [show rest = _ from hrest']
        rfl
      exact absurd rfl (hrest.ne (t := .compare op') (Nat.le_refl 6) _ hhead)
    · rw [run_build, Phrase.run_comparison op rfl rfl]
      rfl

theorem complete_sum : Complete source (level (α := α) input (depth + 1) .sum)
    (Within (depth + 1) .sum) (Level.Ends .sum) := by
  have hsums : ∀ op ∈ [ArithOp.add, .sub], (Token.op op).continues = 5 := by decide
  rintro _ t ⟨ht, hdepth⟩ a rest hrest
  cases ht with
  | @sum us vs x _ hx ht =>
    simp only [Level.height, List.length_append] at hdepth
    have hfirst : Within depth .product us x := ⟨hx, by rw [Level.height]; omega⟩
    have hchain : Chain [.add, .sub] (Within depth .product) vs x t :=
      ht.mono fun ws y hlength hy => ⟨hy, by rw [Level.height]; omega⟩
    refine complete_leftAssociative (hbelow .product) (fun l rest op hop hl => .cons ?_) hfirst hchain
      (hrest.mono (by decide)) fun l hl op hop => hrest.ne (Nat.le_of_eq (hsums op hop)) l hl
    rw [hl, hsums op hop]
    decide

theorem complete_product : Complete source (level (α := α) input (depth + 1) .product)
    (Within (depth + 1) .product) (Level.Ends .product) := by
  have hproducts : ∀ op ∈ [ArithOp.mul, .div], (Token.op op).continues = 4 := by decide
  rintro _ t ⟨ht, hdepth⟩ a rest hrest
  cases ht with
  | @product us vs x _ hx ht =>
    simp only [Level.height, List.length_append] at hdepth
    have hfirst : Within depth .unary us x := ⟨hx, by rw [Level.height]; omega⟩
    have hchain : Chain [.mul, .div] (Within depth .unary) vs x t :=
      ht.mono fun ws y hlength hy => ⟨hy, by rw [Level.height]; omega⟩
    refine complete_leftAssociative (hbelow .unary) (fun l rest op hop hl => .cons ?_) hfirst hchain
      (hrest.mono (by decide)) fun l hl op hop => hrest.ne (Nat.le_of_eq (hproducts op hop)) l hl
    rw [hl, hproducts op hop]
    decide

theorem complete_unary : Complete source (level (α := α) input (depth + 1) .unary)
    (Within (depth + 1) .unary) (Level.Ends .unary) := by
  rintro us t ⟨ht, hdepth⟩ a rest hrest
  cases ht with
  | @opposite l us x hl hx =>
    simp only [Level.height, List.length_cons] at hdepth
    have hoperand := hbelow .unary us x ⟨hx, by rw [Level.height]; omega⟩ a rest hrest
    unfold level
    rw [run_peek, List.cons_append, List.head?_cons, Option.map_some, hl]
    dsimp only
    rw [run_advance, List.tail_cons, run_bind_of_ok hoperand, run_build, Phrase.run_opposite rfl]
    rfl
  | @unchanged l us _ hl hx =>
    simp only [Level.height, List.length_cons] at hdepth
    have hoperand := hbelow .unary us t ⟨hx, by rw [Level.height]; omega⟩ a rest hrest
    unfold level
    rw [run_peek, List.cons_append, List.head?_cons, Option.map_some, hl]
    dsimp only
    rw [run_advance, List.tail_cons]
    exact hoperand
  | unsigned ht =>
    simp only [Level.height] at hdepth
    obtain ⟨l, us', rfl, hop⟩ := ht.head_power
    have hpower := hbelow .power _ t ⟨ht, by rw [Level.height]; omega⟩ a rest
      (hrest.mono (by decide))
    unfold level
    rw [run_peek, List.cons_append, List.head?_cons, Option.map_some]
    split
    · next h => exact absurd (Option.some.inj h) (hop _)
    · next h => exact absurd (Option.some.inj h) (hop _)
    · exact hpower

theorem complete_power : Complete source (level (α := α) input (depth + 1) .power)
    (Within (depth + 1) .power) (Level.Ends .power) := by
  rintro us t ⟨ht, hdepth⟩ a rest hrest
  cases ht with
  | base ht =>
    simp only [Level.height] at hdepth
    have hatom := hbelow .atom us t ⟨ht, by rw [Level.height]; omega⟩ a rest (hrest.mono (by decide))
    unfold level
    rw [run_bind_of_ok hatom, run_peek]
    split
    · next hpeek =>
      obtain ⟨l, rest, rfl, htoken⟩ := exists_of_peek hpeek
      exact absurd htoken (hrest.ne (by decide) l rfl)
    · rfl
  | @power l us vs x y hx hl hy =>
    simp only [Level.height, List.length_append, List.length_cons] at hdepth
    have hleft := hbelow .atom us x ⟨hx, by rw [Level.height]; omega⟩ a (l :: (vs ++ rest))
      (.cons (by rw [hl]; decide))
    have hright := hbelow .unary vs y ⟨hy, by rw [Level.height]; omega⟩
      ((x.build source).run a).2 rest hrest.exponent
    unfold level
    rw [List.append_assoc, List.cons_append, run_bind_of_ok hleft, run_peek, List.head?_cons,
      Option.map_some, hl, if_pos rfl, run_advance, List.tail_cons, run_bind_of_ok hright, run_build,
      Phrase.run_operation .pow rfl rfl]
    rfl

end

/-- Every level reads the phrases of the level that are short enough for its depth. -/
theorem complete_level {input : ParserInput} (hsource : input.source = source) (depth : Nat)
    (l : Level) :
    Complete source (level (α := α) input depth l) (Within depth l) (Level.Ends l) := by
  induction depth generalizing l with
  | zero =>
    rintro us t ⟨-, hdepth⟩
    cases l <;> simp [Level.height] at hdepth
  | succ depth ih =>
    cases l with
    | disjunction => exact complete_disjunction ih
    | conjunction => exact complete_conjunction ih
    | comparison => exact complete_comparison ih
    | sum => exact complete_sum ih
    | product => exact complete_product ih
    | unary => exact complete_unary ih
    | power => exact complete_power ih
    | atom =>
      rintro us t ⟨ht, hdepth⟩ a rest hrest
      simp only [Level.height] at hdepth
      exact complete_atom hsource (ih .disjunction) ht (by omega) hrest

/-! ## Whole texts -/

/-- A whole sequence of tokens is accepted if it is a phrase, and then what the phrase builds is
returned. -/
theorem whole_eq_ok {input : ParserInput} {tokens : List Lexeme} :
    (whole input).run.run ⟨a, tokens⟩ = (.ok e, s') ↔ s'.rest = [] ∧
      ∃ t, Derives .disjunction tokens t ∧ (t.build input.source).run a = (e, s'.arena) := by
  unfold whole
  rw [run_get]
  constructor
  · intro h
    obtain ⟨d, ⟨b, rest⟩, hd, h⟩ := run_bind_eq_ok.1 h
    obtain ⟨us, t, hus, ht, hbuild⟩ := sound_level rfl _ _ _ _ _ _ hd
    rw [run_get] at h
    cases rest with
    | cons l rest => exact absurd h not_run_unexpected
    | nil =>
      cases h
      rw [List.append_nil] at hus
      exact ⟨rfl, t, by rwa [show tokens = us from hus], hbuild⟩
  · rintro ⟨hrest, t, ht, hbuild⟩
    obtain ⟨b, rest⟩ := s'
    obtain rfl : rest = [] := hrest
    have hwithin : Within (Level.count * (tokens.length + 1)) .disjunction tokens t := by
      refine ⟨ht, ?_⟩
      rw [Level.height, Level.count]
      omega
    have hread := @complete_level α _ _ input rfl _ .disjunction tokens t hwithin a [] .nil
    rw [List.append_nil] at hread
    rw [run_bind_of_ok hread, run_get, hbuild]
    rfl

end Parser

namespace Build

variable {start stop : Nat} {a b : Arena α} {e : ExprId} {tokens : List Lexeme}

theorem parseTokens_eq_ok {input : ParserInput} :
    (parseTokens (Parser.whole input) tokens).run.run a = (.ok e, b) ↔
      ∃ t, Derives .disjunction tokens t ∧ (t.build input.source).run a = (e, b) := by
  have hrun : (parseTokens (Parser.whole input) tokens).run.run a =
      (((Parser.whole input).run.run ⟨a, tokens⟩).1, ((Parser.whole input).run.run ⟨a, tokens⟩).2.arena) :=
    rfl
  rw [hrun]
  constructor
  · intro h
    obtain ⟨hresult, rfl⟩ := Prod.mk.inj h
    exact (Parser.whole_eq_ok.1 (Prod.ext hresult rfl)).2
  · rintro ⟨t, ht, hbuild⟩
    have hwhole : (Parser.whole input).run.run ⟨a, tokens⟩ = (.ok e, ⟨b, []⟩) :=
      Parser.whole_eq_ok.2 ⟨rfl, t, ht, hbuild⟩
    rw [hwhole]

/-- What is read from a range of a text: its tokens are a phrase, which builds the result. -/
theorem parseRange_eq_ok :
    (parseRange source start stop).run.run a = (.ok e, b) ↔
      ∃ tokens t, Lexeme.scan start (Text.slice source.text.toList start stop) = .ok tokens ∧
        Derives .disjunction tokens t ∧ (t.build source).run a = (e, b) := by
  unfold parseRange
  constructor
  · intro h
    obtain ⟨tokens, a₁, hrun, h⟩ := Attempt.run_bind_eq_ok.1 h
    obtain ⟨hscan, rfl⟩ := Attempt.run_except_eq_ok.1 hrun
    obtain ⟨t, ht, hbuild⟩ := parseTokens_eq_ok.1 h
    exact ⟨tokens, t, hscan, ht, hbuild⟩
  · rintro ⟨tokens, t, hscan, ht, hbuild⟩
    exact Attempt.run_bind_eq_ok.2 ⟨tokens, a, Attempt.run_except_eq_ok.2 ⟨hscan, rfl⟩,
      parseTokens_eq_ok.2 ⟨t, ht, hbuild⟩⟩

/-- The parser accepts exactly its grammar. A text is read as an expression if and only if it splits into
tokens that are a phrase of the loosest level; and whichever way they are derived, the result is what
the constructors build along the derivation. -/
theorem parse_accepts_grammar (source : Source) (start stop : Nat) (a : Arena α) :
    ((∃ e, ((parseRange source start stop).run.run a).1 = .ok e) ↔
      ∃ tokens t, Lexeme.scan start (Text.slice source.text.toList start stop) = .ok tokens ∧
        Derives .disjunction tokens t) ∧
    ∀ tokens t, Lexeme.scan start (Text.slice source.text.toList start stop) = .ok tokens →
      Derives .disjunction tokens t → (parseRange source start stop).run.run a =
        (.ok ((t.build source).run a).1, ((t.build source).run a).2) := by
  refine ⟨⟨fun ⟨e, he⟩ => ?_, fun ⟨tokens, t, hscan, ht⟩ => ?_⟩, fun tokens t hscan ht => ?_⟩
  · obtain ⟨tokens, t, hscan, ht, -⟩ := parseRange_eq_ok.1 (Prod.ext he rfl)
    exact ⟨tokens, t, hscan, ht⟩
  · refine ⟨((t.build source).run a).1, ?_⟩
    exact congrArg Prod.fst (parseRange_eq_ok.2 ⟨tokens, t, hscan, ht, rfl⟩)
  · exact parseRange_eq_ok.2 ⟨tokens, t, hscan, ht, rfl⟩

end Build

end HybridPlan
