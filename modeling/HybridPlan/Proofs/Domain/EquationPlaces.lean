import HybridPlan.Proofs.Domain.Acceptance
import HybridPlan.Proofs.Domain.Layout
import HybridPlan.Proofs.Domain.Names
import HybridPlan.Proofs.Domain.Refusal
import HybridPlan.Proofs.Expr.Origins
import HybridPlan.Scalar.Binary64

set_option autoImplicit false

/-! # Where errors in equations point

An error about an equation points at the entry, or at a symbol. A symbol is shown where it was first written in
the equations up to the entry, which is in the entry only if no equation before it writes the symbol. -/

namespace HybridPlan

variable {α : Type} [Scalar α]

/-! ## Symbols of entries -/

namespace Span

/-- The symbols that an entry writes, each with its place; none if it has other things than tokens. -/
def symbols (entry : Span) : List (String × Span) :=
  match Lexeme.scan entry.start (Text.slice entry.source.text.toList entry.start entry.stop) with
  | .ok tokens => Lexeme.symbols entry.source tokens
  | .error _ => []

/-- The range lies in another one. -/
structure Within (s t : Span) : Prop where
  source : s.source = t.source
  start : t.start ≤ s.start
  stop : s.stop ≤ t.stop

theorem Within.refl (s : Span) : s.Within s := ⟨rfl, le_refl _, le_refl _⟩

/-- An entry writes its symbols in its own range. -/
theorem within_of_mem_symbols {entry place : Span} {s : String} (hfits : entry.Fits)
    (h : (s, place) ∈ entry.symbols) : place.Within entry ∧ place.start < place.stop := by
  obtain ⟨text, hplace, hstop⟩ := hfits
  unfold symbols at h
  rw [hstop, hplace.slice] at h
  split at h
  · next tokens hscan =>
    obtain ⟨l, hl, rfl⟩ := Lexeme.exists_of_mem_symbols h
    obtain ⟨hstart, hlt, hle⟩ :=
      ((Lexeme.covers_of_scan entry.start text).1 tokens hscan l hl).bounds
    exact ⟨⟨rfl, hstart, hstop ▸ hle⟩, hlt⟩
  · cases h

end Span

namespace Domain

open Build

/-! ## Origins -/

section

variable {entry : Span} {entries : List Span} {a b : Arena α} {c : Constraint} {cs : List Constraint}

theorem origins_of_readEntry (h : (readEntry entry).run.run a = (.ok c, b)) (ha : a.Recorded) :
    c.span = entry ∧ b.Recorded ∧ ∀ s, b.origins[s]? = a.origins[s]?.or (entry.symbols.lookup s) := by
  obtain ⟨e, a₁, hparse, h⟩ := Attempt.run_bind_eq_ok.1 h
  cases h
  obtain ⟨hrecorded, tokens, hscan, hplaces⟩ := origins_of_parseRange (Attempt.run_adapt_eq_ok.1 hparse) ha
  refine ⟨rfl, hrecorded, fun s => ?_⟩
  rw [hplaces, Span.symbols, hscan]

theorem origins_of_mapM (h : (entries.mapM readEntry).run.run a = (.ok cs, b)) (ha : a.Recorded) :
    cs.map (·.span) = entries ∧ b.Recorded ∧
      ∀ s, b.origins[s]? = a.origins[s]?.or ((entries.flatMap Span.symbols).lookup s) := by
  induction entries generalizing a cs with
  | nil =>
    cases h
    exact ⟨rfl, ha, fun s => Option.or_none.symm⟩
  | cons entry entries ih =>
    obtain ⟨c, cs, a₁, hc, hcs, rfl⟩ := Attempt.run_mapM_cons_eq_ok.1 h
    obtain ⟨rfl, ha₁, hplaces⟩ := origins_of_readEntry hc ha
    obtain ⟨hspans, hb, hplaces'⟩ := ih hcs ha₁
    refine ⟨congrArg _ hspans, hb, fun s => ?_⟩
    rw [hplaces', hplaces, Option.or_assoc, List.flatMap_cons, List.lookup_append]

/-- When an entry has been read, its expression is in the arena, with the places that the entries up to it
have given. -/
theorem exists_arena_of_mapM (h : (entries.mapM readEntry).run.run a = (.ok cs, b)) (hwell : a.WellFormed)
    (ha : a.Recorded) {front back : List Constraint} {x : Constraint} (hcs : cs = front ++ x :: back) :
    ∃ c : Arena α, c ≤ b ∧ c.WellFormed ∧ c.Recorded ∧ x.expr < c.size ∧
      ∀ s, c.origins[s]? = a.origins[s]?.or (((front ++ [x]).flatMap (·.span.symbols)).lookup s) := by
  induction entries generalizing a cs front with
  | nil =>
    cases h
    simp at hcs
  | cons entry entries ih =>
    obtain ⟨k, ks, a₁, hk, hks, rfl⟩ := Attempt.run_mapM_cons_eq_ok.1 h
    obtain ⟨rfl, ha₁, hplaces⟩ := origins_of_readEntry hk ha
    obtain ⟨hwell₁, -, huses⟩ := (yields_readEntry (C := ∅) Vocabulary.complete_all k.span).of_run hk hwell
      fun x hx => hx.elim
    cases front with
    | nil =>
      obtain ⟨rfl, rfl⟩ := List.cons.inj hcs
      obtain ⟨-, hle, -⟩ := (Attempt.Yields.mapM (C := ∅) fun entry _ =>
        yields_readEntry Vocabulary.complete_all entry).of_run hks hwell₁ fun x hx => hx.elim
      refine ⟨a₁, hle, hwell₁, ha₁, (huses k.expr rfl).lt_size, fun s => ?_⟩
      rw [hplaces, List.nil_append, List.flatMap_singleton]
    | cons y front =>
      obtain ⟨rfl, rfl⟩ := List.cons.inj hcs
      obtain ⟨c, hle, hc, hrecorded, hx, hplaces'⟩ := ih hks hwell₁ ha₁ rfl
      refine ⟨c, hle, hc, hrecorded, hx, fun s => ?_⟩
      rw [hplaces', hplaces, Option.or_assoc, List.cons_append, List.flatMap_cons, List.lookup_append]

/-- Later sections add places only. -/
theorem origins_of_kinds {sections : List FileSection} {kinds : List SectionKind} {css : List (List Constraint)}
    (h : (kinds.mapM (readEntries sections)).run.run a = (.ok css, b)) (ha : a.Recorded) {s : String}
    {place : Span} (hs : a.origins[s]? = some place) : b.origins[s]? = some place := by
  induction kinds generalizing a css with
  | nil =>
    cases h
    exact hs
  | cons kind kinds ih =>
    obtain ⟨cs, css, a₁, hcs, hcss, rfl⟩ := Attempt.run_mapM_cons_eq_ok.1 h
    obtain ⟨-, ha₁, hplaces⟩ := origins_of_mapM hcs ha
    exact ih hcss ha₁ (by rw [hplaces, hs, Option.some_or])

end

/-- The symbols of an entry's expression have the places where the equations up to the entry write them
first. -/
theorem origins_of_readParts {settings : ReadSettings α} {sections : List FileSection} {d : Domain α}
    {b : Arena α} {front back : List Constraint} {x : Constraint}
    (h : (readParts settings sections).run.run {} = (.ok (d, front ++ x :: back), b)) :
    (front ++ x :: back).map (·.span) = entries sections settings.mode.equations ∧ d.mode = settings.mode ∧
      d.arena.WellFormed ∧ ∀ y < x.expr, ∀ s, d.arena.node y = .sym s →
        ∃ place, ((front.map (·.span) ++ [x.span]).flatMap Span.symbols).lookup s = some place ∧
          d.arena.origins[s]? = some place := by
  obtain ⟨hwell, -⟩ := readParts_eq_ok Vocabulary.complete_all h Arena.wellFormed_empty
  obtain ⟨constants, declared, vars, initials, instantaneous, temporal, goals, rewards, reward, -, -, -, -,
    hkinds, -, rfl⟩ := readParts_eq_ok_iff.1 h
  obtain ⟨cs, css, a, hequations, hothers, hcs⟩ := Attempt.run_mapM_cons_eq_ok.1 hkinds
  obtain ⟨rfl, rfl⟩ := List.cons.inj hcs
  have hyields (kind : SectionKind) :=
    yields_readEntries (C := ∅) (Vocabulary.complete_all (α := α)) sections kind
  obtain ⟨hawell, -⟩ := (hyields _).of_run hequations Arena.wellFormed_empty fun x hx => hx.elim
  obtain ⟨-, hab, -⟩ :=
    (Attempt.Yields.mapM fun kind _ => hyields kind).of_run hothers hawell fun x hx => hx.elim
  obtain ⟨hspans, ha, hplaces⟩ := origins_of_mapM hequations Arena.recorded_empty
  refine ⟨hspans, rfl, hwell, fun y hy s hs => ?_⟩
  obtain ⟨c, hca, hcwell, hc, hx, hcplaces⟩ :=
    exists_arena_of_mapM hequations Arena.wellFormed_empty Arena.recorded_empty rfl
  -- the arena had the symbol when the entry had been read, and so it had a place for it
  have hlt : y < c.size := Nat.lt_trans hy hx
  have hnode : c.node y = .sym s := by rw [← Arena.node_mono (le_trans hca hab) hlt, hs]
  have hitem : c.table.items[y]? = some (.sym s) := hnode ▸ Arena.getElem?_of_lt_size hlt
  have hfound : c.table.find? (.sym s) = some y := (hcwell.table _ _).2 hitem
  obtain ⟨place, hplace⟩ := Option.isSome_iff_exists.1 ((hc s).1 (by rw [hfound]; rfl))
  have hfirst : ((front.map (·.span) ++ [x.span]).flatMap Span.symbols).lookup s = some place := by
    rw [← hplace, hcplaces, ← List.map_singleton, ← List.map_append, List.flatMap_map]
    simp
  refine ⟨place, hfirst, origins_of_kinds hothers ha ?_⟩
  rw [hplaces, ← hspans, List.map_append, List.map_cons, List.append_cons, List.flatMap_append,
    List.lookup_append, hfirst]
  simp

end Domain

/-! ## Errors in equations -/

/-- The symbol that is shown as the fault of an equation; none if the whole entry is. A state that is written as
its next value is shown as that. -/
def DomainError.offender? (mode : TransitionMode) : DomainError → Option String
  | .derivativeOf time _ => some time.text
  | .notNextValue name => some name.text
  | .undeclaredState state => some (match mode with
    | .odes => state.text
    | .solutions => nextName state.text)
  | _ => none

namespace Domain

open Build

variable {d : Domain α} {c : Constraint} {lhs : ExprId} {entry : Span} {e : DomainError}

/-- The error is shown at the given place, and nowhere else. -/
def ShownAt (e : DomainError) (place : Span) : Prop :=
  ∃ label, e.message.annotations = [⟨.primary, place, label⟩]

/-- The error is shown at a symbol of an expression, where the arena says that it is written. -/
def ShownAtSymbol (d : Domain α) (e : DomainError) (x : ExprId) : Prop :=
  ∃ s, d.arena.node x = .sym s ∧ e.offender? d.mode = some s ∧
    ShownAt e (Name.place ⟨s, d.arena.origins[s]?⟩)

theorem exists_of_symName? {a : Arena α} {x : ExprId} {n : Name} (h : a.symName? x = some n) :
    a.node x = .sym n.text ∧ n = ⟨n.text, a.origins[n.text]?⟩ := by
  obtain ⟨s, hs, rfl⟩ := Option.map_eq_some_iff.1 h
  unfold Arena.sym? at hs
  split at hs
  · next t ht =>
    cases hs
    exact ⟨ht, rfl⟩
  · cases hs

theorem shown_of_equationState_error (hd : d.arena.WellFormed) (h : d.equationState lhs entry = .error e) :
    (e.offender? d.mode = none ∧ ShownAt e entry) ∨ ∃ x ≤ lhs, ShownAtSymbol d e x := by
  unfold equationState at h
  split at h
  · next x t hmode hnode =>
    split at h
    · next x' t' hx ht =>
      split at h
      · cases h
      · cases h
        obtain ⟨hsym, hplace⟩ := exists_of_symName? ht
        refine .inr ⟨t, ?_, t'.text, hsym, rfl, ?_⟩
        · exact Nat.le_of_lt (hd.lt_of_mem_operands (by simp [hnode, Node.operands]))
        · rw [← hplace]
          exact ⟨_, rfl⟩
    · cases h
      exact .inl ⟨rfl, _, rfl⟩
  · cases h
    exact .inl ⟨rfl, _, rfl⟩
  · next s hmode hnode =>
    dsimp only at h
    split at h
    · cases h
    · cases h
      exact .inr ⟨lhs, le_refl _, s, hnode, rfl, _, rfl⟩
  · cases h
    exact .inl ⟨rfl, _, rfl⟩

theorem shown_of_equationState_ok (hd : d.arena.WellFormed) {state : Name}
    (h : d.equationState lhs entry = .ok state) : ∃ x ≤ lhs, ShownAtSymbol d (.undeclaredState state) x := by
  unfold equationState at h
  split at h
  · next x t hmode hnode =>
    split at h
    · next x' t' hx ht =>
      split at h
      · cases h
        obtain ⟨hsym, hplace⟩ := exists_of_symName? hx
        refine ⟨x, ?_, state.text, hsym, ?_, ?_⟩
        · exact Nat.le_of_lt (hd.lt_of_mem_operands (by simp [hnode, Node.operands]))
        · rw [hmode]
          rfl
        · rw [← hplace]
          exact ⟨_, rfl⟩
      · cases h
    · cases h
  · cases h
  · next s hmode hnode =>
    dsimp only at h
    split at h
    · next state' hstate =>
      cases h
      refine ⟨lhs, le_refl _, s, hnode, ?_, _, rfl⟩
      rw [hmode, (stateOfNext?_eq_some.1 hstate).1]
      rfl
    · cases h
  · cases h

/-- An error about an equation is shown at the entry or at a symbol of its expression. -/
theorem shown_of_equation_error (hd : d.arena.WellFormed) (h : d.equation c = .error e) :
    (e.offender? d.mode = none ∧ ShownAt e c.span) ∨ ∃ x < c.expr, ShownAtSymbol d e x := by
  unfold equation at h
  split at h
  · next lhs rhs hnode =>
    have hlhs : lhs < c.expr := hd.lt_of_mem_operands (by simp [hnode, Node.operands])
    rcases Except.bind_eq_error.1 h with h | ⟨state, hstate, h⟩
    · rcases shown_of_equationState_error hd h with h | ⟨x, hx, hshown⟩
      · exact .inl h
      · exact .inr ⟨x, Nat.lt_of_le_of_lt hx hlhs, hshown⟩
    · obtain ⟨x, hx, hshown⟩ := shown_of_equationState_ok hd hstate
      have heq : e = .undeclaredState state := by
        split at h
        · split at h <;> cases h
          rfl
        · cases h
          rfl
      rw [heq]
      exact .inr ⟨x, Nat.lt_of_le_of_lt hx hlhs, hshown⟩
  · cases h
    exact .inl ⟨rfl, _, rfl⟩

/-- Where an error about an equation is shown, if it is one of the entry `c` and the entries `before` are
equations. -/
structure Shown (mode : TransitionMode) (before : List Span) (c : Span) (e : DomainError) (place : Span) :
    Prop where
  annotation : ShownAt e place
  /-- An error without an offending symbol is shown at the entry. -/
  entry : e.offender? mode = none → place = c
  /-- A symbol is shown where it is first written. -/
  first : ∀ s, e.offender? mode = some s → ((before ++ [c]).flatMap Span.symbols).lookup s = some place
  /-- This is in the entry only if no equation before it writes the symbol. -/
  within_iff : place.Within c ↔ ∀ s, e.offender? mode = some s → ∀ b ∈ before, s ∉ b.symbols.map Prod.fst

/-! ## Entries of a text -/

section

variable {source : Source} {sections : List FileSection}

theorem sublist_entries (sections : List FileSection) (kind : SectionKind) :
    (entries sections kind).Sublist (sections.flatMap FileSection.spans) := by
  unfold entries
  cases h : section? sections kind with
  | none => exact List.nil_sublist _
  | some s =>
    have hmem : s.spans ∈ sections.map FileSection.spans :=
      List.mem_map_of_mem (List.mem_of_find?_eq_some h)
    exact (List.sublist_cons_self _ _).trans (List.flatMap_def ▸ List.sublist_flatten_of_mem hmem)

/-- The entries of a section are ranges of the text. -/
theorem fits_of_mem_entries (h : FileSection.split source = .ok sections) {kind : SectionKind} {c : Span}
    (hc : c ∈ entries sections kind) : c.Fits := by
  have hmem := (sublist_entries sections kind).subset hc
  rw [(FileSection.layout_of_split h).spans_eq] at hmem
  obtain ⟨x, hx, rfl⟩ := List.mem_map.1 hmem
  exact FileSection.fits_inner (Text.standsAt_of_mem_placedLines (List.mem_filter.1 hx).1)

end

/-- A symbol is shown in the last entry of some only if no entry before it writes the symbol. -/
theorem within_iff_of_lookup {before : List Span} {c place : Span} {s : String}
    (hfits : ∀ b ∈ before ++ [c], b.Fits) (hordered : ∀ b ∈ before, b.stop ≤ c.start)
    (h : ((before ++ [c]).flatMap Span.symbols).lookup s = some place) :
    place.Within c ↔ ∀ b ∈ before, s ∉ b.symbols.map Prod.fst := by
  rw [List.flatMap_append, List.lookup_append, List.flatMap_singleton] at h
  cases hbefore : (before.flatMap Span.symbols).lookup s with
  | none =>
    rw [hbefore, Option.none_or] at h
    rw [List.lookup_eq_none_iff] at hbefore
    obtain ⟨front, back, hsymbols, -⟩ := List.lookup_eq_some_iff.1 h
    refine iff_of_true ?_ fun b hb hs => ?_
    · refine (Span.within_of_mem_symbols (hfits c (by simp)) (s := s) ?_).1
      rw [hsymbols]
      simp
    · obtain ⟨p, hp, rfl⟩ := List.mem_map.1 hs
      simpa using hbefore p (List.mem_flatMap.2 ⟨b, hb, hp⟩)
  | some place' =>
    rw [hbefore, Option.some_or, Option.some.injEq] at h
    subst h
    obtain ⟨front, back, hsymbols, -⟩ := List.lookup_eq_some_iff.1 hbefore
    have hmem : (s, place') ∈ before.flatMap Span.symbols := by
      rw [hsymbols]
      simp
    obtain ⟨b, hb, hs⟩ := List.mem_flatMap.1 hmem
    obtain ⟨hwithin, hlt⟩ := Span.within_of_mem_symbols (hfits b (List.mem_append_left _ hb)) hs
    refine iff_of_false (fun hc => ?_) fun h => h b hb (List.mem_map_of_mem (f := Prod.fst) hs)
    -- the place is in an entry that ends before the last one starts
    have hstart := hc.start
    have hstop := hwithin.stop
    have hbetween := hordered b hb
    omega

/-- A text that is refused for one of its equations has an entry that states none; the error is shown at
this entry, or at the first place where it or an equation before it writes the symbol that is wrong. -/
theorem read_equation_error_shown {source : Source} {settings : ReadSettings α} {e : DomainError}
    (h : read source settings = .error e) (he : e.OfEquation) :
    ∃ sections before c after place, FileSection.split source = .ok sections ∧
      entries sections settings.mode.equations = before ++ c :: after ∧
      StopsAt settings sections before c e ∧ Shown settings.mode before c e place := by
  obtain ⟨sections, before, c, hsplit, hstops⟩ := exists_stopsAt h he
  have hstops' := hstops
  obtain ⟨d, a, front, x, back, hparts, -, -, hx, rfl, rfl⟩ := hstops'
  obtain ⟨hspans, hmode, hwell, horigins⟩ := origins_of_readParts hparts
  rw [List.map_append, List.map_cons] at hspans
  have hshown := shown_of_equation_error hwell hx
  simp only [ShownAtSymbol, hmode] at hshown
  have hordered := (FileSection.layout_of_split hsplit).ordered.sublist
    (sublist_entries sections settings.mode.equations)
  rw [← hspans] at hordered
  rcases hshown with ⟨hnone, hshown⟩ | ⟨y, hy, s, hsym, hsome, hshown⟩
  · refine ⟨sections, _, _, _, x.span, hsplit, hspans.symm, hstops, hshown, fun _ => rfl, ?_, ?_⟩
    · intro s hs
      rw [hnone] at hs
      cases hs
    · refine iff_of_true (.refl _) fun s hs => ?_
      rw [hnone] at hs
      cases hs
  · obtain ⟨place, hfirst, horigin⟩ := horigins y hy s hsym
    rw [horigin] at hshown
    refine ⟨sections, _, _, _, place, hsplit, hspans.symm, hstops, hshown, fun h => ?_, fun t ht => ?_, ?_⟩
    · rw [hsome] at h
      cases h
    · rw [hsome] at ht
      cases ht
      exact hfirst
    · have hentries : ∀ b ∈ front.map (·.span) ++ [x.span], b.Fits := fun b hb => by
        have hmem : b ∈ entries sections settings.mode.equations := by
          rw [← hspans, List.append_cons]
          exact List.mem_append_left _ hb
        exact fits_of_mem_entries hsplit hmem
      have hbefore : ∀ b ∈ front.map (·.span), b.stop ≤ x.span.start := fun b hb =>
        (List.pairwise_append.1 hordered).2.2 b hb _ List.mem_cons_self
      rw [within_iff_of_lookup hentries hbefore hfirst]
      simp [hsome]

/-! ### An error that is shown in an earlier entry -/

namespace Backdated

/-- The second equation is about `x`, which the first one has written on its right. -/
def source : Source where
  text := "pvariables:\naction_continuous: Dt\nstate_continuous: x\n---\ntransitions:\n" ++
    "x_dash == x\nx == Dt\n---\nreward:\nDt"

def equation₁ : Span := ⟨source, 71, 82⟩

def equation₂ : Span := ⟨source, 83, 90⟩

def earning : Span := ⟨source, 103, 105⟩

def sections : List FileSection :=
  [⟨.declarations, ⟨source, 0, 11⟩, [⟨source, 12, 33⟩, ⟨source, 34, 53⟩]⟩,
   ⟨.transitions, ⟨source, 58, 70⟩, [equation₁, equation₂]⟩,
   ⟨.reward, ⟨source, 95, 102⟩, [earning]⟩]

def vars : List Variable :=
  [⟨⟨"Dt", some ⟨source, 31, 33⟩⟩, .continuous, .action, false⟩,
   ⟨⟨"x", some ⟨source, 52, 53⟩⟩, .continuous, .state, false⟩]

set_option maxRecDepth 2000 in
theorem split_source : FileSection.split source = .ok sections := (rfl)

set_option maxRecDepth 2000 in
theorem readVariables : [⟨source, 12, 33⟩, ⟨source, 34, 53⟩].mapM Declaration.readVariable = .ok vars := rfl

set_option maxRecDepth 2000 in
theorem scan_equation₁ : Lexeme.scan equation₁.start
    (Text.slice equation₁.source.text.toList equation₁.start equation₁.stop) =
      .ok [⟨.ident "x_dash", 71, 77⟩, ⟨.compare .eq, 78, 80⟩, ⟨.ident "x", 81, 82⟩] := by
  have hslice : Text.slice equation₁.source.text.toList equation₁.start equation₁.stop =
      "x_dash == x".toList := rfl
  rw [hslice]
  simp [Lexeme.scan, Token.isSpace, Token.first, Token.isNumberChar, Token.isWordStart, Token.isWordChar,
    Token.ofWord]
  decide

set_option maxRecDepth 2000 in
theorem scan_equation₂ : Lexeme.scan equation₂.start
    (Text.slice equation₂.source.text.toList equation₂.start equation₂.stop) =
      .ok [⟨.ident "x", 83, 84⟩, ⟨.compare .eq, 85, 87⟩, ⟨.ident "Dt", 88, 90⟩] := by
  have hslice : Text.slice equation₂.source.text.toList equation₂.start equation₂.stop =
      "x == Dt".toList := rfl
  rw [hslice]
  simp [Lexeme.scan, Token.isSpace, Token.first, Token.isNumberChar, Token.isWordStart, Token.isWordChar,
    Token.ofWord]
  decide

set_option maxRecDepth 2000 in
theorem scan_earning : Lexeme.scan earning.start
    (Text.slice earning.source.text.toList earning.start earning.stop) =
      .ok [⟨.ident "Dt", 103, 105⟩] := by
  have hslice : Text.slice earning.source.text.toList earning.start earning.stop = "Dt".toList := rfl
  rw [hslice]
  simp [Lexeme.scan, Token.isSpace, Token.first, Token.isNumberChar, Token.isWordStart, Token.isWordChar,
    Token.ofWord]
  decide

def settings : ReadSettings Binary64 := ⟨Scalar.one, Scalar.one, Scalar.one, "Dt", .solutions⟩

/-- The constraint is an equation between two symbols. -/
def Equates (s t : String) (a : Arena Binary64) (c : Constraint) : Prop :=
  ∃ x y, a.table.items[c.expr]? = some (.compare .eq x y) ∧ a.table.items[x]? = some (.sym s) ∧
    a.table.items[y]? = some (.sym t)

theorem Equates.mono {s t : String} {a b : Arena Binary64} {c : Constraint} (h : Equates s t a c) (hab : a ≤ b) :
    Equates s t b c := by
  obtain ⟨x, y, he, hx, hy⟩ := h
  exact ⟨x, y, hab he, hab hx, hab hy⟩

theorem leads_equation {a : Arena Binary64} (ha : a.WellFormed) (entry : Span) {s t : String}
    {i j k l i' j' : Nat} (hscan : Lexeme.scan entry.start
      (Text.slice entry.source.text.toList entry.start entry.stop) =
        .ok [⟨.ident s, i, j⟩, ⟨.compare .eq, k, l⟩, ⟨.ident t, i', j'⟩]) :
    (readEntry entry).Leads a (Equates s t) :=
  leads_readEntry_equation ha entry hscan

/-- The domain before its equations are made. -/
def domain (a : Arena Binary64) (r : Constraint) : Domain Binary64 where
  arena := a
  constants := withDefaults settings []
  vars := vars
  dt := "Dt"
  mode := .solutions
  equations := []
  initials := []
  instantaneous := []
  temporal := []
  goals := []
  reward := r

/-- The first equation is one, the second is not. -/
theorem exists_readParts : ∃ a c₁ c₂ r q origin,
    (readParts settings sections).run.run {} = (.ok (domain a r, [c₁, c₂]), a) ∧
      (domain a r).equation c₁ = .ok q ∧
      (domain a r).equation c₂ = .error (.notNextValue ⟨"x", origin⟩) := by
  obtain ⟨c₁, a₁, hrun₁, ha₁, -, hc₁⟩ := leads_equation Arena.wellFormed_empty equation₁ scan_equation₁
  obtain ⟨c₂, a₂, hrun₂, ha₂, hle₂, hc₂⟩ := leads_equation ha₁ equation₂ scan_equation₂
  obtain ⟨r, a, hrun, -, hle, -⟩ := leads_readEntry (P := fun b e => b.table.items[e]? = some (.sym "Dt"))
    scan_earning (.of_build (parseTokens_symbol _ _ _ _) (leads_sym (α := Binary64) ha₂ _))
  have hmissing (kind : SectionKind) (h : entries sections kind = []) (a : Arena Binary64) :
      (readEntries sections kind).run.run a = (.ok [], a) := by
    rw [readEntries, h]
    rfl
  have hequations : (readEntries sections .transitions).run.run {} = (.ok [c₁, c₂], a₂) := by
    refine Attempt.run_mapM_cons_eq_ok.2 ⟨c₁, [c₂], a₁, hrun₁, ?_, rfl⟩
    exact Attempt.run_mapM_cons_eq_ok.2 ⟨c₂, [], a₂, hrun₂, rfl, rfl⟩
  have hreward : (readEntries sections .reward).run.run a₂ = (.ok [r], a) :=
    Attempt.run_mapM_cons_eq_ok.2 ⟨r, [], a, hrun, rfl, rfl⟩
  have hparts : (readParts settings sections).run.run {} = (.ok (domain a r, [c₁, c₂]), a) := by
    refine readParts_eq_ok_iff.2 ⟨[], ⟨.declarations, ⟨source, 0, 11⟩, _⟩, vars, [], [], [], [], [r], r,
      rfl, rfl, readVariables, rfl, ?_, rfl, rfl⟩
    simp only [expressionKinds, Attempt.run_mapM_cons_eq_ok]
    exact ⟨_, _, _, hequations, ⟨_, _, _, hmissing _ rfl _, ⟨_, _, _, hmissing _ rfl _,
      ⟨_, _, _, hmissing _ rfl _, ⟨_, _, _, hmissing _ rfl _, ⟨_, _, _, hreward, rfl, rfl⟩, rfl⟩, rfl⟩, rfl⟩,
      rfl⟩, rfl⟩
  obtain ⟨x₁, y₁, he₁, hx₁, -⟩ := hc₁.mono (le_trans hle₂ hle)
  obtain ⟨x₂, y₂, he₂, hx₂, -⟩ := hc₂.mono hle
  have hfirst : ∃ q, (domain a r).equation c₁ = .ok q := by
    unfold equation equationState
    rw [show (domain a r).arena = a from rfl, Arena.node_eq_of_getElem? he₁]
    dsimp only
    rw [Arena.node_eq_of_getElem? hx₁]
    exact ⟨_, rfl⟩
  have hsecond : (domain a r).equation c₂ = .error (.notNextValue ⟨"x", a.origins["x"]?⟩) := by
    unfold equation equationState
    rw [show (domain a r).arena = a from rfl, Arena.node_eq_of_getElem? he₂]
    dsimp only
    rw [Arena.node_eq_of_getElem? hx₂]
    rfl
  obtain ⟨q, hfirst⟩ := hfirst
  exact ⟨a, c₁, c₂, r, q, _, hparts, hfirst, hsecond⟩

theorem checkDeclarations_domain (a : Arena Binary64) (r : Constraint) :
    (domain a r).checkDeclarations = .ok () := by
  refine Except.bind_eq_ok.2 ⟨(), ?_, rfl⟩
  change checkNames [] [⟨"bigM", none⟩, ⟨"Epsilon", none⟩, ⟨"Dt", _⟩, ⟨"x", _⟩] = _
  have hbigM : isReserved "bigM" = false := by decide
  have hepsilon : isReserved "Epsilon" = false := by decide
  have hduration : isReserved "Dt" = false := by decide
  have hstate : isReserved "x" = false := by decide
  simp [checkNames, hbigM, hepsilon, hduration, hstate]

/-- The text is refused for its second equation. -/
theorem exists_error : ∃ origin, read source settings = .error (.notNextValue ⟨"x", origin⟩) := by
  obtain ⟨a, c₁, c₂, r, q, origin, hparts, hfirst, hsecond⟩ := exists_readParts
  refine ⟨origin, ?_⟩
  refine Except.bind_eq_error.2 (.inr ⟨sections, Except.mapError_eq_ok.2 split_source, ?_⟩)
  refine Except.bind_eq_error.2 (.inr ⟨(domain a r, [c₁, c₂]), congrArg Prod.fst hparts, ?_⟩)
  refine Except.bind_eq_error.2 (.inr ⟨(), checkDeclarations_domain a r, ?_⟩)
  refine Except.bind_eq_error.2 (.inl ?_)
  rw [List.mapM_cons]
  refine Except.bind_eq_error.2 (.inr ⟨q, hfirst, Except.bind_eq_error.2 (.inl ?_)⟩)
  rw [List.mapM_cons]
  exact Except.bind_eq_error.2 (.inl hsecond)

/-- What stands before the entry that it is refused for is the first equation. -/
theorem before_eq {before after : List Span} {c : Span} {e : DomainError}
    (hentries : entries sections .transitions = before ++ c :: after)
    (h : StopsAt settings sections before c e) : before = [equation₁] := by
  obtain ⟨a, c₁, c₂, r, q, origin, hparts, hfirst, hsecond⟩ := exists_readParts
  obtain ⟨d, b, front, x, back, hparts', -, -, hx, rfl, rfl⟩ := h
  obtain ⟨hresult, -⟩ := Prod.mk.inj (hparts.symm.trans hparts')
  obtain ⟨rfl, hentries'⟩ := Prod.mk.inj (Except.ok.inj hresult)
  cases front with
  | nil =>
    obtain ⟨rfl, -⟩ := List.cons.inj hentries'
    rw [hfirst] at hx
    cases hx
  | cons y front =>
    obtain ⟨rfl, hentries'⟩ := List.cons.inj hentries'
    cases front with
    | nil => exact congrArg (fun l => [l]) (List.cons.inj hentries).1.symm
    | cons z front => simp at hentries'

theorem mem_symbols_equation₁ : "x" ∈ equation₁.symbols.map Prod.fst := by
  rw [Span.symbols, scan_equation₁]
  decide

end Backdated

theorem read_equation_error_backdated : ∃ e, read Backdated.source Backdated.settings = .error e ∧
    e.OfEquation ∧ ∃ sections before c after place, FileSection.split Backdated.source = .ok sections ∧
      entries sections Backdated.settings.mode.equations = before ++ c :: after ∧
      StopsAt Backdated.settings sections before c e ∧
      Shown Backdated.settings.mode before c e place ∧ ¬place.Within c := by
  obtain ⟨origin, hread⟩ := Backdated.exists_error
  obtain ⟨sections, before, c, after, place, hsplit, hentries, hstops, hshown⟩ :=
    read_equation_error_shown hread rfl
  refine ⟨_, hread, rfl, sections, before, c, after, place, hsplit, hentries, hstops, hshown, fun h => ?_⟩
  obtain rfl := Except.ok.inj (hsplit.symm.trans Backdated.split_source)
  obtain rfl := Backdated.before_eq hentries hstops
  exact hshown.within_iff.1 h "x" rfl _ List.mem_cons_self Backdated.mem_symbols_equation₁

end Domain

end HybridPlan
