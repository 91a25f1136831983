import HybridPlan.Proofs.Expr.Faults

set_option autoImplicit false

/-! # Where symbols are first written

An arena remembers one place for each symbol: where it was written when it was new. After a text has been
parsed, this is the place that it had before, or else the first one in the text. -/

namespace HybridPlan

variable {α : Type} [Scalar α]

/-! ## Tables -/

theorem Interner.isSome_find?_intern {κ : Type} [BEq κ] [Hashable κ] [LawfulBEq κ] [LawfulHashable κ]
    (t : Interner κ) (k k' : κ) :
    ((t.intern k).2.find? k').isSome ↔ k = k' ∨ (t.find? k').isSome := by
  unfold intern find?
  split
  · next i hi =>
    refine ⟨.inr, fun h => h.elim (fun h => ?_) id⟩
    rw [← h, hi]
    rfl
  · rw [Std.HashMap.getElem?_insert]
    split
    · next h => simp [eq_of_beq h]
    · next h => rw [or_iff_right fun heq => h (beq_iff_eq.2 heq)]

namespace Arena

/-- The arena remembers a place exactly for the symbols that it has. -/
def Recorded (a : Arena α) : Prop := ∀ s, (a.table.find? (.sym s)).isSome ↔ a.origins[s]?.isSome

theorem recorded_empty : Recorded ({} : Arena α) := fun s => by simp [Interner.find?]

/-- A node that is no symbol has no place. -/
theorem Recorded.intern {a : Arena α} (h : a.Recorded) {n : Node α} (hn : ∀ s, n ≠ .sym s) :
    ((Build.intern n).run a).2.Recorded ∧ ((Build.intern n).run a).2.origins = a.origins := by
  have horigins : ((Build.intern n).run a).2.origins = a.origins :=
    (Build.origins_intern a n none).resolve_right (by simp)
  refine ⟨fun s => ?_, horigins⟩
  rw [horigins, Build.table_intern, Interner.isSome_find?_intern, or_iff_right (hn s), h s]

/-- The place of a symbol is remembered if none is remembered already. -/
theorem Recorded.sym {a : Arena α} (h : a.Recorded) (s : String) (place : Span) :
    ((Build.sym ⟨s, some place⟩).run a).2.Recorded ∧
      ∀ t, ((Build.sym ⟨s, some place⟩).run a).2.origins[t]? =
        a.origins[t]?.or (if t = s then some place else none) := by
  have hplaces (t : String) : ((Build.sym ⟨s, some place⟩).run a).2.origins[t]? =
      a.origins[t]?.or (if t = s then some place else none) := by
    unfold Build.sym Build.intern
    rw [StateT.run_modifyGet]
    dsimp only
    cases hs : a.table.find? (.sym s) with
    | some e =>
      change a.origins[t]? = _
      split
      · next heq =>
        obtain ⟨known, hknown⟩ := Option.isSome_iff_exists.1 ((h s).1 (by rw [hs]; rfl))
        rw [heq, hknown, Option.some_or]
      · rw [Option.or_none]
    | none =>
      change (a.origins.insert s place)[t]? = _
      rw [Std.HashMap.getElem?_insert]
      by_cases heq : t = s
      · have hnew : a.origins[t]? = none := by
          rw [heq, ← Option.not_isSome_iff_eq_none, ← h s, hs]
          exact Bool.false_ne_true
        rw [if_pos (beq_iff_eq.2 heq.symm), if_pos heq, hnew, Option.none_or]
      · rw [if_neg (fun h => heq (beq_iff_eq.1 h).symm), if_neg heq, Option.or_none]
  refine ⟨fun t => ?_, hplaces⟩
  rw [hplaces, Option.isSome_or, Bool.or_eq_true, ← h t]
  change ((a.table.intern (.sym s)).2.find? (.sym t)).isSome ↔ _
  rw [Interner.isSome_find?_intern, or_comm, Node.sym.injEq]
  refine or_congr_right ⟨fun heq => by rw [if_pos heq.symm]; rfl, fun h => ?_⟩
  by_contra hne
  rw [if_neg (Ne.symm hne)] at h
  cases h

end Arena

/-! ## Texts -/

/-- The symbols that tokens write, each with its place. A name before a parenthesis is that of a function. -/
def Lexeme.symbols (source : Source) : List Lexeme → List (String × Span)
  | [] => []
  | l :: rest =>
    match l.token with
    | .ident name =>
      if rest.head?.map (·.token) = some .leftParen then symbols source rest
      else (name, l.span source) :: symbols source rest
    | _ => symbols source rest

theorem Lexeme.exists_of_mem_symbols {source : Source} {tokens : List Lexeme} {s : String} {place : Span}
    (h : (s, place) ∈ symbols source tokens) : ∃ l ∈ tokens, place = l.span source := by
  induction tokens with
  | nil => cases h
  | cons l rest ih =>
    have hrest (h : (s, place) ∈ symbols source rest) : ∃ k ∈ l :: rest, place = k.span source := by
      obtain ⟨k, hk, hplace⟩ := ih h
      exact ⟨k, List.mem_cons_of_mem _ hk, hplace⟩
    rw [symbols] at h
    split at h
    · split at h
      · exact hrest h
      · rcases List.mem_cons.1 h with h | h
        · exact ⟨l, List.mem_cons_self, (Prod.mk.inj h).2⟩
        · exact hrest h
    · exact hrest h

namespace Parser

/-- What is remembered is kept up with the tokens: what they are going to write is what is left. -/
theorem preserved_recorded (input : ParserInput) (places : String → Option Span) :
    Preserved (α := α) input (fun s => s.arena.Recorded ∧ ∀ t,
      s.arena.origins[t]?.or ((Lexeme.symbols input.source s.rest).lookup t) = places t) fun _ => True where
  intern := by
    rintro rest a n ⟨ha, hplaces⟩ hn
    obtain ⟨hrecorded, horigins⟩ := ha.intern hn
    exact ⟨hrecorded, fun t => by rw [horigins, hplaces]⟩
  skip := by
    rintro a l rest ⟨ha, hplaces⟩ hname
    refine ⟨ha, fun t => ?_⟩
    rw [← hplaces]
    dsimp only
    rw [Lexeme.symbols]
    split
    · next name h => exact absurd h (hname name)
    · rfl
  function := by
    rintro a l rest name ⟨ha, hplaces⟩ hname hnext
    refine ⟨ha, fun t => ?_⟩
    rw [← hplaces]
    dsimp only
    rw [Lexeme.symbols, hname]
    dsimp only
    rw [if_pos hnext]
  symbol := by
    rintro a l rest name ⟨ha, hplaces⟩ hname hnext
    obtain ⟨hrecorded, horigins⟩ := ha.sym name (l.span input.source)
    refine ⟨hrecorded, fun t => ?_⟩
    refine Eq.trans ?_ (hplaces t)
    dsimp only
    rw [Lexeme.symbols, hname]
    dsimp only
    rw [if_neg hnext, List.lookup_cons]
    refine (congrArg (Option.or · _) (horigins t)).trans ?_
    rw [Option.or_assoc]
    congr 1
    by_cases h : t = name
    · simp [h]
    · rw [if_neg h, Option.none_or, beq_eq_false_iff_ne.2 h]
  found _ _ := trivial
  ended _ := trivial

/-- Tokens are parsed from a state without any arena but the given one. -/
theorem run_of_parseTokens {p : Parser α ExprId} {tokens : List Lexeme} {a b : Arena α} {e : ExprId}
    (h : (Build.parseTokens p tokens).run.run a = (.ok e, b)) :
    ∃ s, p.run.run ⟨a, tokens⟩ = (.ok e, s) ∧ s.arena = b := by
  obtain ⟨hresult, harena⟩ := Prod.mk.inj h
  exact ⟨_, Prod.ext hresult rfl, harena⟩

end Parser

namespace Build

variable {source : Source} {start stop : Nat} {a b : Arena α} {e : ExprId}

/-- A place that was remembered stays; the others are the first ones in the text. -/
theorem origins_of_parseRange (h : (parseRange source start stop).run.run a = (.ok e, b)) (ha : a.Recorded) :
    b.Recorded ∧ ∃ tokens, Lexeme.scan start (Text.slice source.text.toList start stop) = .ok tokens ∧
      ∀ t, b.origins[t]? = a.origins[t]?.or ((Lexeme.symbols source tokens).lookup t) := by
  obtain ⟨tokens, a₁, hrun, hparse⟩ := Attempt.run_bind_eq_ok.1 h
  obtain ⟨hscan, rfl⟩ := Attempt.run_except_eq_ok.1 hrun
  obtain ⟨s, hwhole, rfl⟩ := Parser.run_of_parseTokens hparse
  obtain ⟨hrecorded, hplaces⟩ := (Parser.preserved_recorded ⟨source, start, stop⟩ fun t =>
    a.origins[t]?.or ((Lexeme.symbols source tokens).lookup t)).of_whole hwhole ⟨ha, fun _ => rfl⟩
  refine ⟨hrecorded, tokens, hscan, fun t => ?_⟩
  rw [← hplaces t, (Parser.whole_eq_ok.1 hwhole).1]
  exact Option.or_none.symm

end Build

end HybridPlan
