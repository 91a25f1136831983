import HybridPlan.Domain.Reader
import HybridPlan.Proofs.Expr.Parser

set_option autoImplicit false

/-! # What a domain that was read is made of

All expressions of the domain are in its arena, which is well-formed, and use a vocabulary that has
whatever a text can say. -/

namespace HybridPlan

variable {α : Type} [Scalar α]

namespace Domain

open Build

/-- The constraints of all kinds, and the reward. -/
def formulas (d : Domain α) : List Constraint :=
  d.initials ++ d.instantaneous ++ d.temporal ++ d.goals ++ [d.reward]

variable {V : Vocabulary α} {C : Set ExprId}

theorem yields_readEntry (hV : V.Complete) (entry : Span) :
    Attempt.Yields V C (readEntry (α := α) entry) fun c => {x | x = c.expr} := by
  refine .bind (.adapt (yields_parseRange hV _ _ _)) fun e => .pure ?_
  rintro x rfl
  exact .inl rfl

theorem yields_readEntries (hV : V.Complete) (sections : List FileSection) (kind : SectionKind) :
    Attempt.Yields V C (readEntries (α := α) sections kind) fun cs => {x | ∃ c ∈ cs, x = c.expr} :=
  .mapM fun entry _ => yields_readEntry hV entry

theorem mem_of_onlyReward {cs : List Constraint} {c : Constraint} (h : onlyReward cs = .ok c) :
    c ∈ cs := by
  unfold onlyReward at h
  split at h <;> cases h
  exact List.mem_cons_self

/-- The sections with expressions, in the order in which they are read. -/
def expressionKinds (mode : TransitionMode) : List SectionKind :=
  [mode.equations, .initials, .instantaneous, .temporal, .goals, .reward]

/-- What the reading of the parts comes to: constants and variables are read without an arena, and then the
expressions of all sections into one arena. -/
theorem readParts_eq_ok_iff {settings : ReadSettings α} {sections : List FileSection} {a b : Arena α}
    {d : Domain α} {qs : List Constraint} : (readParts settings sections).run.run a = (.ok (d, qs), b) ↔
    ∃ constants declared vars initials instantaneous temporal goals rewards reward,
      (entries sections .constants).mapM (Declaration.readConstant settings) = .ok constants ∧
      (section? sections .declarations = some declared) ∧
      declared.entries.mapM Declaration.readVariable = .ok vars ∧
      (section? sections settings.mode.otherEquations = none) ∧
      ((expressionKinds settings.mode).mapM (readEntries sections)).run.run a =
        (.ok [qs, initials, instantaneous, temporal, goals, rewards], b) ∧
      onlyReward rewards = .ok reward ∧
      d = { arena := b, constants := withDefaults settings constants, vars, dt := settings.dt,
            mode := settings.mode, equations := [], initials, instantaneous, temporal, goals, reward } := by
  have hdeclaration {ι κ : Type} {f : ι → Except DeclarationError κ} {l : List ι} {ks : List κ} :
      l.mapM (fun i => (f i).mapError DomainError.declaration) = .ok ks ↔ l.mapM f = .ok ks := by
    simp only [Except.mapM_eq_ok, Except.mapError_eq_ok]
  unfold readParts
  constructor
  · intro h
    obtain ⟨constants, a₁, hrun, h⟩ := Attempt.run_bind_eq_ok.1 h
    obtain ⟨hconstants, rfl⟩ := Attempt.run_mapM_except_eq_ok.1 hrun
    split at h
    · next declared hdeclared =>
      obtain ⟨vars, a₁, hrun, h⟩ := Attempt.run_bind_eq_ok.1 h
      obtain ⟨hvars, rfl⟩ := Attempt.run_mapM_except_eq_ok.1 hrun
      dsimp only at h
      split at h
      · obtain ⟨_, _, h, -⟩ := Attempt.run_bind_eq_ok.1 h
        cases h
      · next hother =>
        obtain ⟨equations, a₁, h₁, h⟩ := Attempt.run_bind_eq_ok.1 h
        obtain ⟨initials, a₂, h₂, h⟩ := Attempt.run_bind_eq_ok.1 h
        obtain ⟨instantaneous, a₃, h₃, h⟩ := Attempt.run_bind_eq_ok.1 h
        obtain ⟨temporal, a₄, h₄, h⟩ := Attempt.run_bind_eq_ok.1 h
        obtain ⟨goals, a₅, h₅, h⟩ := Attempt.run_bind_eq_ok.1 h
        obtain ⟨rewards, a₆, h₆, h⟩ := Attempt.run_bind_eq_ok.1 h
        obtain ⟨reward, a₇, hrun, h⟩ := Attempt.run_bind_eq_ok.1 h
        obtain ⟨hreward, rfl⟩ := Attempt.run_except_eq_ok.1 hrun
        cases h
        refine ⟨constants, declared, vars, initials, instantaneous, temporal, goals, rewards, reward,
          hdeclaration.1 hconstants, hdeclared, hdeclaration.1 hvars, Option.eq_none_iff_forall_ne_some.2 hother,
          ?_, hreward, rfl⟩
        simp only [expressionKinds, Attempt.run_mapM_cons_eq_ok]
        exact ⟨_, _, _, h₁, ⟨_, _, _, h₂, ⟨_, _, _, h₃, ⟨_, _, _, h₄, ⟨_, _, _, h₅, ⟨_, _, _, h₆, rfl, rfl⟩, rfl⟩,
          rfl⟩, rfl⟩, rfl⟩, rfl⟩
    · cases h
  · rintro ⟨constants, declared, vars, initials, instantaneous, temporal, goals, rewards, reward, hconstants,
      hdeclared, hvars, hother, hkinds, hreward, rfl⟩
    simp only [expressionKinds, Attempt.run_mapM_cons_eq_ok] at hkinds
    obtain ⟨_, _, a₁, h₁, ⟨_, _, a₂, h₂, ⟨_, _, a₃, h₃, ⟨_, _, a₄, h₄, ⟨_, _, a₅, h₅, ⟨_, _, _, h₆, hnil, rfl⟩, rfl⟩,
      rfl⟩, rfl⟩, rfl⟩, heq⟩ := hkinds
    cases hnil
    cases heq
    refine Attempt.run_bind_eq_ok.2
      ⟨constants, a, Attempt.run_mapM_except_eq_ok.2 ⟨hdeclaration.2 hconstants, rfl⟩, ?_⟩
    rw [hdeclared]
    refine Attempt.run_bind_eq_ok.2 ⟨vars, a, Attempt.run_mapM_except_eq_ok.2 ⟨hdeclaration.2 hvars, rfl⟩, ?_⟩
    dsimp only
    rw [hother]
    refine Attempt.run_bind_eq_ok.2 ⟨_, a₁, h₁, Attempt.run_bind_eq_ok.2 ⟨_, a₂, h₂, ?_⟩⟩
    refine Attempt.run_bind_eq_ok.2 ⟨_, a₃, h₃, Attempt.run_bind_eq_ok.2 ⟨_, a₄, h₄, ?_⟩⟩
    refine Attempt.run_bind_eq_ok.2 ⟨_, a₅, h₅, Attempt.run_bind_eq_ok.2 ⟨_, _, h₆, ?_⟩⟩
    exact Attempt.run_bind_eq_ok.2 ⟨reward, _, Attempt.run_except_eq_ok.2 ⟨hreward, rfl⟩, rfl⟩

/-- The parts of a domain are read into one arena. -/
theorem readParts_eq_ok (hV : V.Complete) {settings : ReadSettings α} {sections : List FileSection}
    {a b : Arena α} {d : Domain α} {entries : List Constraint}
    (h : (readParts settings sections).run.run a = (.ok (d, entries), b)) (ha : a.WellFormed) :
    d.arena.WellFormed ∧ (∀ c ∈ entries ++ d.formulas, d.arena.Uses V c.expr) ∧
      ∃ constants, d.constants = withDefaults settings constants := by
  obtain ⟨constants, declared, vars, initials, instantaneous, temporal, goals, rewards, reward, -, -, -, -, hkinds,
    hreward, rfl⟩ := readParts_eq_ok_iff.1 h
  obtain ⟨hb, -, huses⟩ := (Attempt.Yields.mapM (C := ∅) fun kind _ =>
    yields_readEntries hV sections kind).of_run hkinds ha fun x hx => hx.elim
  refine ⟨hb, fun c hc => ?_, constants, rfl⟩
  have hread (cs : List Constraint)
      (hcs : cs ∈ [entries, initials, instantaneous, temporal, goals, rewards]) (hc : c ∈ cs) :
      b.Uses V c.expr :=
    huses _ ⟨cs, hcs, c, hc, rfl⟩
  simp only [formulas, List.mem_append, List.mem_singleton] at hc
  rcases hc with hc | (((hc | hc) | hc) | hc) | rfl
  · exact hread entries (by simp) hc
  · exact hread initials (by simp) hc
  · exact hread instantaneous (by simp) hc
  · exact hread temporal (by simp) hc
  · exact hread goals (by simp) hc
  · exact hread rewards (by simp) (mem_of_onlyReward hreward)

/-- The equation that an entry states has an operand of the entry on its right. -/
theorem equation_eq_ok {d : Domain α} {c : Constraint} {q : Equation} (h : d.equation c = .ok q) :
    q.rhs ∈ (d.arena.node c.expr).operands := by
  unfold equation at h
  split at h
  · next lhs rhs hnode =>
    rw [hnode]
    obtain ⟨state, hstate, h⟩ := Except.bind_eq_ok.1 h
    split at h
    · split at h
      · cases h
        simp [Node.operands]
      · cases h
    · cases h
  · cases h

/-- A text is read in three steps. -/
theorem read_eq_ok_iff {source : Source} {settings : ReadSettings α} {d : Domain α} :
    read source settings = .ok d ↔ ∃ sections d₀ entries b, FileSection.split source = .ok sections ∧
      (readParts settings sections).run.run {} = (.ok (d₀, entries), b) ∧ d₀.validate entries = .ok d := by
  unfold read
  rw [Except.bind_eq_ok]
  simp only [Except.mapError_eq_ok, Except.bind_eq_ok]
  constructor
  · rintro ⟨sections, hsplit, ⟨d₀, entries⟩, hparts, hvalid⟩
    exact ⟨sections, d₀, entries, _, hsplit, Prod.ext hparts rfl, hvalid⟩
  · rintro ⟨sections, d₀, entries, b, hsplit, hparts, hvalid⟩
    exact ⟨sections, hsplit, (d₀, entries), congrArg Prod.fst hparts, hvalid⟩

theorem validate_eq_ok_iff {d d' : Domain α} {entries : List Constraint} : d.validate entries = .ok d' ↔
    d.checkDeclarations = .ok () ∧ ∃ equations, entries.mapM d.equation = .ok equations ∧
      checkEquations { d with equations } = .ok () ∧ checkExpressions { d with equations } = .ok () ∧
        d' = { d with equations } := by
  unfold validate
  constructor
  · intro h
    obtain ⟨⟨⟩, hdeclarations, h⟩ := Except.bind_eq_ok.1 h
    obtain ⟨equations, hentries, h⟩ := Except.bind_eq_ok.1 h
    obtain ⟨⟨⟩, hequations, h⟩ := Except.bind_eq_ok.1 h
    obtain ⟨⟨⟩, hexpressions, h⟩ := Except.bind_eq_ok.1 h
    exact ⟨hdeclarations, equations, hentries, hequations, hexpressions, (Except.ok.inj h).symm⟩
  · rintro ⟨hdeclarations, equations, hentries, hequations, hexpressions, rfl⟩
    refine Except.bind_eq_ok.2 ⟨(), hdeclarations, Except.bind_eq_ok.2 ⟨equations, hentries, ?_⟩⟩
    exact Except.bind_eq_ok.2 ⟨(), hequations, Except.bind_eq_ok.2 ⟨(), hexpressions, rfl⟩⟩

/-- What is known of a domain that was read: its arena is well-formed, and its formulas and the
right-hand sides of its equations use a vocabulary. -/
structure MadeOf (V : Vocabulary α) (d : Domain α) : Prop where
  arena : d.arena.WellFormed
  formulas : ∀ c ∈ d.formulas, d.arena.Uses V c.expr
  equations : ∀ q ∈ d.equations, d.arena.Uses V q.rhs

/-- A domain with equations that has passed all checks. -/
structure Checked (d : Domain α) : Prop where
  declarations : d.checkDeclarations = .ok ()
  equations : d.checkEquations = .ok ()
  expressions : d.checkExpressions = .ok ()

theorem read_eq_ok (hV : V.Complete) {source : Source} {settings : ReadSettings α} {d : Domain α}
    (h : read source settings = .ok d) :
    d.MadeOf V ∧ d.Checked ∧ ∃ constants, d.constants = withDefaults settings constants := by
  obtain ⟨sections, d₀, entries, b, -, hparts, hvalid⟩ := read_eq_ok_iff.1 h
  obtain ⟨ha, hformulas, hconstants⟩ := readParts_eq_ok hV hparts Arena.wellFormed_empty
  obtain ⟨hdeclarations, equations, hequations, hequations', hexpressions, rfl⟩ := validate_eq_ok_iff.1 hvalid
  refine ⟨⟨ha, fun c hc => hformulas c (List.mem_append_right _ hc), fun q hq => ?_⟩,
    ⟨hdeclarations, hequations', hexpressions⟩, hconstants⟩
  obtain ⟨c, hc, hcq⟩ := Except.exists_of_mem_mapM hequations hq
  exact (hformulas c (List.mem_append_left _ hc)).operand (equation_eq_ok hcq)

end Domain

end HybridPlan
