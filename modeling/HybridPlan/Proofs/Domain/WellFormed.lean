import HybridPlan.Proofs.Domain.RoundTrip
import HybridPlan.Proofs.Domain.Validity
import HybridPlan.Proofs.Expr.Tree
import Mathlib.Data.List.Perm.Basic

set_option autoImplicit false

/-! # Well-formed domains

The checks look at a domain piece by piece: at its names one after another, at each entry that is to
be an equation, at the equations together, and at the symbols and the shape of each expression.
Taken together they establish that a domain that was read is well-formed. -/

namespace HybridPlan

variable {α : Type} [Scalar α]

omit [Scalar α] in
/-- Formulas over some symbols are formulas over more symbols. -/
theorem Vocabulary.allows_formulas_imp {P Q : String → Prop} (h : ∀ s, P s → Q s) {n : Node α}
    (hn : (formulas α P).Allows n) : (formulas α Q).Allows n := by
  cases n with
  | sym s => exact h s hn
  | num | neg | arith | call | compare | join => exact hn

omit [Scalar α] in
/-- Arithmetic over some symbols is arithmetic over more symbols. -/
theorem Vocabulary.allows_arithmetic_imp {P Q : String → Prop} (h : ∀ s, P s → Q s) {n : Node α}
    (hn : (arithmetic α P).Allows n) : (arithmetic α Q).Allows n := by
  cases n with
  | sym s => exact h s hn
  | num | neg | arith | call | compare | join => exact hn

namespace Domain

open Build

/-! ## Well-formedness -/

/-- All names that are declared, those of constants first. -/
def names (d : Domain α) : List String :=
  d.constants.map (·.name.text) ++ d.vars.map (·.name.text)

/-- A name that has no other meaning: it is not the tolerance, no function, and no next value. -/
structure Free (name : String) : Prop where
  tolerance : name ≠ toleranceName
  function : ∀ f : Func, name ≠ f.name
  next : ∀ base, base ≠ "" → name ≠ nextName base

/-- The stored expressions. -/
def exprs (d : Domain α) : List ExprId := d.formulas.map (·.expr) ++ d.equations.map (·.rhs)

/-- The tree of an equation: the derivative of its state with respect to the duration, or the next
value of its state, equals its right-hand side. -/
def equationTree (d : Domain α) (q : Equation) : Expr α :=
  match d.mode with
  | .odes => .compare .eq (.call .dd [.sym q.state.text, .sym d.dt]) (d.arena.tree q.rhs)
  | .solutions => .compare .eq (.sym (nextName q.state.text)) (d.arena.tree q.rhs)

/-- The text at the place is read as the expression, in an arena that has grown to that of the
domain. -/
def Parses (d : Domain α) (place : Span) (e : ExprId) : Prop :=
  ∃ a b, (parseRange place.source place.start place.stop).run.run a = (.ok e, b) ∧
    a.WellFormed ∧ b ≤ d.arena

/-- A domain without conflicts between its names, with one equation for each state, and with
expressions that have a meaning where they stand. -/
structure WellFormed (d : Domain α) : Prop where
  nodup : d.names.Nodup
  free : ∀ name ∈ d.names, Free name
  bigM : ∃ c ∈ d.constants, c.name.text = bigMName
  epsilon : ∃ c ∈ d.constants, c.name.text = epsilonName
  duration : ∃ v ∈ d.vars, v.name.text = d.dt ∧ v.role = .action ∧ v.kind = .continuous ∧
    v.isGlobal = false
  states : ∀ v ∈ d.vars, v.role = .state → v.isGlobal = false
  /-- Each state has exactly one equation. -/
  equations : (d.equations.map (·.state.text)).Perm d.stateNames
  /-- Each equation is what the text at its place states. -/
  stated : ∀ q ∈ d.equations, ∃ e, d.Parses q.span e ∧ d.arena.tree e = d.equationTree q
  resolved : ∀ e ∈ d.exprs, d.arena.Uses (.formulas α fun s => ∃ r, d.resolve? s = some r) e
  /-- Goals and right-hand sides have no next values. -/
  current : ∀ e ∈ d.goals.map (·.expr) ++ d.equations.map (·.rhs),
    d.arena.Uses (.formulas α fun s => ∀ v, d.resolve? s ≠ some (.next v)) e
  arithmetic : ∀ e ∈ d.reward.expr :: d.equations.map (·.rhs),
    d.arena.Uses (.arithmetic α fun _ => True) e
  shaped : ∀ c ∈ d.initials ++ d.instantaneous ++ d.temporal ++ d.goals,
    d.arena.Shaped (.arithmetic α fun _ => True) c.expr

variable {d : Domain α}

/-! ## Names -/

theorem free_of_not_isReserved {name : String} (h : ¬isReserved name) : Free name := by
  simp only [isReserved, Bool.or_eq_true, decide_eq_true_eq, not_or, Bool.not_eq_true,
    Option.isSome_eq_false_iff, Option.isNone_iff_eq_none] at h
  obtain ⟨⟨hnext, htolerance⟩, hfunction⟩ := h
  refine ⟨htolerance, ?_, ?_⟩
  · rintro f rfl
    rw [Func.ofName?_name] at hfunction
    cases hfunction
  · rintro base hbase rfl
    rw [stateOfNext?_eq_some.2 ⟨rfl, hbase⟩] at hnext
    cases hnext

theorem names_of_checkDeclarations (h : d.checkDeclarations = .ok ()) :
    d.names.Nodup ∧ ∀ name ∈ d.names, Free name := by
  obtain ⟨⟨⟩, hnames, -⟩ := Except.bind_eq_ok.1 h
  obtain ⟨hnodup, hall⟩ := checkNames_eq_ok hnames
  have hmap : (d.constants.map (·.name) ++ d.vars.map (·.name)).map (·.text) = d.names := by
    rw [List.map_append, List.map_map, List.map_map]
    rfl
  rw [← hmap]
  refine ⟨hnodup, fun name hname => ?_⟩
  obtain ⟨n, hn, rfl⟩ := List.mem_map.1 hname
  exact free_of_not_isReserved (hall n hn).2

omit [Scalar α] in
/-- The defaults of a run are defined, whether the text defines them or not. -/
theorem exists_mem_withDefaults (settings : ReadSettings α) (constants : List (Constant α))
    {name : String} (hname : name = bigMName ∨ name = epsilonName) :
    ∃ c ∈ withDefaults settings constants, c.name.text = name := by
  by_cases hdefined : constants.any (·.name.text = name)
  · obtain ⟨c, hc, hcname⟩ := List.any_eq_true.1 hdefined
    exact ⟨c, List.mem_append_left _ hc, of_decide_eq_true hcname⟩
  · have hdefault (value : α) (hmem : (⟨⟨name, none⟩, value⟩ : Constant α) ∈
        [⟨⟨bigMName, none⟩, settings.bigM⟩, ⟨⟨epsilonName, none⟩, settings.epsilon⟩]) :
        ∃ c ∈ withDefaults settings constants, c.name.text = name :=
      ⟨_, List.mem_append_right _ (List.mem_filter.2 ⟨hmem, by simpa using hdefined⟩), rfl⟩
    rcases hname with rfl | rfl
    · exact hdefault settings.bigM (by simp)
    · exact hdefault settings.epsilon (by simp)

/-! ## Equations -/

theorem equationState_eq_ok (ha : d.arena.WellFormed) {lhs : ExprId} {entry : Span} {state : Name}
    (h : d.equationState lhs entry = .ok state) (q : Equation) (hq : q.state = state) :
    .compare .eq (d.arena.tree lhs) (d.arena.tree q.rhs) = d.equationTree q := by
  have hsym {x : ExprId} {n : Name} (hx : d.arena.symName? x = some n) :
      d.arena.tree x = .sym n.text := by
    unfold Arena.symName? Arena.sym? at hx
    split at hx
    · next s hnode =>
      cases hx
      rw [ha.tree_eq, hnode, Node.unfold]
    · cases hx
  unfold equationState at h
  unfold equationTree
  subst hq
  split at h
  · next x t hmode hnode =>
    split at h
    · next x' t' hx ht =>
      split at h
      · next hdt =>
        cases h
        rw [hmode, ha.tree_eq lhs, hnode, Node.unfold, ← hdt]
        simp only [List.map_cons, List.map_nil, hsym hx, hsym ht]
      · cases h
    · cases h
  · cases h
  · next s hmode hnode =>
    dsimp only at h
    split at h
    · next state hstate =>
      obtain ⟨rfl, -⟩ := stateOfNext?_eq_some.1 hstate
      rw [hmode, ha.tree_eq lhs, hnode, Node.unfold, ← Except.ok.inj h]
    · cases h
  · cases h

/-- The equation of an entry says what the entry says, about a state that is declared. -/
theorem states_of_equation (ha : d.arena.WellFormed) {c : Constraint} {q : Equation}
    (h : d.equation c = .ok q) :
    d.arena.tree c.expr = d.equationTree q ∧ q.state.text ∈ d.stateNames := by
  unfold equation at h
  split at h
  · next lhs rhs hnode =>
    obtain ⟨state, hstate, h⟩ := Except.bind_eq_ok.1 h
    split at h
    · next v hv =>
      split at h
      · next hrole =>
        cases h
        refine ⟨?_, ?_⟩
        · rw [ha.tree_eq, hnode, Node.unfold]
          exact equationState_eq_ok ha hstate ⟨state, rhs, c.span⟩ rfl
        · refine List.mem_map.2 ⟨v, List.mem_filter.2 ⟨mem_of_declared? hv, ?_⟩,
            name_of_declared? hv⟩
          exact decide_eq_true hrole
      · cases h
    · cases h
  · cases h

theorem checkDistinct_eq_ok {seen qs : List Equation} (h : checkDistinct seen qs = .ok ()) :
    (qs.map (·.state.text)).Nodup ∧ ∀ q ∈ qs, q.state.text ∉ seen.map (·.state.text) := by
  induction qs generalizing seen with
  | nil => simp
  | cons q qs ih =>
    unfold checkDistinct at h
    split at h
    · cases h
    · next hnone =>
      obtain ⟨hnodup, hfresh⟩ := ih h
      have hseen : q.state.text ∉ seen.map (·.state.text) := by
        intro hmem
        obtain ⟨q', hq', hstate⟩ := List.mem_map.1 hmem
        exact List.find?_eq_none.1 hnone q' hq' (decide_eq_true hstate)
      refine ⟨?_, List.forall_mem_cons.2 ⟨hseen, fun q' hq' hmem => ?_⟩⟩
      · rw [List.map_cons, List.nodup_cons]
        refine ⟨fun hmem => ?_, hnodup⟩
        obtain ⟨q', hq', hstate⟩ := List.mem_map.1 hmem
        refine hfresh q' hq' ?_
        rw [hstate, List.map_append]
        exact List.mem_append_right _ List.mem_cons_self
      · refine hfresh q' hq' ?_
        rw [List.map_append]
        exact List.mem_append_left _ hmem

/-- The equations are about the states, each about another one. -/
theorem perm_of_checkEquations (h : d.checkEquations = .ok ())
    (hvars : (d.vars.map (·.name.text)).Nodup)
    (hstates : ∀ q ∈ d.equations, q.state.text ∈ d.stateNames) :
    (d.equations.map (·.state.text)).Perm d.stateNames := by
  obtain ⟨⟨⟩, hdistinct, h⟩ := Except.bind_eq_ok.1 h
  have hnodup : d.stateNames.Nodup := hvars.sublist (List.filter_sublist.map _)
  refine (List.perm_ext_iff_of_nodup (checkDistinct_eq_ok hdistinct).1 hnodup).2 fun name => ?_
  constructor
  · intro hname
    obtain ⟨q, hq, rfl⟩ := List.mem_map.1 hname
    exact hstates q hq
  · intro hname
    obtain ⟨v, hv, rfl⟩ := List.mem_map.1 hname
    split at h
    · cases h
    · next hnone =>
      obtain ⟨q, hq⟩ : ∃ q, d.equation? v.name.text = some q :=
        Option.ne_none_iff_exists'.1 (by simpa using List.find?_eq_none.1 hnone v hv)
      unfold equation? at hq
      exact List.mem_map.2 ⟨q, List.mem_of_find?_eq_some hq, by simpa using List.find?_some hq⟩

/-! ## Expressions -/

section

variable (hd : d.MadeOf (.formulas α fun _ => True)) {position : Position}
include hd

theorem uses_of_checkConstraint {c : Constraint} (hc : c ∈ d.formulas)
    (h : d.checkConstraint position c = .ok ()) :
    d.arena.Uses (.formulas α (d.Has position)) c.expr := by
  obtain ⟨⟨⟩, hsymbols, -⟩ := Except.bind_eq_ok.1 h
  exact has_of_checkSymbols hd (hd.formulas c hc) hsymbols

/-- The symbols of every expression have a meaning where it stands. -/
theorem has_of_checkExpressions (h : d.checkExpressions = .ok ()) :
    (∀ e ∈ d.goals.map (·.expr) ++ d.equations.map (·.rhs), ∃ position, position ≠ .constraint ∧
      d.arena.Uses (.formulas α (d.Has position)) e) ∧
    ∀ e ∈ d.exprs, d.arena.Uses (.formulas α (d.Has .constraint)) e := by
  obtain ⟨⟨⟩, hconstraints, h⟩ := Except.bind_eq_ok.1 h
  obtain ⟨⟨⟩, hgoals, h⟩ := Except.bind_eq_ok.1 h
  obtain ⟨⟨⟩, hequations, hreward⟩ := Except.bind_eq_ok.1 h
  have hcurrent : ∀ e ∈ d.goals.map (·.expr) ++ d.equations.map (·.rhs), ∃ position,
      position ≠ .constraint ∧ d.arena.Uses (.formulas α (d.Has position)) e := by
    intro e he
    rcases List.mem_append.1 he with he | he
    · obtain ⟨c, hc, rfl⟩ := List.mem_map.1 he
      exact ⟨.goal, by decide, uses_of_checkConstraint hd (by simp [formulas, hc])
        (Except.forM_eq_ok.1 hgoals c hc)⟩
    · obtain ⟨q, hq, rfl⟩ := List.mem_map.1 he
      obtain ⟨⟨⟩, hsymbols, -⟩ := Except.bind_eq_ok.1 (Except.forM_eq_ok.1 hequations q hq)
      exact ⟨.dynamics, by decide, has_of_checkSymbols hd (hd.equations q hq) hsymbols⟩
  have hweaken {e : ExprId} (he : e ∈ d.goals.map (·.expr) ++ d.equations.map (·.rhs)) :
      d.arena.Uses (.formulas α (d.Has .constraint)) e := by
    obtain ⟨position, -, huses⟩ := hcurrent e he
    exact huses.imp fun n => Vocabulary.allows_formulas_imp fun s => Has.constraint
  refine ⟨hcurrent, fun e he => ?_⟩
  simp only [exprs, formulas, List.map_append, List.map_cons, List.map_nil, List.mem_append,
    List.mem_singleton] at he
  rcases he with ((he | he) | rfl) | he
  · rw [← List.mem_append, ← List.mem_append, ← List.map_append, ← List.map_append] at he
    obtain ⟨c, hc, rfl⟩ := List.mem_map.1 he
    exact uses_of_checkConstraint hd (List.mem_append_left _ (List.mem_append_left _ hc))
      (Except.forM_eq_ok.1 hconstraints c hc)
  · exact hweaken (List.mem_append_left _ he)
  · obtain ⟨⟨⟩, hsymbols, -⟩ := Except.bind_eq_ok.1 hreward
    exact has_of_checkSymbols hd (hd.formulas d.reward (by simp [formulas])) hsymbols
  · exact hweaken (List.mem_append_right _ he)

end

/-! ## Places -/

/-- What entries are read as stays in the arena. -/
theorem exists_parse_of_mem {entries : List Span} {cs : List Constraint} {a b : Arena α}
    (h : (entries.mapM readEntry).run.run a = (.ok cs, b)) (ha : a.WellFormed) {c : Constraint}
    (hc : c ∈ cs) : ∃ a' b',
      (parseRange c.span.source c.span.start c.span.stop).run.run a' = (.ok c.expr, b') ∧
        a'.WellFormed ∧ b' ≤ b := by
  have hyields (entry : Span) : Attempt.Yields (.all α) ∅ (readEntry entry) fun c => {c.expr} :=
    .bind (.adapt (yields_parseRange Vocabulary.complete_all _ _ _)) fun e =>
      .pure fun x hx => .inl hx
  induction entries generalizing a cs with
  | nil =>
    rw [List.mapM_nil] at h
    cases h
    cases hc
  | cons entry entries ih =>
    obtain ⟨c₁, cs, a₁, hentry, hrest, rfl⟩ := Attempt.run_mapM_cons_eq_ok.1 h
    obtain ⟨ha₁, -, -⟩ := (hyields entry).of_run hentry ha fun x hx => hx.elim
    rcases List.mem_cons.1 hc with rfl | hc
    · obtain ⟨-, hle, -⟩ := (Attempt.Yields.mapM fun entry _ => hyields entry).of_run hrest ha₁
        fun x hx => hx.elim
      obtain ⟨hparse, rfl⟩ := readEntry_eq_ok.1 hentry
      exact ⟨a, a₁, hparse, ha, hle⟩
    · exact ih hrest ha₁ hc

/-- The entries that are to be equations are read before all others. -/
theorem parses_of_readParts {settings : ReadSettings α} {sections : List FileSection} {b : Arena α}
    {cs : List Constraint} (h : (readParts settings sections).run.run {} = (.ok (d, cs), b))
    {c : Constraint} (hc : c ∈ cs) : d.Parses c.span c.expr := by
  obtain ⟨constants, declared, vars, initials, instantaneous, temporal, goals, rewards, reward, -,
    -, -, -, hkinds, -, rfl⟩ := readParts_eq_ok_iff.1 h
  obtain ⟨_, _, a₁, hequations, hrest, heq⟩ := Attempt.run_mapM_cons_eq_ok.1 hkinds
  cases heq
  have hyields (kind : SectionKind) :=
    yields_readEntries (C := ∅) (Vocabulary.complete_all (α := α)) sections kind
  obtain ⟨ha₁, -, -⟩ := (hyields settings.mode.equations).of_run hequations Arena.wellFormed_empty
    fun x hx => hx.elim
  obtain ⟨-, hle, -⟩ := (Attempt.Yields.mapM fun kind _ => hyields kind).of_run hrest ha₁
    fun x hx => hx.elim
  obtain ⟨a, b', hparse, ha, hb'⟩ := exists_parse_of_mem hequations Arena.wellFormed_empty hc
  exact ⟨a, b', hparse, ha, le_trans hb' hle⟩

/-! ## Domains that were read -/

theorem Valid.uses_arithmetic (h : d.Valid) : ∀ e ∈ d.reward.expr :: d.equations.map (·.rhs),
    d.arena.Uses (.arithmetic α fun _ => True) e := by
  have hweaken {position : Position} {e : ExprId} (he : d.arena.Uses (d.vocabulary position) e) :
      d.arena.Uses (.arithmetic α fun _ => True) e :=
    he.imp fun n => Vocabulary.allows_arithmetic_imp fun s _ => trivial
  intro e he
  rcases List.mem_cons.1 he with rfl | he
  · exact hweaken h.reward
  · obtain ⟨q, hq, rfl⟩ := List.mem_map.1 he
    exact hweaken (h.equations q hq)

theorem Valid.shaped_arithmetic (h : d.Valid) :
    ∀ c ∈ d.initials ++ d.instantaneous ++ d.temporal ++ d.goals,
      d.arena.Shaped (.arithmetic α fun _ => True) c.expr := by
  have hweaken {position : Position} {e : ExprId}
      (he : d.arena.Shaped (d.vocabulary position) e) :
      d.arena.Shaped (.arithmetic α fun _ => True) e :=
    he.imp fun n => Vocabulary.allows_arithmetic_imp fun s _ => trivial
  intro c hc
  simp only [List.mem_append] at hc
  rcases hc with ((hc | hc) | hc) | hc
  · exact hweaken (h.initials c hc)
  · exact hweaken (h.instantaneous c hc)
  · exact hweaken (h.temporal c hc)
  · exact hweaken (h.goals c hc)

/-- Each equation comes from an entry of its section, and is about a state. -/
theorem stated_of_read {source : Source} {settings : ReadSettings α}
    (h : read source settings = .ok d) : ∀ q ∈ d.equations,
      (∃ e, d.Parses q.span e ∧ d.arena.tree e = d.equationTree q) ∧
        q.state.text ∈ d.stateNames := by
  obtain ⟨hd, -⟩ := read_eq_ok (Vocabulary.complete_formulas fun _ _ => trivial) h
  obtain ⟨sections, d₀, entries, b, -, hparts, hvalidate⟩ := read_eq_ok_iff.1 h
  obtain ⟨-, equations, hequations, -, -, rfl⟩ := validate_eq_ok_iff.1 hvalidate
  intro q hq
  obtain ⟨c, hc, hcq⟩ := Except.exists_of_mem_mapM hequations hq
  obtain ⟨htree, hstate⟩ := states_of_equation hd.arena hcq
  exact ⟨⟨c.expr, span_of_equation hcq ▸ parses_of_readParts hparts hc, htree⟩, hstate⟩

/-- Whatever text is read as a domain with whatever settings, the domain is well-formed. -/
theorem wellFormed_of_read {source : Source} {settings : ReadSettings α}
    (h : read source settings = .ok d) : d.WellFormed := by
  have hnamed := named_of_read h
  have hvalid := valid_of_read h
  have hstated := stated_of_read h
  obtain ⟨hd, hchecked, constants, hconstants⟩ :=
    read_eq_ok (Vocabulary.complete_formulas fun _ _ => trivial) h
  obtain ⟨hnodup, hfree⟩ := names_of_checkDeclarations hchecked.declarations
  obtain ⟨hcurrent, hresolved⟩ := has_of_checkExpressions hd hchecked.expressions
  exact
    { nodup := hnodup
      free := hfree
      bigM := hconstants ▸ exists_mem_withDefaults settings constants (.inl rfl)
      epsilon := hconstants ▸ exists_mem_withDefaults settings constants (.inr rfl)
      duration := by
        obtain ⟨v, hv, hrole, hkind, hglobal⟩ := hnamed.duration
        exact ⟨v, mem_of_declared? hv, name_of_declared? hv, hrole, hkind, by simpa using hglobal⟩
      states := fun v hv hrole => by simpa using hnamed.states v hv hrole
      equations := perm_of_checkEquations hchecked.equations hnamed.nodup
        fun q hq => (hstated q hq).2
      stated := fun q hq => (hstated q hq).1
      resolved := fun e he => (hresolved e he).imp fun n =>
        Vocabulary.allows_formulas_imp fun s ⟨r, hr, _⟩ => ⟨r, hr⟩
      current := fun e he => by
        obtain ⟨position, hposition, huses⟩ := hcurrent e he
        refine huses.imp fun n => Vocabulary.allows_formulas_imp fun s ⟨r, hr, hnext⟩ v hv => ?_
        exact hposition (hnext v (Option.some.inj (hr.symm.trans hv)))
      arithmetic := hvalid.uses_arithmetic
      shaped := hvalid.shaped_arithmetic }

/-- The text of the problem in which time passes is read as a well-formed domain. -/
theorem wellFormed_of_read_waiting : ∃ d : Domain Exact,
    read (Waiting.source .le) Config.default.readSettings = .ok d ∧ d.WellFormed := by
  obtain ⟨a, c, r, hread, -⟩ := Waiting.read_source .le Config.default.readSettings rfl
  exact ⟨_, hread, wellFormed_of_read hread⟩

end Domain

end HybridPlan
