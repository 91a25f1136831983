import HybridPlan.Proofs.Domain.Validity
import HybridPlan.Proofs.Expr.Relocation

set_option autoImplicit false

/-! # Domains elsewhere

Places matter to no check of a domain but for the errors: a domain that differs from a well-formed one in
its places only is well-formed, and has the same equations. -/

namespace HybridPlan

variable {α : Type} [Scalar α]

/-! ## Parts -/

/-- The variable without the place where its name was written. -/
def Variable.bare (v : Variable) : Variable := { v with name := ⟨v.name.text, none⟩ }

theorem Variable.bare_eq_iff {v v' : Variable} : v'.bare = v.bare ↔
    v'.name.text = v.name.text ∧ v'.kind = v.kind ∧ v'.role = v.role ∧ v'.isGlobal = v.isGlobal := by
  simp [bare]

/-- The constraints are the same expression, written in the same way. -/
structure Constraint.Alike (c c' : Constraint) : Prop where
  expr : c'.expr = c.expr
  text : c'.span.text = c.span.text

/-- The equations give the same dynamics to the same state, written in the same way. -/
structure Equation.Alike (q q' : Equation) : Prop where
  state : q'.state.text = q.state.text
  rhs : q'.rhs = q.rhs
  text : q'.span.text = q.span.text

namespace Domain

/-- The domains differ in places, and in the values of constants. -/
structure Alike (d d' : Domain α) : Prop where
  arena : d.arena.Alike d'.arena
  constants : d'.constants.map (·.name.text) = d.constants.map (·.name.text)
  vars : d'.vars.map Variable.bare = d.vars.map Variable.bare
  dt : d'.dt = d.dt
  mode : d'.mode = d.mode
  equations : List.Forall₂ Equation.Alike d.equations d'.equations
  initials : List.Forall₂ Constraint.Alike d.initials d'.initials
  instantaneous : List.Forall₂ Constraint.Alike d.instantaneous d'.instantaneous
  temporal : List.Forall₂ Constraint.Alike d.temporal d'.temporal
  goals : List.Forall₂ Constraint.Alike d.goals d'.goals
  reward : d.reward.Alike d'.reward

/-- Whether a list has an item under a name. -/
theorem isSome_find? {ι : Type} (name : ι → String) (s : String) (l : List ι) :
    (l.find? (fun i => decide (name i = s))).isSome = (l.map name).contains s := by
  rw [Bool.eq_iff_iff, List.find?_isSome, List.contains_iff_mem, List.mem_map]
  simp

namespace Alike

variable {d d' : Domain α} (h : d.Alike d')
include h

/-! ## Names -/

theorem find?_vars {p : Variable → Bool} (hp : ∀ v, p v.bare = p v) :
    (d'.vars.find? p).map Variable.bare = (d.vars.find? p).map Variable.bare := by
  have hbare (vs : List Variable) : (vs.find? p).map Variable.bare = (vs.map Variable.bare).find? p := by
    rw [List.find?_map, show p ∘ Variable.bare = p from funext hp]
  rw [hbare, hbare, h.vars]

theorem declared? (name : String) :
    (d'.declared? name).map Variable.bare = (d.declared? name).map Variable.bare :=
  h.find?_vars fun _ => rfl

/-- What is declared in one domain is declared in the other one. -/
theorem exists_declared? {name : String} {v : Variable} (hv : d.declared? name = some v) :
    ∃ v', d'.declared? name = some v' ∧ v'.bare = v.bare := by
  have hdeclared := h.declared? name
  rw [hv] at hdeclared
  exact Option.map_eq_some_iff.1 hdeclared

theorem declared?_eq_none {name : String} (hv : d.declared? name = none) : d'.declared? name = none := by
  have hdeclared := h.declared? name
  rw [hv] at hdeclared
  exact Option.map_eq_none_iff.1 hdeclared

theorem isSome_constant? (name : String) : (d'.constant? name).isSome = (d.constant? name).isSome := by
  rw [constant?, constant?, Option.isSome_map, Option.isSome_map, isSome_find?, isSome_find?, h.constants]

/-- A symbol has a meaning in both domains. -/
theorem has {position : Position} {s : String} (hs : d.Has position s) : d'.Has position s := by
  obtain ⟨r, hr, hposition⟩ := hs
  unfold resolve? at hr
  unfold Has resolve?
  cases hdeclared : d.declared? s with
  | some v =>
    obtain ⟨v', hv', -⟩ := h.exists_declared? hdeclared
    exact ⟨.var v', by rw [hv'], nofun⟩
  | none =>
    rw [hdeclared] at hr
    rw [h.declared?_eq_none hdeclared]
    have hconstant := h.isSome_constant? s
    cases hvalue : d.constant? s with
    | some c =>
      rw [hvalue] at hconstant
      obtain ⟨c', hc'⟩ := Option.isSome_iff_exists.1 hconstant
      exact ⟨.constant c', by rw [hc'], nofun⟩
    | none =>
      rw [hvalue] at hconstant hr
      have hvalue' : d'.constant? s = none := by
        simpa using hconstant
      rw [hvalue']
      dsimp only at hr ⊢
      split at hr
      · next htolerance =>
        rw [if_pos htolerance]
        exact ⟨.tolerance, rfl, nofun⟩
      · next htolerance =>
        rw [if_neg htolerance]
        obtain ⟨state, hstate, hr⟩ := Option.bind_eq_some_iff.1 hr
        obtain ⟨v, hv, hr⟩ := Option.bind_eq_some_iff.1 hr
        obtain ⟨v', hv', hbare⟩ := h.exists_declared? hv
        obtain ⟨-, -, hrole, -⟩ := Variable.bare_eq_iff.1 hbare
        split at hr
        · next hisState =>
          refine ⟨.next v', ?_, fun _ _ => hposition v (Option.some.inj hr).symm⟩
          refine Option.bind_eq_some_iff.2 ⟨state, hstate, Option.bind_eq_some_iff.2 ⟨v', hv', ?_⟩⟩
          rw [if_pos (hrole.trans hisState)]
        · cases hr

/-! ## Declarations -/

omit h in
/-- The check sees the texts of names only. -/
theorem checkNames_elsewhere {seen : List String} {ns ns' : List Name}
    (hns : ns'.map (·.text) = ns.map (·.text)) (hcheck : checkNames seen ns = .ok ()) :
    checkNames seen ns' = .ok () := by
  induction ns generalizing ns' seen with
  | nil =>
    rw [List.map_eq_nil_iff.1 hns]
    rfl
  | cons n ns ih =>
    obtain ⟨n', ns', rfl, hname, hrest⟩ := List.map_eq_cons_iff.1 hns
    unfold checkNames at hcheck ⊢
    rw [hname]
    split at hcheck
    · cases hcheck
    · split at hcheck
      · cases hcheck
      · next hseen hreserved =>
        rw [if_neg hseen, if_neg hreserved]
        exact ih hrest hcheck

theorem checkDuration (hcheck : d.checkDuration = .ok ()) : d'.checkDuration = .ok () := by
  unfold Domain.checkDuration at hcheck ⊢
  rw [h.dt]
  split at hcheck
  · next v hv =>
    obtain ⟨v', hv', hbare⟩ := h.exists_declared? hv
    obtain ⟨-, hkind, hrole, hglobal⟩ := Variable.bare_eq_iff.1 hbare
    split at hcheck
    · next htype =>
      rw [hv']
      dsimp only
      rw [hrole, hkind, hglobal, if_pos htype]
    · cases hcheck
  · cases hcheck

theorem checkDeclarations (hcheck : d.checkDeclarations = .ok ()) : d'.checkDeclarations = .ok () := by
  obtain ⟨⟨⟩, hnames, hcheck⟩ := Except.bind_eq_ok.1 hcheck
  have hsame : (d'.constants.map (·.name) ++ d'.vars.map (·.name)).map (·.text) =
      (d.constants.map (·.name) ++ d.vars.map (·.name)).map (·.text) := by
    have hvars := congrArg (List.map fun v : Variable => v.name.text) h.vars
    simp only [List.map_map] at hvars
    simp only [List.map_append, List.map_map]
    exact congrArg₂ _ h.constants hvars
  refine Except.bind_eq_ok.2 ⟨(), checkNames_elsewhere hsame hnames, ?_⟩
  split at hcheck
  · cases hcheck
  · next hglobal =>
    have hfind := h.find?_vars (p := fun v => v.isGlobal && v.role = .state) fun _ => rfl
    rw [hglobal] at hfind
    rw [Option.map_eq_none_iff.1 hfind]
    exact h.checkDuration hcheck

/-! ## Equations -/

theorem symName? (e : ExprId) : (d'.arena.symName? e).map (·.text) = (d.arena.symName? e).map (·.text) := by
  simp [Arena.symName?, h.arena.sym?_eq, Function.comp_def]

theorem equationState {lhs : ExprId} {entry : Span} {state : Name}
    (hstate : d.equationState lhs entry = .ok state) (entry' : Span) :
    ∃ state', d'.equationState lhs entry' = .ok state' ∧ state'.text = state.text := by
  unfold Domain.equationState at hstate ⊢
  rw [h.mode, ← h.arena.node_eq, h.dt]
  split at hstate
  · next x t hmode hnode =>
    split at hstate
    · next u v hx ht =>
      have hx' := h.symName? x
      have ht' := h.symName? t
      rw [hx] at hx'
      rw [ht] at ht'
      obtain ⟨u', hu', htext⟩ := Option.map_eq_some_iff.1 hx'
      obtain ⟨v', hv', htime⟩ := Option.map_eq_some_iff.1 ht'
      rw [hu', hv']
      dsimp only
      rw [htime]
      split at hstate
      · next hdt =>
        cases hstate
        exact ⟨u', if_pos hdt, htext⟩
      · cases hstate
    · cases hstate
  · cases hstate
  · next s hmode hnode =>
    dsimp only at hstate ⊢
    split at hstate
    · cases hstate
      exact ⟨_, rfl, rfl⟩
    · cases hstate
  · cases hstate

theorem equation {c c' : Constraint} (hc : c.Alike c') {q : Equation} (hq : d.equation c = .ok q) :
    ∃ q', d'.equation c' = .ok q' ∧ q.Alike q' := by
  unfold Domain.equation at hq ⊢
  rw [hc.expr, ← h.arena.node_eq]
  split at hq
  · next lhs rhs hnode =>
    obtain ⟨state, hstate, hq⟩ := Except.bind_eq_ok.1 hq
    obtain ⟨state', hstate', htext⟩ := h.equationState hstate c'.span
    split at hq
    · next v hv =>
      obtain ⟨v', hv', hbare⟩ := h.exists_declared? hv
      obtain ⟨-, -, hrole, -⟩ := Variable.bare_eq_iff.1 hbare
      split at hq
      · next hisState =>
        cases hq
        refine ⟨⟨state', rhs, c'.span⟩, Except.bind_eq_ok.2 ⟨state', hstate', ?_⟩, htext, rfl, hc.text⟩
        rw [htext, hv']
        exact if_pos (hrole.trans hisState)
      · cases hq
    · cases hq
  · cases hq

omit h in
/-- The check sees the names of states only. -/
theorem checkDistinct_elsewhere {seen seen' qs qs' : List Equation}
    (hseen : List.Forall₂ Equation.Alike seen seen') (hqs : List.Forall₂ Equation.Alike qs qs')
    (hcheck : checkDistinct seen qs = .ok ()) : checkDistinct seen' qs' = .ok () := by
  induction hqs generalizing seen seen' with
  | nil => rfl
  | @cons q q' qs qs' hq hqs ih =>
    unfold checkDistinct at hcheck ⊢
    split at hcheck
    · cases hcheck
    · next hnone =>
      have hnone' : seen'.find? (·.state.text = q'.state.text) = none := by
        rw [List.find?_eq_none] at hnone ⊢
        intro p' hp'
        obtain ⟨p, hp, hpp'⟩ := exists_of_forall₂ hseen hp'
        rw [hpp'.state, hq.state]
        exact hnone p hp
      rw [hnone']
      exact ih (List.rel_append hseen (.cons hq .nil)) hcheck

/-- The states of both domains have the same names. -/
theorem exists_state {v' : Variable} (hv' : v' ∈ d'.states) :
    ∃ v ∈ d.states, v'.name.text = v.name.text := by
  obtain ⟨hmem, hrole'⟩ := List.mem_filter.1 hv'
  have hbare : v'.bare ∈ d.vars.map Variable.bare := h.vars ▸ List.mem_map_of_mem hmem
  obtain ⟨v, hv, hbare⟩ := List.mem_map.1 hbare
  obtain ⟨hname, -, hrole, -⟩ := Variable.bare_eq_iff.1 hbare
  exact ⟨v, List.mem_filter.2 ⟨hv, by rwa [hrole]⟩, hname.symm⟩

theorem isNone_equation? (state : String) :
    (d'.equation? state).isNone = (d.equation? state).isNone := by
  have hstates : d.equations.map (·.state.text) = d'.equations.map (·.state.text) :=
    map_eq_of_forall₂ h.equations fun q _ q' _ hq => hq.state.symm
  rw [← Option.not_isSome, ← Option.not_isSome, Domain.equation?, Domain.equation?, isSome_find?, isSome_find?,
    hstates]

theorem checkEquations (hcheck : d.checkEquations = .ok ()) : d'.checkEquations = .ok () := by
  obtain ⟨⟨⟩, hdistinct, hcheck⟩ := Except.bind_eq_ok.1 hcheck
  refine Except.bind_eq_ok.2 ⟨(), checkDistinct_elsewhere .nil h.equations hdistinct, ?_⟩
  split at hcheck
  · cases hcheck
  · next hnone =>
    have hnone' : d'.states.find? (fun v => (d'.equation? v.name.text).isNone) = none := by
      rw [List.find?_eq_none] at hnone ⊢
      intro v' hv'
      obtain ⟨v, hv, hbare⟩ := h.exists_state hv'
      rw [hbare, h.isNone_equation?]
      exact hnone v hv
    rw [hnone']
    rfl

/-! ## Expressions -/

theorem checkSymbols {position : Position} {e : ExprId} {entry : Span}
    (hcheck : d.checkSymbols position e entry = .ok ()) (entry' : Span) :
    d'.checkSymbols position e entry' = .ok () := by
  unfold Domain.checkSymbols at hcheck ⊢
  rw [← h.arena.symbols_eq]
  refine Except.forM_eq_ok.2 fun s hs => checkSymbol_eq_ok.2 (h.has ?_)
  exact checkSymbol_eq_ok.1 (Except.forM_eq_ok.1 hcheck s hs)

end Alike

section

variable {a a' : Arena α} {entry : Span} {e : ExprId} (h : a.Alike a') (entry' : Span)
include h

theorem checkArithmetic_elsewhere (hcheck : checkArithmetic a entry e = .ok ()) :
    checkArithmetic a' entry' e = .ok () := by
  unfold checkArithmetic at hcheck ⊢
  have hnode : a'.node = a.node := funext fun x => (h.node_eq x).symm
  rw [← h.subterms_eq, hnode]
  split at hcheck
  · cases hcheck
  · next hany => exact if_neg hany

theorem checkSides_elsewhere {x y : ExprId} (hcheck : checkSides a entry x y = .ok ()) :
    checkSides a' entry' x y = .ok () := by
  obtain ⟨⟨⟩, hx, hy⟩ := Except.bind_eq_ok.1 hcheck
  exact Except.bind_eq_ok.2
    ⟨(), checkArithmetic_elsewhere h entry' hx, checkArithmetic_elsewhere h entry' hy⟩

theorem checkDisjunct_elsewhere (hcheck : checkDisjunct a entry e = .ok ()) :
    checkDisjunct a' entry' e = .ok () := by
  unfold checkDisjunct at hcheck ⊢
  rw [← h.node_eq]
  split at hcheck
  · cases hcheck
  · exact checkSides_elsewhere h entry' hcheck
  · cases hcheck

theorem checkShapeBelow_elsewhere {n : Nat} (hcheck : checkShapeBelow a entry n e = .ok ()) :
    checkShapeBelow a' entry' n e = .ok () := by
  induction n generalizing e with
  | zero => rfl
  | succ n ih =>
    unfold checkShapeBelow at hcheck ⊢
    rw [← h.node_eq]
    split at hcheck
    · exact checkSides_elsewhere h entry' hcheck
    · exact Except.forM_eq_ok.2 fun i hi =>
        checkDisjunct_elsewhere h entry' (Except.forM_eq_ok.1 hcheck i hi)
    · exact Except.forM_eq_ok.2 fun i hi => ih (Except.forM_eq_ok.1 hcheck i hi)
    · cases hcheck

end

namespace Alike

variable {d d' : Domain α} (h : d.Alike d')
include h

theorem checkConstraint {position : Position} {c c' : Constraint} (hc : c.Alike c')
    (hcheck : d.checkConstraint position c = .ok ()) : d'.checkConstraint position c' = .ok () := by
  obtain ⟨⟨⟩, hsymbols, hshape⟩ := Except.bind_eq_ok.1 hcheck
  unfold Domain.checkConstraint
  rw [hc.expr]
  exact Except.bind_eq_ok.2
    ⟨(), h.checkSymbols hsymbols c'.span, checkShapeBelow_elsewhere h.arena c'.span hshape⟩

theorem checkFormula {position : Position} {e : ExprId} {entry : Span}
    (hcheck : d.checkFormula position e entry = .ok ()) (entry' : Span) :
    d'.checkFormula position e entry' = .ok () := by
  obtain ⟨⟨⟩, hsymbols, harithmetic⟩ := Except.bind_eq_ok.1 hcheck
  exact Except.bind_eq_ok.2
    ⟨(), h.checkSymbols hsymbols entry', checkArithmetic_elsewhere h.arena entry' harithmetic⟩

theorem checkExpressions (hcheck : d.checkExpressions = .ok ()) : d'.checkExpressions = .ok () := by
  obtain ⟨⟨⟩, hconstraints, hcheck⟩ := Except.bind_eq_ok.1 hcheck
  obtain ⟨⟨⟩, hgoals, hcheck⟩ := Except.bind_eq_ok.1 hcheck
  obtain ⟨⟨⟩, hequations, hreward⟩ := Except.bind_eq_ok.1 hcheck
  have hall := List.rel_append (List.rel_append h.initials h.instantaneous) h.temporal
  refine Except.bind_eq_ok.2 ⟨(), Except.forM_of_forall₂ hall (fun c c' hc => h.checkConstraint hc) hconstraints, ?_⟩
  refine Except.bind_eq_ok.2 ⟨(), Except.forM_of_forall₂ h.goals (fun c c' hc => h.checkConstraint hc) hgoals, ?_⟩
  refine Except.bind_eq_ok.2 ⟨(), Except.forM_of_forall₂ h.equations (fun q q' hq hcheck => ?_) hequations, ?_⟩
  · rw [hq.rhs]
    exact h.checkFormula hcheck q'.span
  · rw [h.reward.expr]
    exact h.checkFormula hreward d'.reward.span

/-! ## Domains -/

/-- With equations that are written in the same way, the other domain is as well-formed. -/
theorem validate {entries entries' : List Constraint} (hentries : List.Forall₂ Constraint.Alike entries entries')
    {e : Domain α} (he : d.validate entries = .ok e) :
    ∃ qs, d'.validate entries' = .ok { d' with equations := qs } ∧ e.Alike { d' with equations := qs } := by
  obtain ⟨hdeclarations, qs, hqs, hequations, hexpressions, rfl⟩ := validate_eq_ok_iff.1 he
  obtain ⟨qs', hqs', hsame⟩ := Except.mapM_of_forall₂ hentries (fun c c' q hc => h.equation hc) hqs
  have halike : Alike { d with equations := qs } { d' with equations := qs' } :=
    { h with equations := hsame }
  exact ⟨qs', validate_eq_ok_iff.2 ⟨h.checkDeclarations hdeclarations, qs', hqs', halike.checkEquations hequations,
    halike.checkExpressions hexpressions, rfl⟩, halike⟩

end Alike

end Domain

end HybridPlan
