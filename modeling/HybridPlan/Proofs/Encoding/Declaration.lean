import HybridPlan.Proofs.Encoding.Growth

set_option autoImplicit false

/-! # Declared variables

The variables of a program before its rows are stated, in their order: the global ones, the states
of each boundary, and for each stage its decisions and what it earns. -/

namespace HybridPlan

variable {α : Type} [Scalar α]

namespace Encoding

/-! ## The list of variables -/

/-- The variable of the program for a declared variable. -/
def declared (p : Problem α) (v : Variable) (name : String) : ProgramVar α :=
  Program.newVar name (varBounds p v).1 (varBounds p v).2.1 (varBounds p v).2.2

/-- The variables of globals. -/
def globalVars (p : Problem α) : List (ProgramVar α) :=
  (p.domain.vars.filter (·.isGlobal)).map fun v => declared p v v.name.text

/-- The states of a boundary. -/
def boundaryVars (p : Problem α) (t : Nat) : List (ProgramVar α) :=
  p.domain.states.map fun v => declared p v (stageVar v.name.text t)

/-- What a stage earns. -/
def earned (t : Nat) : ProgramVar α :=
  Program.newVar (rewardVar t) .continuous (-Scalar.infinity) Scalar.infinity

/-- The decisions of a stage, and what it earns. -/
def stageVars (p : Problem α) (t : Nat) : List (ProgramVar α) :=
  ((p.domain.decisions.filter (!·.isGlobal)).map fun v =>
    declared p v (stageVar v.name.text t)) ++ [earned t]

/-- The variables of a plan with the given number of stages. -/
def planVars (p : Problem α) (horizon : Nat) : List (ProgramVar α) :=
  globalVars p ++ (List.range (horizon + 1)).flatMap (boundaryVars p) ++
    (List.range horizon).flatMap (stageVars p)

/-! ## Their declaration -/

/-- The state with further variables, and nothing else. -/
structure State.Declares (vs : List (ProgramVar α)) (s s' : State α) : Prop where
  wellFormed : s'.WellFormed
  vars : s'.program.vars.toList = s.program.vars.toList ++ vs
  terms : s'.program.terms = s.program.terms
  rows : s'.program.rows = s.program.rows
  known : s'.known = s.known

namespace State.Declares

variable {vs ws : List (ProgramVar α)} {s s₁ s' : State α}

theorem refl (hs : s.WellFormed) : s.Declares [] s := ⟨hs, by simp, rfl, rfl, rfl⟩

theorem trans (h : s.Declares vs s₁) (h' : s₁.Declares ws s') : s.Declares (vs ++ ws) s' :=
  ⟨h'.wellFormed, by rw [h'.vars, h.vars, List.append_assoc], h'.terms.trans h.terms,
    h'.rows.trans h.rows, h'.known.trans h.known⟩

/-- Names keep their variables. -/
theorem varOf? (h : s.Declares vs s') (hs : s.WellFormed) {name : String} {v : VarId}
    (hv : s.program.varOf? name = some v) : s'.program.varOf? name = some v := by
  obtain ⟨x, hx, hname⟩ := (hs.program.index name v).1 hv
  refine (h.wellFormed.program.index name v).2 ⟨x, ?_, hname⟩
  rw [← Array.getElem?_toList] at hx ⊢
  rw [h.vars, List.getElem?_append_left (List.getElem?_eq_some_iff.1 hx).1, hx]

theorem of_addVar (hs : s.WellFormed) {name : String} {domain : VarDomain} {lower upper : α}
    {v : VarId} (h : (extend (Program.addVar name domain lower upper)).run s = .ok (v, s')) :
    s.Declares [Program.newVar name domain lower upper] s' := by
  obtain ⟨hname, -, -, rfl⟩ := addVar_eq_ok.1 h
  exact ⟨⟨hs.program.withVar hname, hs.known⟩, Array.toList_push, rfl, rfl, rfl⟩

theorem steps {ι : Type} {Q : ι → State α → State α → Prop} {l : List ι}
    {vs : ι → List (ProgramVar α)} (hs : s.WellFormed) (h : Steps Q l s s')
    (hQ : ∀ i ∈ l, ∀ s s', Q i s s' → s.WellFormed → s.Declares (vs i) s') :
    s.Declares (l.flatMap vs) s' := by
  induction h with
  | nil => exact .refl hs
  | cons h _ ih =>
    have h := hQ _ List.mem_cons_self _ _ h hs
    rw [List.flatMap_cons]
    exact h.trans (ih h.wellFormed fun i hi => hQ i (List.mem_cons_of_mem _ hi))

/-- A loop that declares variables. -/
theorem of_for {p : Problem α} {l : List Variable} {f : Variable → String} {u : PUnit}
    (hs : s.WellFormed)
    (h : (forIn l PUnit.unit fun v _ => do
      let _ ← declare p v (f v)
      pure (ForInStep.yield PUnit.unit)).run s = .ok (u, s')) :
    s.Declares (l.map fun v => declared p v (f v)) s' := by
  have hsteps : Steps (fun v s s' => ∃ i, (declare p v (f v)).run s = .ok (i, s')) l s s' := by
    refine for_eq_ok (fun v _ s r s' hr => ?_) h
    obtain ⟨i, s₁, hi, hr⟩ := run_bind_eq_ok.1 hr
    obtain ⟨rfl, rfl⟩ := run_pure_eq_ok.1 hr
    exact ⟨rfl, i, hi⟩
  rw [← List.flatMap_singleton' l, List.map_flatMap]
  exact .steps hs hsteps fun v _ s s' ⟨i, hi⟩ hs => of_addVar hs hi

end State.Declares

/-- The term of the objective for a stage. -/
def IsEarned (s : State α) (t : Nat) (x : VarId × α) : Prop :=
  s.program.varOf? (rewardVar t) = some x.1 ∧ x.2 = Scalar.one

theorem IsEarned.declares {vs : List (ProgramVar α)} {s s' : State α} {t : Nat} {x : VarId × α}
    (h : IsEarned s t x) (hs : s.WellFormed) (hd : s.Declares vs s') : IsEarned s' t x :=
  ⟨hd.varOf? hs h.1, h.2⟩

/-- The declarations of a stage; the result is its term of the objective. -/
def declareStage (p : Problem α) (t : Nat) : Encode α (VarId × α) := do
  for v in p.domain.decisions.filter (!·.isGlobal) do
    let _ ← declare p v (stageVar v.name.text t)
  let reward ← extend
    (Program.addVar (rewardVar t) .continuous (-Scalar.infinity) Scalar.infinity)
  return (reward, Scalar.one)

variable {p : Problem α} {s s' : State α}

theorem declareStage_eq_ok {t : Nat} {x : VarId × α}
    (h : (declareStage p t).run s = .ok (x, s')) (hs : s.WellFormed) :
    s.Declares (stageVars p t) s' ∧ IsEarned s' t x := by
  obtain ⟨⟨⟩, s₁, h₁, h⟩ := run_bind_eq_ok.1 h
  obtain ⟨v, s₂, h₂, h⟩ := run_bind_eq_ok.1 h
  obtain ⟨rfl, rfl⟩ := run_pure_eq_ok.1 h
  have hdecisions := State.Declares.of_for (f := fun v => stageVar v.name.text t) hs h₁
  have hearned := State.Declares.of_addVar hdecisions.wellFormed h₂
  refine ⟨hdecisions.trans hearned, ?_, rfl⟩
  obtain ⟨-, -, rfl, rfl⟩ := addVar_eq_ok.1 h₂
  exact (hearned.wellFormed.program.index _ _).2 ⟨_, Array.getElem?_push_size, rfl⟩

theorem declareStages_eq_ok {l : List Nat} {objective : List (VarId × α)}
    (h : (l.mapM (declareStage p)).run s = .ok (objective, s')) (hs : s.WellFormed) :
    s.Declares (l.flatMap (stageVars p)) s' ∧ List.Forall₂ (IsEarned s') l objective := by
  induction l generalizing s objective with
  | nil =>
    rw [List.mapM_nil] at h
    obtain ⟨rfl, rfl⟩ := run_pure_eq_ok.1 h
    exact ⟨.refl hs, .nil⟩
  | cons t l ih =>
    rw [List.mapM_cons] at h
    obtain ⟨x, s₁, hx, h⟩ := run_bind_eq_ok.1 h
    obtain ⟨xs, s₂, hxs, h⟩ := run_bind_eq_ok.1 h
    obtain ⟨rfl, rfl⟩ := run_pure_eq_ok.1 h
    obtain ⟨hstage, hearned⟩ := declareStage_eq_ok hx hs
    obtain ⟨hstages, hearnings⟩ := ih hxs hstage.wellFormed
    rw [List.flatMap_cons]
    exact ⟨hstage.trans hstages, .cons (hearned.declares hstage.wellFormed hstages) hearnings⟩

/-- All variables of a plan are declared, and the objective adds up what the stages earn. -/
theorem declareAll_eq_ok {horizon : Nat} {objective : List (VarId × α)}
    (h : (declareAll p horizon).run s = .ok (objective, s')) (hs : s.WellFormed) :
    s.Declares (planVars p horizon) s' ∧
      List.Forall₂ (IsEarned s') (List.range horizon) objective := by
  obtain ⟨⟨⟩, s₁, h₁, h⟩ := run_bind_eq_ok.1 h
  obtain ⟨⟨⟩, s₂, h₂, h⟩ := run_bind_eq_ok.1 h
  have hglobals := State.Declares.of_for (f := (·.name.text)) hs h₁
  have hstates : s₁.Declares ((List.range (horizon + 1)).flatMap (boundaryVars p)) s₂ := by
    refine .steps (Q := fun t s s' => s.WellFormed → s.Declares (boundaryVars p t) s')
      hglobals.wellFormed (for_eq_ok (fun t _ s r s' hr => ?_) h₂) fun t _ s s' ht hs => ht hs
    obtain ⟨⟨⟩, s₃, h₃, hr⟩ := run_bind_eq_ok.1 hr
    obtain ⟨rfl, rfl⟩ := run_pure_eq_ok.1 hr
    exact ⟨rfl, fun hs => .of_for (f := fun v => stageVar v.name.text t) hs h₃⟩
  have hboundaries := hglobals.trans hstates
  obtain ⟨hstages, hearned⟩ := declareStages_eq_ok h hboundaries.wellFormed
  exact ⟨hboundaries.trans hstages, hearned⟩

theorem State.wellFormed_begin (horizon : Nat) : (State.begin α horizon).WellFormed where
  program := Program.wellFormed_empty _
  known k t h := by simp [State.begin] at h

theorem State.WellFormed.withObjective (hs : s.WellFormed) (objective : List (VarId × α)) :
    (s.withObjective objective).WellFormed where
  program := ⟨hs.program.terms, hs.program.index, hs.program.bodies⟩
  known := hs.known

/-- Nothing is declared before. -/
theorem State.Declares.vars_eq {horizon : Nat}
    (hs : (State.begin α horizon).Declares (planVars p horizon) s) :
    s.program.vars.toList = planVars p horizon := by
  rw [hs.vars]
  exact List.nil_append _

end Encoding

/-- The program of an encoding is what the rows make of the declared variables. -/
theorem encode_eq_rows {p : Problem α} (hp : p.arena.WellFormed) {horizon : Nat}
    {store : CutStore α} {e : EncodedProgram α} (h : encode p horizon store = .ok e) :
    e.horizon = horizon ∧ ∃ objective s s',
      (Encoding.State.begin α horizon).Declares (Encoding.planVars p horizon) s ∧
      List.Forall₂ (Encoding.IsEarned s) (List.range horizon) objective ∧
      Encoding.RowsFor p horizon store.items.toList (s.withObjective objective) s' ∧
      e.program = s'.program := by
  obtain ⟨hhorizon, objective, s, s', hdeclare, hrows, hprogram⟩ := encode_eq_ok h
  obtain ⟨hdeclares, hearned⟩ := Encoding.declareAll_eq_ok hdeclare
    (Encoding.State.wellFormed_begin horizon)
  exact ⟨hhorizon, objective, s, s', hdeclares, hearned, Encoding.rows_eq_ok hp hrows, hprogram⟩

/-! ## Encoded programs -/

namespace EncodedProgram

variable {p : Problem α} {horizon : Nat} {store : CutStore α} {e : EncodedProgram α}

/-- The variables of a program are those of the plan and then switches. -/
theorem vars_eq (hp : p.arena.WellFormed) (h : encode p horizon store = .ok e) :
    ∃ switches, e.program.vars.toList = Encoding.planVars p horizon ++ switches ∧
      ∀ w ∈ switches, w.name ∈ Encoding.switches "" := by
  obtain ⟨-, objective, s, s', hdeclares, -, hrows, hprogram⟩ := encode_eq_rows hp h
  have hwellFormed := hdeclares.wellFormed.withObjective objective
  obtain ⟨switches, hvars, hnames⟩ := (hrows.grows hp hwellFormed).adds.vars
  refine ⟨switches, ?_, hnames⟩
  rw [hprogram, hvars]
  exact congrArg (· ++ switches) hdeclares.vars_eq

theorem wellFormed (hp : p.arena.WellFormed) (h : encode p horizon store = .ok e) :
    e.program.WellFormed := by
  obtain ⟨-, objective, s, s', hdeclares, -, hrows, hprogram⟩ := encode_eq_rows hp h
  rw [hprogram]
  exact (hrows.grows hp (hdeclares.wellFormed.withObjective objective)).wellFormed.program

/-- The program has the variables of the plan. -/
theorem exists_varOf? (hp : p.arena.WellFormed) (h : encode p horizon store = .ok e)
    {w : ProgramVar α} (hw : w ∈ Encoding.planVars p horizon) :
    ∃ x, e.program.varOf? w.name = some x := by
  obtain ⟨switches, hvars, -⟩ := vars_eq hp h
  have hmem : w ∈ e.program.vars.toList := hvars ▸ List.mem_append_left _ hw
  obtain ⟨i, hi⟩ := List.mem_iff_getElem?.1 hmem
  rw [Array.getElem?_toList] at hi
  exact ⟨i, ((wellFormed hp h).index w.name i).2 ⟨w, hi, rfl⟩⟩

end EncodedProgram

end HybridPlan
