import HybridPlan.Proofs.Domain.Names
import HybridPlan.Proofs.Encoding.Declaration
import HybridPlan.Proofs.Encoding.Meaning

set_option autoImplicit false

/-! # Candidates

Values for all variables of a plan, and the assignment of the declared variables of a program that
they make up. -/

namespace HybridPlan

open Exact (real)

/-- Values of the globals, of the states at each boundary, and of the decisions in each stage. -/
structure Candidate where
  global : String → ℝ
  state : Nat → String → ℝ
  decision : Nat → String → ℝ

namespace Candidate

/-- The value of a variable at a boundary or in a stage. -/
def value (c : Candidate) (v : Variable) (t : Nat) : ℝ :=
  if v.isGlobal then c.global v.name.text
  else if v.role = .state then c.state t v.name.text
  else c.decision t v.name.text

/-- The values of symbols in a scope. -/
noncomputable def valuation (c : Candidate) (p : Problem Exact) (scope : Scope) : Valuation Exact :=
  fun name =>
    match p.domain.resolve? name with
    | some (.constant x) => some x
    | some .tolerance => some p.feastol
    | some (.var v) => some (real (c.value v (Encoding.Scope.time v scope)))
    | some (.next v) => match scope with
      | .stage t => some (real (c.state (t + 1) v.name.text))
      | .goal _ => none
    | none => none

/-! ## The assignment of the declared variables -/

variable (c : Candidate) (p : Problem Exact) (earned : Nat → ℝ)

/-- The globals and their values. -/
noncomputable def globalEntries : List (ProgramVar Exact × ℝ) :=
  (p.domain.vars.filter (·.isGlobal)).map fun v =>
    (Encoding.declared p v v.name.text, c.global v.name.text)

/-- The states of a boundary and their values. -/
noncomputable def boundaryEntries (t : Nat) : List (ProgramVar Exact × ℝ) :=
  p.domain.states.map fun v =>
    (Encoding.declared p v (stageVar v.name.text t), c.state t v.name.text)

/-- The decisions of a stage and what it earns, and their values. -/
noncomputable def stageEntries (t : Nat) : List (ProgramVar Exact × ℝ) :=
  ((p.domain.decisions.filter (!·.isGlobal)).map fun v =>
    (Encoding.declared p v (stageVar v.name.text t), c.decision t v.name.text)) ++
    [(Encoding.earned t, earned t)]

/-- The declared variables and their values. -/
noncomputable def entries (horizon : Nat) : List (ProgramVar Exact × ℝ) :=
  c.globalEntries p ++ (List.range (horizon + 1)).flatMap (c.boundaryEntries p) ++
    (List.range horizon).flatMap (c.stageEntries p earned)

/-- The entries are those of the declared variables, in their order. -/
theorem map_fst_entries (horizon : Nat) :
    (c.entries p earned horizon).map (·.1) = Encoding.planVars p horizon := by
  have hglobals : (c.globalEntries p).map (·.1) = Encoding.globalVars p := by
    simp [globalEntries, Encoding.globalVars]
  have hboundary (t : Nat) : (c.boundaryEntries p t).map (·.1) = Encoding.boundaryVars p t := by
    simp [boundaryEntries, Encoding.boundaryVars]
  have hstage (t : Nat) : (c.stageEntries p earned t).map (·.1) = Encoding.stageVars p t := by
    simp [stageEntries, Encoding.stageVars]
  simp only [entries, Encoding.planVars, List.map_append, List.map_flatMap, hglobals, hboundary,
    hstage]

variable {c p earned} {horizon : Nat}

/-- A declared variable and its value: a global, a state at a boundary, a decision of a stage, or what a
stage earns. -/
inductive Entry (c : Candidate) (p : Problem Exact) (earned : Nat → ℝ) (horizon : Nat) :
    ProgramVar Exact × ℝ → Prop
  | global {v : Variable} (hv : v ∈ p.domain.vars) (hglobal : v.isGlobal) :
      Entry c p earned horizon (Encoding.declared p v v.name.text, c.global v.name.text)
  | boundary {v : Variable} {t : Nat} (hv : v ∈ p.domain.vars) (hrole : v.role = .state)
      (ht : t ≤ horizon) : Entry c p earned horizon
        (Encoding.declared p v (stageVar v.name.text t), c.state t v.name.text)
  | decision {v : Variable} {t : Nat} (hv : v ∈ p.domain.vars) (hrole : v.role ≠ .state)
      (hglobal : ¬v.isGlobal) (ht : t < horizon) : Entry c p earned horizon
        (Encoding.declared p v (stageVar v.name.text t), c.decision t v.name.text)
  | earned {t : Nat} (ht : t < horizon) :
      Entry c p earned horizon (Encoding.earned t, earned t)

theorem mem_globalEntries {y : ProgramVar Exact × ℝ} : y ∈ c.globalEntries p ↔
    ∃ v ∈ p.domain.vars, v.isGlobal ∧ y = (Encoding.declared p v v.name.text, c.global v.name.text) := by
  simp only [globalEntries, List.mem_map, List.mem_filter, and_assoc, @eq_comm _ _ y]

theorem mem_boundaryEntries {y : ProgramVar Exact × ℝ} {t : Nat} : y ∈ c.boundaryEntries p t ↔
    ∃ v ∈ p.domain.vars, v.role = .state ∧
      y = (Encoding.declared p v (stageVar v.name.text t), c.state t v.name.text) := by
  simp only [boundaryEntries, Domain.states, List.mem_map, List.mem_filter, decide_eq_true_eq,
    and_assoc, @eq_comm _ _ y]

theorem mem_stageEntries {y : ProgramVar Exact × ℝ} {t : Nat} : y ∈ c.stageEntries p earned t ↔
    (∃ v ∈ p.domain.vars, v.role ≠ .state ∧ ¬v.isGlobal ∧
      y = (Encoding.declared p v (stageVar v.name.text t), c.decision t v.name.text)) ∨
    y = (Encoding.earned t, earned t) := by
  simp only [stageEntries, Domain.decisions, List.mem_append, List.mem_map, List.mem_filter,
    decide_eq_true_eq, Bool.not_eq_true', Bool.not_eq_true, List.mem_singleton, and_assoc, @eq_comm _ _ y]

theorem mem_entries {y : ProgramVar Exact × ℝ} :
    y ∈ c.entries p earned horizon ↔ c.Entry p earned horizon y := by
  simp only [entries, List.mem_append, List.mem_flatMap, List.mem_range, Nat.lt_succ_iff,
    mem_globalEntries, mem_boundaryEntries, mem_stageEntries]
  constructor
  · rintro ((⟨v, hv, hglobal, rfl⟩ | ⟨t, ht, v, hv, hrole, rfl⟩) |
      ⟨t, ht, ⟨v, hv, hrole, hglobal, rfl⟩ | rfl⟩)
    · exact .global hv hglobal
    · exact .boundary hv hrole ht
    · exact .decision hv hrole hglobal ht
    · exact .earned ht
  · intro h
    cases h with
    | global hv hglobal => exact .inl (.inl ⟨_, hv, hglobal, rfl⟩)
    | boundary hv hrole ht => exact .inl (.inr ⟨_, ht, _, hv, hrole, rfl⟩)
    | decision hv hrole hglobal ht => exact .inr ⟨_, ht, .inl ⟨_, hv, hrole, hglobal, rfl⟩⟩
    | earned ht => exact .inr ⟨_, ht, .inr rfl⟩

theorem mem_earnedEntries {t : Nat} (ht : t < horizon) :
    (Encoding.earned t, earned t) ∈ c.entries p earned horizon := mem_entries.2 (.earned ht)

/-- The variable that stands for a declared variable in a scope. -/
theorem mem_varEntries (hhorizon : 0 < horizon) {scope : Scope} (hscope : scope.Within horizon)
    {v : Variable} (hv : v ∈ p.domain.vars) :
    (Encoding.declared p v (Encoding.varName v scope),
      c.value v (Encoding.Scope.time v scope)) ∈ c.entries p earned horizon := by
  unfold Encoding.varName value
  by_cases hglobal : v.isGlobal
  · rw [if_pos hglobal, if_pos hglobal]
    exact mem_entries.2 (.global hv hglobal)
  · rw [if_neg hglobal, if_neg hglobal]
    by_cases hrole : v.role = .state
    · rw [if_pos hrole]
      refine mem_entries.2 (.boundary hv hrole ?_)
      cases scope with
      | stage t => exact Nat.le_of_lt hscope
      | goal h => simpa [Encoding.Scope.time, hrole] using Nat.le_of_eq hscope
    · rw [if_neg hrole]
      refine mem_entries.2 (.decision hv hrole hglobal ?_)
      cases scope with
      | stage t => exact hscope
      | goal h =>
        obtain rfl : h = horizon := hscope
        simpa [Encoding.Scope.time, hrole] using hhorizon

/-- A variable that a symbol stands for is declared, and has the value of the symbol. -/
theorem exists_entry (earned : Nat → ℝ) (hhorizon : 0 < horizon) {scope : Scope}
    (hscope : scope.Within horizon) {name y : String} (h : Encoding.reading? p scope name = some (.inr y)) :
    ∃ w r, (w, r) ∈ c.entries p earned horizon ∧ w.name = y ∧
      c.valuation p scope name = some (real r) := by
  unfold Encoding.reading? at h
  unfold valuation
  cases hresolve : p.domain.resolve? name with
  | none => rw [hresolve] at h; cases h
  | some r =>
    rw [hresolve] at h
    cases r with
    | constant x => cases h
    | tolerance => cases h
    | var v =>
      cases h
      have hv := Domain.mem_of_declared? (Domain.resolve?_eq_var.1 hresolve)
      refine ⟨_, _, mem_varEntries hhorizon hscope hv, rfl, rfl⟩
    | next v =>
      obtain ⟨-, -, hv, hrole⟩ := Domain.resolve?_eq_next hresolve
      cases scope with
      | stage t =>
        cases h
        exact ⟨_, _, mem_entries.2 (.boundary hv hrole hscope), rfl, rfl⟩
      | goal h' => cases h

end Candidate

/-! ## The state before the rows -/

namespace Encoding

variable {p : Problem Exact} {horizon : Nat} {s : State Exact}

/-- The variables that symbols stand for are declared. -/
theorem exists_planVar (hhorizon : 0 < horizon) {scope : Scope} (hscope : scope.Within horizon)
    {name y : String} (h : reading? p scope name = some (.inr y)) :
    ∃ w ∈ planVars p horizon, w.name = y := by
  let c : Candidate := ⟨fun _ => 0, fun _ _ => 0, fun _ _ => 0⟩
  obtain ⟨w, r, hw, hname, -⟩ := c.exists_entry (fun _ => 0) hhorizon hscope h
  refine ⟨w, ?_, hname⟩
  rw [← c.map_fst_entries p (fun _ => 0)]
  exact List.mem_map_of_mem hw

/-- The values that an assignment gives to the variables of a program, by name. -/
noncomputable def State.valuation (s : State Exact) (x : VarId → Exact) : Valuation Exact :=
  fun y => (s.program.varOf? y).map x

theorem State.Declares.means (hs : (State.begin Exact horizon).Declares (planVars p horizon) s)
    (hhorizon : 0 < horizon) (objective : List (VarId × Exact)) (x : VarId → Exact) :
    (s.withObjective objective).Means p horizon (s.valuation x) x where
  wellFormed := hs.wellFormed.withObjective objective
  covers scope name y hscope h := by
    obtain ⟨w, hw, rfl⟩ := exists_planVar hhorizon hscope h
    rw [← hs.vars_eq] at hw
    obtain ⟨i, hi, rfl⟩ := List.getElem_of_mem hw
    have hindex := (hs.wellFormed.program.index (s.program.vars.toList[i]).name i).2
      ⟨_, by rw [← Array.getElem?_toList]; exact List.getElem?_eq_getElem hi, rfl⟩
    rw [State.valuation, hindex]
    rfl
  named y w hw := by
    obtain ⟨v, hv, rfl⟩ := Option.map_eq_some_iff.1 hw
    exact ⟨v, hv, rfl⟩
  known e scope t _ ht := by
    have hnone : s.known[(e, scope)]? = none := by
      rw [hs.known]
      exact Std.HashMap.getElem?_empty
    exact absurd (hnone.symm.trans ht) (by simp)

end Encoding

/-! ## The objective -/

/-- What the objective of a program adds up to. -/
def Program.objectiveValue {α : Type} [Scalar α] (p : Program α) (x : VarId → α) : α :=
  Scalar.sum (p.objective.map fun (v, c) => c * x v)

/-- The objective adds up the variables for what the stages earn. -/
theorem objectiveValue_eq {q : Program Exact} {x : VarId → Exact} {s : Encoding.State Exact}
    {l : List Nat} (h : List.Forall₂ (Encoding.IsEarned s) l q.objective) {rewards : Nat → ℝ}
    (hx : ∀ t ∈ l, s.valuation x (rewardVar t) = some (real (rewards t))) :
    q.objectiveValue x = real (l.map rewards).sum := by
  unfold Program.objectiveValue
  generalize q.objective = objective at h ⊢
  have hterms : objective.map (fun (v, c) => c * x v) = l.map fun t => real (rewards t) := by
    induction h with
    | nil => rfl
    | @cons t y l ys hy _ ih =>
      obtain ⟨hvar, hone⟩ := hy
      have hvalue := hx t List.mem_cons_self
      rw [Encoding.State.valuation, hvar, Option.map_some, Option.some.injEq] at hvalue
      rw [List.map_cons, List.map_cons, ih fun t ht => hx t (List.mem_cons_of_mem _ ht)]
      simp [hone, hvalue]
  rw [hterms, ← Exact.sum_real, List.map_map]
  rfl

end HybridPlan
