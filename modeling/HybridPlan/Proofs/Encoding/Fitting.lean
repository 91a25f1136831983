import HybridPlan.Proofs.Encoding.Completeness
import HybridPlan.Proofs.Encoding.Extraction
import HybridPlan.Proofs.Encoding.Success

set_option autoImplicit false

/-! # Candidates are solutions

Values for all variables of a plan that follow the closed forms and satisfy the constraints with room
for the tolerance are part of a solution of the program. -/

namespace HybridPlan

open Exact (real)
open Encoding

/-! ## What fits -/

/-- A candidate follows the closed forms, keeps to the ranges of durations and booleans, satisfies all
constraints and cuts with room, and earns the given rewards. -/
structure Candidate.Fits (c : Candidate) (p : Problem Exact) (cs : List (Cut Exact)) (horizon : Nat)
    (δ M : ℝ) (rewards : Nat → ℝ) : Prop where
  duration : ∀ t < horizon, 0 ≤ c.decision t p.domain.dt ∧ c.decision t p.domain.dt ≤ M
  booleans : ∀ v ∈ p.domain.vars, v.kind = .boolean → ∀ scope : Scope, scope.Within horizon →
    c.value v (Encoding.Scope.time v scope) = 0 ∨ c.value v (Encoding.Scope.time v scope) = 1
  transitions : ∀ t < horizon, ∀ y ∈ p.transitions,
    p.arena.Denotes (c.valuation p (.stage t)) y.2 (c.state (t + 1) y.1)
  initials : ∀ k ∈ p.domain.initials, p.arena.HoldsBy (c.valuation p (.stage 0)) δ M k.expr
  instantaneous : ∀ t < horizon, ∀ k ∈ p.domain.instantaneous,
    p.arena.HoldsBy (c.valuation p (.stage t)) δ M k.expr
  temporal : ∀ t < horizon, ∀ k ∈ p.domain.temporal,
    p.arena.HoldsBy (c.valuation p (.stage t)) δ M k.expr
  goals : ∀ k ∈ p.domain.goals, p.arena.HoldsBy (c.valuation p (.goal horizon)) δ M k.expr
  cuts : ∀ k ∈ cs, k.stage < horizon →
    p.arena.HoldsBy (c.valuation p (.stage k.stage)) δ M k.expr
  rewards : ∀ t < horizon,
    p.arena.Denotes (c.valuation p (.stage t)) p.domain.reward.expr (rewards t)

section

variable {c : Candidate} {p : Problem Exact} {cs : List (Cut Exact)} {horizon : Nat} {δ M : ℝ}
  {rewards : Nat → ℝ} {v : Variable} {r : ℝ}

/-! ## Bounds -/

theorem admits_declared (hbigM : p.bigM = real M) (name : String)
    (hboolean : v.kind = .boolean → r = 0 ∨ r = 1)
    (hdt : v.name.text = p.domain.dt → 0 ≤ r ∧ r ≤ M) : (declared p v name).Admits (real r) := by
  unfold declared varBounds
  cases hkind : v.kind with
  | boolean =>
    refine ⟨?_, ?_, fun _ => ?_⟩
    · rcases hboolean hkind with rfl | rfl <;> simp [Program.newVar, Program.bounds]
    · rcases hboolean hkind with rfl | rfl <;> simp [Program.newVar, Program.bounds]
    · simpa using hboolean hkind
  | integer =>
    refine ⟨?_, ?_, fun h => (by cases h)⟩
    · exact Exact.neg_infinity_le_real
    · exact Exact.real_le_infinity
  | continuous =>
    by_cases hname : v.name.text = p.domain.dt
    · obtain ⟨hlower, hupper⟩ := hdt hname
      rw [if_pos hname, hbigM]
      refine ⟨?_, ?_, fun h => (by cases h)⟩
      · simpa [Program.newVar, Program.bounds] using hlower
      · simpa [Program.newVar, Program.bounds] using hupper
    · rw [if_neg hname]
      refine ⟨?_, ?_, fun h => (by cases h)⟩
      · exact Exact.neg_infinity_le_real
      · exact Exact.real_le_infinity

/-- Only a decision of the stages can be the duration. -/
theorem Domain.Named.ne_dt {α : Type} [Scalar α] {d : Domain α} (hd : d.Named)
    (hv : v ∈ d.vars) (h : v.role = .state ∨ v.isGlobal) : v.name.text ≠ d.dt := by
  intro hname
  obtain ⟨w, hw, hrole, -, hlocal⟩ := hd.duration
  obtain rfl := hd.eq_of_name hv (mem_of_declared? hw) (hname.trans (name_of_declared? hw).symm)
  rcases h with h | h
  · rw [hrole] at h
    cases h
  · exact hlocal h

/-- What a boolean is at a boundary is read with the end of the plan at the last one, and with the stages
at the others. -/
theorem Candidate.Fits.boundary_boolean (hc : c.Fits p cs horizon δ M rewards) {t : Nat}
    (hv : v ∈ p.domain.vars) (hrole : v.role = .state) (hglobal : ¬v.isGlobal)
    (hkind : v.kind = .boolean) (ht : t ≤ horizon) :
    c.state t v.name.text = 0 ∨ c.state t v.name.text = 1 := by
  rcases Nat.lt_or_eq_of_le ht with hlt | rfl
  · have hvalue := hc.booleans v hv hkind (.stage t) hlt
    rwa [Candidate.value, if_neg hglobal, if_pos hrole] at hvalue
  · have hvalue := hc.booleans v hv hkind (.goal t) rfl
    rwa [Candidate.value, if_neg hglobal, if_pos hrole, Encoding.Scope.time, if_pos hrole] at hvalue

/-- The values of a candidate lie within the bounds of the variables. -/
theorem Candidate.Fits.admits (hc : c.Fits p cs horizon δ M rewards) (hd : p.domain.Named)
    (hhorizon : 0 < horizon) (hbigM : p.bigM = real M) {w : ProgramVar Exact}
    (h : (w, r) ∈ c.entries p rewards horizon) : w.Admits (real r) := by
  cases Candidate.mem_entries.1 h with
  | @global v hv hglobal =>
    refine admits_declared hbigM _ (fun hkind => ?_) fun hname =>
      absurd hname (hd.ne_dt hv (.inr hglobal))
    have hvalue := hc.booleans v hv hkind (.stage 0) hhorizon
    rwa [Candidate.value, if_pos hglobal] at hvalue
  | @boundary v t hv hrole ht =>
    exact admits_declared hbigM _ (fun hkind =>
      hc.boundary_boolean hv hrole (hd.states v hv hrole) hkind ht)
      fun hname => absurd hname (hd.ne_dt hv (.inl hrole))
  | @decision v t hv hrole hglobal ht =>
    refine admits_declared hbigM _ (fun hkind => ?_) fun hname => ?_
    · have hvalue := hc.booleans v hv hkind (.stage t) ht
      rwa [Candidate.value, if_neg hglobal, if_neg hrole] at hvalue
    · rw [hname]
      exact hc.duration t ht
  | earned ht =>
    refine ⟨?_, ?_, fun h => (by cases h)⟩
    · exact Exact.neg_infinity_le_real
    · exact Exact.real_le_infinity

/-! ## The assignment of the declared variables -/

/-- The assignment that a candidate makes. -/
noncomputable def Candidate.assignment (c : Candidate) (p : Problem Exact) (rewards : Nat → ℝ)
    (horizon : Nat) : VarId → Exact :=
  fun i => ((c.entries p rewards horizon)[i]?.map fun y => real y.2).getD (real 0)

variable {s : State Exact}

theorem Candidate.getElem?_vars (rewards : Nat → ℝ)
    (hs : (State.begin Exact horizon).Declares (planVars p horizon) s) {i : VarId} {w : ProgramVar Exact} (h : s.program.vars[i]? = some w) :
    ∃ r, (w, r) ∈ c.entries p rewards horizon ∧ c.assignment p rewards horizon i = real r := by
  rw [← Array.getElem?_toList, hs.vars_eq, ← c.map_fst_entries p rewards, List.getElem?_map,
    Option.map_eq_some_iff] at h
  obtain ⟨⟨w, r⟩, hentry, rfl⟩ := h
  exact ⟨r, List.mem_of_getElem? hentry, by rw [assignment, hentry]; rfl⟩

/-- A declared variable has the value that the candidate gives it. -/
theorem Candidate.valuation_of_entry
    (hs : (State.begin Exact horizon).Declares (planVars p horizon) s) {w : ProgramVar Exact}
    (h : (w, r) ∈ c.entries p rewards horizon) :
    s.valuation (c.assignment p rewards horizon) w.name = some (real r) := by
  obtain ⟨i, hi⟩ := List.mem_iff_getElem?.1 h
  have hvar : s.program.vars[i]? = some w := by
    rw [← Array.getElem?_toList, hs.vars_eq, ← c.map_fst_entries p rewards, List.getElem?_map, hi]
    rfl
  have hindex := (hs.wellFormed.program.index w.name i).2 ⟨w, hvar, rfl⟩
  rw [State.valuation, hindex, Option.map_some, assignment, hi]
  rfl

/-- Symbols have the values that the candidate gives them. -/
theorem Candidate.valuation_of_scope
    (hs : (State.begin Exact horizon).Declares (planVars p horizon) s) (hhorizon : 0 < horizon)
    {scope : Scope} (hscope : scope.Within horizon) {name : String} {u : Exact}
    (h : c.valuation p scope name = some u) :
    scope.valuation p (s.valuation (c.assignment p rewards horizon)) name = some u := by
  cases hreading : reading? p scope name with
  | none =>
    unfold reading? at hreading
    unfold valuation at h
    cases hresolve : p.domain.resolve? name with
    | none => rw [hresolve] at h; cases h
    | some reference =>
      rw [hresolve] at h hreading
      cases reference with
      | constant | tolerance | var => cases hreading
      | next v =>
        cases scope with
        | stage t => cases hreading
        | goal t => cases h
  | some reading =>
    cases reading with
    | inl k =>
      rw [Scope.valuation_of_number hreading]
      unfold reading? at hreading
      unfold valuation at h
      cases hresolve : p.domain.resolve? name with
      | none => rw [hresolve] at h; cases h
      | some reference =>
        rw [hresolve] at h hreading
        cases reference with
        | constant | tolerance => cases hreading; exact h
        | var => cases hreading
        | next v => cases scope <;> cases hreading
    | inr y =>
      obtain ⟨w, r, hentry, rfl, hvalue⟩ := c.exists_entry rewards hhorizon hscope hreading
      rw [Scope.valuation_of_name hreading, valuation_of_entry hs hentry, ← hvalue, h]

/-- The assignment respects the program before the rows. -/
theorem Candidate.Fits.satisfies (hc : c.Fits p cs horizon δ M rewards) (hd : p.domain.Named)
    (hhorizon : 0 < horizon) (hbigM : p.bigM = real M)
    (hs : (State.begin Exact horizon).Declares (planVars p horizon) s)
    (objective : List (VarId × Exact)) :
    (s.withObjective objective).program.Satisfies (c.assignment p rewards horizon) where
  vars i w hw := by
    obtain ⟨r, hentry, hvalue⟩ := c.getElem?_vars rewards hs hw
    rw [hvalue]
    exact hc.admits hd hhorizon hbigM hentry
  rows r hr := by
    have hrows : s.program.rows = #[] := hs.rows
    have hr : r ∈ s.program.rows.toList := hr
    rw [hrows] at hr
    exact absurd hr List.not_mem_nil

/-- The rows allow what fits. -/
theorem Candidate.Fits.planMeets (hc : c.Fits p cs horizon δ M rewards) (hp : p.MadeOf (.all Exact))
    (hwithin : ∀ k ∈ cs, p.arena.Uses (.all Exact) k.expr) (hhorizon : 0 < horizon)
    (hs : (State.begin Exact horizon).Declares (planVars p horizon) s) :
    PlanMeets p horizon cs (s.valuation (c.assignment p rewards horizon)) δ M := by
  have hholds (scope : Scope) (hscope : scope.Within horizon) {e : ExprId}
      (he : p.arena.Uses (.all Exact) e) (h : p.arena.HoldsBy (c.valuation p scope) δ M e) :
      p.arena.HoldsBy (scope.valuation p (s.valuation (c.assignment p rewards horizon))) δ M e :=
    h.congr he fun _ _ _ hv => c.valuation_of_scope hs hhorizon hscope hv
  have hdenotes (scope : Scope) (hscope : scope.Within horizon) {e : ExprId} {r : ℝ}
      (he : p.arena.Uses (.all Exact) e) (h : p.arena.Denotes (c.valuation p scope) e r) :
      p.arena.Denotes (scope.valuation p (s.valuation (c.assignment p rewards horizon))) e r :=
    h.congr he fun _ _ _ hv => c.valuation_of_scope hs hhorizon hscope hv
  have hformula := hp.domain.formulas
  refine ⟨fun k hk => ?_, fun t ht => ⟨fun k hk => ?_, fun k hk => ?_, fun y hy => ?_, ?_⟩,
    fun k hk => ?_, fun k hk hlt => ?_⟩
  · exact hholds (.stage 0) hhorizon (hformula k (by simp [Domain.formulas, hk])) (hc.initials k hk)
  · exact hholds (.stage t) ht (hformula k (by simp [Domain.formulas, hk])) (hc.instantaneous t ht k hk)
  · exact hholds (.stage t) ht (hformula k (by simp [Domain.formulas, hk])) (hc.temporal t ht k hk)
  · -- the next state is the variable of the next boundary
    have hname : y.1 ∈ p.domain.stateNames := hp.names ▸ List.mem_map_of_mem hy
    obtain ⟨v, hv, hvname⟩ := List.mem_map.1 hname
    obtain ⟨hv, hrole⟩ := List.mem_filter.1 hv
    have hentry : (declared p v (stageVar v.name.text (t + 1)), c.state (t + 1) v.name.text) ∈
        c.entries p rewards horizon :=
      Candidate.mem_entries.2 (.boundary hv (by simpa using hrole) (Nat.succ_le_of_lt ht))
    rw [hvname] at hentry
    exact ⟨_, c.valuation_of_entry hs hentry, hdenotes (.stage t) ht (hp.transitions y hy)
      (hc.transitions t ht y hy)⟩
  · exact ⟨_, c.valuation_of_entry hs (c.mem_earnedEntries ht),
      hdenotes (.stage t) ht (hformula _ (by simp [Domain.formulas])) (hc.rewards t ht)⟩
  · exact hholds (.goal horizon) rfl (hformula k (by simp [Domain.formulas, hk])) (hc.goals k hk)
  · exact hholds (.stage k.stage) hlt (hwithin k hk) (hc.cuts k hk hlt)

/-! ## Solutions -/

variable {store : CutStore Exact} {e : EncodedProgram Exact}

/-- Values that fit are completed, row by row, by values for the switches. -/
theorem Candidate.Fits.completes (hc : c.Fits p store.items.toList horizon δ M rewards)
    (hp : p.Resolved) (hwithin : store.Within p) (hhorizon : 0 < horizon) (hδ : 0 ≤ δ)
    (hfeastol : p.feastol = real δ) (hbigM : p.bigM = real M)
    (h : encode p horizon store = .ok e) : ∃ x, e.program.Satisfies x ∧
      (∀ w r, (w, r) ∈ c.entries p rewards horizon →
        ∃ v, e.program.varOf? w.name = some v ∧ x v = real r) ∧
      e.program.objectiveValue x = real ((List.range horizon).map rewards).sum := by
  obtain ⟨-, objective, s, s', hdeclares, hearned, hrows, hprogram⟩ :=
    encode_eq_rows hp.made.domain.arena h
  rw [hprogram]
  have hmeans := hdeclares.means hhorizon objective (c.assignment p rewards horizon)
  have hsatisfies := hc.satisfies hp.named hhorizon hbigM hdeclares objective
  obtain ⟨x, hx⟩ := hrows.completes hp.made.domain.arena hfeastol hbigM hδ hhorizon
    (hc.planMeets hp.made hwithin hhorizon hdeclares) _ hmeans
  refine ⟨x, hx.satisfies hmeans hsatisfies, fun w r hentry => ?_, ?_⟩
  · exact hx.means.named _ _ (c.valuation_of_entry hdeclares hentry)
  · refine objectiveValue_eq (s := s) ?_ fun t ht => ?_
    · rw [hx.grows.adds.objective]
      exact hearned
    · -- the reward of a stage is the value of its variable
      have hentry : (earned t, rewards t) ∈ c.entries p rewards horizon :=
        c.mem_earnedEntries (List.mem_range.1 ht)
      have hvalue := c.valuation_of_entry hdeclares hentry
      obtain ⟨v, hv, hreward⟩ := Option.map_eq_some_iff.1 hvalue
      have hagrees := hx.agrees v (hdeclares.wellFormed.program.lt_size hv)
      have hv : s.program.varOf? (rewardVar t) = some v := hv
      rw [State.valuation, hv, Option.map_some, hagrees, hreward]

end

/-- The values of the variables of a program make up a solution. -/
theorem Program.Satisfies.exists_values {q : Program Exact} (hq : q.WellFormed) {x : VarId → Exact}
    (hx : q.Satisfies x) :
    ∃ s : Solution Exact, q.Satisfies s.value ∧ ∀ i < q.vars.size, s.value i = x i := by
  let s : Solution Exact := ⟨(Array.range q.vars.size).map x, Scalar.zero⟩
  have hs : ∀ i < q.vars.size, s.value i = x i := fun i hi => by simp [s, Solution.value, hi]
  exact ⟨s, .of_adds (.refl (N := ∅) (M := ∅) q) hq hq (fun i hi => (hs i hi).symm) hx, hs⟩

/-! ## Waiting -/

/-- The candidate that waits in every stage for so long. -/
def Candidate.waits (d : ℝ) : Candidate := ⟨fun _ => 0, fun _ _ => 0, fun _ _ => d⟩

namespace Problem.Waits

variable {op : Comparison} {p : Problem Exact} (h : p.Waits op) {d δ M : ℝ}
include h

theorem valuation_waits (t : Nat) :
    (Candidate.waits d).valuation p (.stage t) "Dt" = some (real d) := by
  obtain ⟨v, -, hdeclared, -, -, hrole, hglobal⟩ := h.exists_duration
  rw [Candidate.valuation, Domain.resolve?_eq_var.2 hdeclared]
  simp [Candidate.value, hrole, hglobal, Candidate.waits]

/-- What is waited fits if it is a duration that the comparison allows with room. -/
theorem fits_waits (hd : 0 ≤ d) (hM : d ≤ M) (hop : op.HoldsBy δ d 3) :
    (Candidate.waits d).Fits p [] 1 δ M fun _ => d := by
  have hdenotes (t : Nat) {e : ExprId} (he : p.arena.table.items[e]? = some (.sym "Dt")) :
      p.arena.Denotes ((Candidate.waits d).valuation p (.stage t)) e d :=
    .sym (Arena.node_eq_of_getElem? he) (h.valuation_waits t)
  refine ⟨fun t _ => ⟨hd, hM⟩, ?_, ?_, ?_, ?_, ?_, ?_, ?_, fun t _ => hdenotes t h.reward⟩
  · obtain ⟨v, hvars, -, -, hkind, -⟩ := h.exists_duration
    intro w hw hboolean
    rw [hvars, List.mem_singleton] at hw
    rw [hw, hkind] at hboolean
    cases hboolean
  · simp [h.transitions]
  · simp [h.initials]
  · simp [h.instantaneous]
  · obtain ⟨c, hc, x, y, he, hx, hy⟩ := h.temporal
    intro t _ k hk
    obtain rfl : k = c := List.mem_singleton.1 (hc ▸ hk)
    exact .compare ⟨x, y, Arena.node_eq_of_getElem? he, hdenotes t hx,
      .num (Arena.node_eq_of_getElem? hy)⟩ hop
  · simp [h.goals]
  · simp

/-- Waiting has a program, and its solutions include all that fit. -/
theorem exists_encoded (hp : p.Resolved) (hδ : 0 ≤ δ) (hfeastol : p.feastol = real δ)
    (hbigM : p.bigM = real M) (hd : 0 ≤ d) (hM : d ≤ M) (hop : op.HoldsBy δ d 3) :
    ∃ (e : EncodedProgram Exact) (s : Solution Exact), encode p 1 {} = .ok e ∧
      e.program.Satisfies s.value ∧ (e.stageAt p s 0).dt = real d := by
  have hpositive : Scalar.lt p.bigM Scalar.zero = false := by
    rw [hbigM, Exact.zero_eq, ← Bool.not_eq_true, Exact.lt_real]
    linarith
  obtain ⟨e, he⟩ := h.encode_succeeds hp.made.domain.arena hpositive
  obtain ⟨x, hx, hentries, -⟩ := (h.fits_waits hd hM hop).completes hp (CutStore.within_empty p)
    Nat.one_pos hδ hfeastol hbigM he
  obtain ⟨s, hs, hvalues⟩ := hx.exists_values (EncodedProgram.wellFormed hp.made.domain.arena he)
  refine ⟨e, s, he, hs, ?_⟩
  -- the duration of the stage is that of the candidate
  obtain ⟨v, hvars, -, hname, -, hrole, hglobal⟩ := h.exists_duration
  have hv : v ∈ p.domain.vars := hvars ▸ List.mem_singleton_self v
  obtain ⟨i, hi, hxi⟩ := hentries _ _ (Candidate.mem_entries.2
    (.decision hv (by simp [hrole]) (by simp [hglobal]) Nat.one_pos))
  have hi : e.program.varOf? (stageVar p.domain.dt 0) = some i := by
    rw [h.dt, ← hname]
    exact hi
  have hlt := (EncodedProgram.wellFormed hp.made.domain.arena he).lt_size hi
  change e.valueOf s (stageVar p.domain.dt 0) = real d
  rw [EncodedProgram.valueOf, Solution.valueOf?, hi, Option.map_some, hvalues i hlt, hxi]
  rfl

end Problem.Waits

/-- A solution that waits for four units of time, where at least three have to be waited. -/
theorem Waiting.exists_encoded : ∃ (P : ReadProblem Exact) (e : EncodedProgram Exact)
    (s : Solution Exact), P.source = source .ge ∧ P.config = .default ∧ P.problem.Waits .ge ∧
      P.problem.feastol = real (1 * 10 ^ (-6 : ℤ)) ∧ P.problem.bigM = real 1000 ∧
      encode P.problem 1 {} = .ok e ∧ e.program.Satisfies s.value ∧
      (e.extract P.problem s).stages = [e.stageAt P.problem s 0] ∧
      (e.stageAt P.problem s 0).dt = real 4 := by
  obtain ⟨P, hsource, hconfig, hwaits, hfeastol, hbigM⟩ := exists_default .ge
  obtain ⟨e, s, he, hs, hdt⟩ := hwaits.exists_encoded P.resolved (by positivity) hfeastol hbigM
    (show (0 : ℝ) ≤ 4 by norm_num) (by norm_num) (show (3 : ℝ) ≤ 4 by norm_num)
  refine ⟨P, e, s, hsource, hconfig, hwaits, hfeastol, hbigM, he, hs, ?_, hdt⟩
  obtain ⟨hhorizon, -⟩ := encode_eq_rows P.resolved.made.domain.arena he
  rw [EncodedProgram.stages_extract, hhorizon]
  rfl

/-! ## Completeness -/

/-- A candidate that fits is completed, by values for the switches, to a solution of the program, whose
objective is the sum of the rewards. -/
theorem ReadProblem.exists_solution (P : ReadProblem Exact)
    {vs : List (Violation Exact × OffsetMode × Nat)} {store : CutStore Exact} {q : Problem Exact}
    (hfill : CutStore.fill P.problem vs = (store, q)) {horizon : Nat} (hhorizon : 0 < horizon)
    {δ M : ℝ} (hδ : 0 ≤ δ) (hfeastol : P.problem.feastol = real δ)
    (hbigM : P.problem.bigM = real M) {c : Candidate} {rewards : Nat → ℝ}
    (hc : c.Fits q store.items.toList horizon δ M rewards) {e : EncodedProgram Exact}
    (h : encode q horizon store = .ok e) :
    (∃ switches, e.program.vars.toList =
        (c.entries q rewards horizon).map (·.1) ++ switches ∧
      ∀ w ∈ switches, w.name ∈ Encoding.switches "") ∧
      ∃ x, e.program.Satisfies x ∧
        (∀ w r, (w, r) ∈ c.entries q rewards horizon →
          ∃ v, e.program.varOf? w.name = some v ∧ x v = real r) ∧
        e.program.objectiveValue x = real ((List.range horizon).map rewards).sum := by
  obtain ⟨hgrows, hwithin⟩ := CutStore.fill_grows P.madeOf vs
  rw [hfill] at hgrows hwithin
  have hq := P.resolved.grows hgrows
  have hconstants : q.feastol = real δ ∧ q.bigM = real M := by
    obtain ⟨a, rfl, -⟩ := hgrows
    exact ⟨hfeastol, hbigM⟩
  refine ⟨?_, hc.completes hq hwithin hhorizon hδ hconstants.1 hconstants.2 h⟩
  rw [c.map_fst_entries]
  exact EncodedProgram.vars_eq hq.made.domain.arena h

/-- Four units of time, where at least three have to be waited. -/
theorem ReadProblem.exists_solution_waiting : ∃ (P : ReadProblem Exact) (e : EncodedProgram Exact),
    P.source = Waiting.source .ge ∧ P.config = .default ∧
      CutStore.fill P.problem [] = ({}, P.problem) ∧ (0 : ℝ) ≤ 1 * 10 ^ (-6 : ℤ) ∧
      P.problem.feastol = real (1 * 10 ^ (-6 : ℤ)) ∧ P.problem.bigM = real 1000 ∧
      (Candidate.waits 4).Fits P.problem [] 1 (1 * 10 ^ (-6 : ℤ)) 1000 (fun _ => 4) ∧
      encode P.problem 1 {} = .ok e ∧ ∃ x, e.program.Satisfies x ∧
        (∃ v, e.program.varOf? (rewardVar 0) = some v ∧ x v = real 4) ∧
        e.program.objectiveValue x = real 4 := by
  obtain ⟨P, e, -, hsource, hconfig, hwaits, hfeastol, hbigM, he, -⟩ := Waiting.exists_encoded
  have hδ : (0 : ℝ) ≤ 1 * 10 ^ (-6 : ℤ) := by positivity
  have hfill : CutStore.fill P.problem [] = ({}, P.problem) := rfl
  have hfits := hwaits.fits_waits (δ := 1 * 10 ^ (-6 : ℤ)) (show (0 : ℝ) ≤ 4 by norm_num)
    (show (4 : ℝ) ≤ 1000 by norm_num) (show (3 : ℝ) ≤ 4 by norm_num)
  obtain ⟨-, x, hx, hentries, hobjective⟩ :=
    P.exists_solution hfill Nat.one_pos hδ hfeastol hbigM hfits he
  refine ⟨P, e, hsource, hconfig, hfill, hδ, hfeastol, hbigM, hfits, he, x, hx, ?_, ?_⟩
  · exact hentries _ _ (Candidate.mem_earnedEntries Nat.one_pos)
  · simpa using hobjective

end HybridPlan
