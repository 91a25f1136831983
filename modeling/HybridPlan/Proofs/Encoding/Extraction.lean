import HybridPlan.Proofs.Cut
import HybridPlan.Proofs.Encoding.Candidate
import HybridPlan.Proofs.Encoding.Soundness
import HybridPlan.Proofs.Expr.Residual
import HybridPlan.Proofs.Plan.Values
import HybridPlan.Proofs.Resolution

set_option autoImplicit false

/-! # Plans that solutions describe

The rows of a program speak about the variables of stages and boundaries, a plan about names in
stages. Both read the same values, so what the rows ensure of a solution holds of the plan that is
extracted from it, also for the simulation, which knows the closed forms only. -/

namespace HybridPlan

open Exact (real)

/-! ## What a plan has to satisfy -/

/-- A stage follows the closed forms and respects the constraints of stages and the cuts made for
it. -/
structure Stage.Obeys (p : Problem Exact) (cs : List (Cut Exact)) (s : Stage Exact) : Prop where
  evolves : s.stateAt p s.dt = s.finish
  instantaneous : ∀ c ∈ p.domain.instantaneous, p.arena.Holds (s.completed p) c.expr
  temporal : ∀ e ∈ p.temporal, ∃ r ≤ 0, s.residualAt p e s.dt = .ok (real r)
  cuts : ∀ c ∈ cs, c.stage = s.index → p.arena.Holds (s.completed p) c.expr

/-- A plan of so many stages, each of which goes on where the one before ends, from a start and to an
end that satisfy the constraints on them. -/
structure Plan.Obeys (p : Problem Exact) (cs : List (Cut Exact)) (horizon : Nat)
    (plan : Plan Exact) : Prop where
  indices : plan.stages.map (·.index) = List.range horizon
  linked : ∀ t s s', plan.stages[t]? = some s → plan.stages[t + 1]? = some s' → s.finish = s'.start
  stages : ∀ s ∈ plan.stages, s.Obeys p cs
  initials : ∀ s, plan.stages[0]? = some s → ∀ c ∈ p.domain.initials,
    p.arena.Holds (s.completed p) c.expr
  goals : ∀ s, plan.stages[horizon - 1]? = some s → ∀ c ∈ p.domain.goals,
    p.arena.Holds (s.ended.valuation p s.dt) c.expr

/-- The numbers that the stages of a plan earn. -/
def Plan.Earns (p : Problem Exact) (plan : Plan Exact) (rewards : List ℝ) : Prop :=
  List.Forall₂ (fun s r => p.arena.Denotes (s.completed p) p.domain.reward.expr r) plan.stages
    rewards

/-! ## Extracted stages -/

namespace EncodedProgram

variable {α : Type} [Scalar α] (e : EncodedProgram α) (p : Problem α) (s : Solution α) (t : Nat)

/-- The value of the variable with a name; zero if there is none. -/
def valueOf (name : String) : α := (s.valueOf? e.program name).getD Scalar.zero

/-- The states at a boundary. -/
def statesAt : Values α :=
  p.domain.states.map fun v => (v.name.text, e.valueOf s (stageVar v.name.text t))

/-- The stage that is extracted at a position. -/
def stageAt : Stage α :=
  let value := e.valueOf s
  { index := t
    actions := valuesOf value
      (p.domain.decisions.filter fun v => v.role = .action && v.name.text ≠ p.domain.dt) t
    auxiliaries := valuesOf value (p.domain.decisions.filter (·.role = .auxiliary)) t
    dt := value (stageVar p.domain.dt t)
    start := e.statesAt p s t
    finish := e.statesAt p s (t + 1) }

theorem stages_extract : (e.extract p s).stages = (List.range e.horizon).map (e.stageAt p s) := rfl

variable {e p s t}

theorem getElem?_stages_extract {st : Stage α} (h : (e.extract p s).stages[t]? = some st) :
    t < e.horizon ∧ st = e.stageAt p s t := by
  rw [stages_extract, List.getElem?_map, Option.map_eq_some_iff] at h
  obtain ⟨u, hu, rfl⟩ := h
  obtain ⟨hlt, rfl⟩ := List.getElem?_eq_some_iff.1 hu
  rw [List.getElem_range]
  exact ⟨by simpa using hlt, rfl⟩

theorem reads_stageAt (hd : p.domain.Named) :
    (e.stageAt p s t).Reads p (e.valueOf s) (.stage t) := by
  constructor
  · rw [Stage.values, valuesIn, Domain.listed, List.map_append, List.map_append]
    congr 2
    refine List.map_congr_left fun v hv => ?_
    have hlocal := hd.states v (List.mem_of_mem_filter hv) (by simpa using List.of_mem_filter hv)
    rw [Encoding.varName, if_neg hlocal]
    rfl
  · intro v hv
    obtain ⟨w, hw, -, -, hlocal⟩ := hd.duration
    obtain rfl := Option.some.inj (hv.symm.trans hw)
    rw [Encoding.varName, if_neg hlocal, Domain.name_of_declared? hv]
    rfl

theorem reads_ended_stageAt (hd : p.domain.Named) :
    (e.stageAt p s t).ended.Reads p (e.valueOf s) (.goal (t + 1)) := by
  have hdecision {v : Variable} (hrole : v.role ≠ .state) :
      Encoding.varName v (.goal (t + 1)) = Encoding.varName v (.stage t) := by
    simp [Encoding.varName, Encoding.Scope.time, hrole]
  constructor
  · rw [Stage.values, valuesIn, Domain.listed, List.map_append, List.map_append]
    congr 1
    · congr 1
      · refine List.map_congr_left fun v hv => ?_
        have hrole : v.role = .state := by simpa using List.of_mem_filter hv
        have hlocal := hd.states v (List.mem_of_mem_filter hv) hrole
        rw [Encoding.varName, if_neg hlocal, Encoding.Scope.time, if_pos hrole]
      · refine List.map_congr_left fun v hv => ?_
        rw [hdecision (by simpa using List.of_mem_filter (List.mem_of_mem_filter hv))]
    · refine List.map_congr_left fun v hv => ?_
      rw [hdecision (by simpa using List.of_mem_filter (List.mem_of_mem_filter hv))]
  · intro v hv
    obtain ⟨w, hw, hrole, -, hlocal⟩ := hd.duration
    obtain rfl := Option.some.inj (hv.symm.trans hw)
    rw [hdecision (by rw [hrole]; rintro ⟨⟩), Encoding.varName, if_neg hlocal,
      Domain.name_of_declared? hv]
    rfl

end EncodedProgram

/-! ## What the rows say about a stage -/

section

variable {p : Problem Exact} {W : Valuation Exact} {value : String → Exact} {st : Stage Exact}
  {scope : Scope} {t : Nat} {name : String} {u : Exact}

theorem Stage.Reads.valuation_of_scope (hs : st.Reads p value scope) (hd : p.domain.Named)
    (hW : ∀ y w, W y = some w → value y = w)
    (hnext : ∀ v, p.domain.resolve? name ≠ some (.next v))
    (h : scope.valuation p W name = some u) : st.valuation p st.dt name = some u := by
  obtain ⟨r, hr, rfl⟩ := Scope.reading_of_valuation hW h
  exact hs.valuation_eq hd hnext hr

theorem Stage.Reads.completed_of_scope (hs : st.Reads p value (.stage t)) (hd : p.domain.Named)
    (hfinish : st.finish = p.domain.states.map fun v =>
      (v.name.text, value (stageVar v.name.text (t + 1))))
    (hW : ∀ y w, W y = some w → value y = w)
    (h : (Scope.stage t).valuation p W name = some u) : st.completed p name = some u := by
  obtain ⟨r, hr, rfl⟩ := Scope.reading_of_valuation hW h
  exact hs.completed_eq hd hfinish hr

/-- The values in a stage are those in its scope. -/
theorem Stage.Reads.scope_of_valuation (hs : st.Reads p value (.stage t)) (hd : p.domain.Named)
    (hW : ∀ y w, W y = some w → value y = w)
    (hcovers : ∀ y, Encoding.reading? p (.stage t) name = some (.inr y) → (W y).isSome)
    (h : st.valuation p st.dt name = some u) : (Scope.stage t).valuation p W name = some u := by
  obtain ⟨r, hr, rfl⟩ := hs.exists_reading hd h
  cases r with
  | inl c => exact Scope.valuation_of_number hr
  | inr y =>
    obtain ⟨w, hw⟩ := Option.isSome_iff_exists.1 (hcovers y hr)
    rw [Scope.valuation_of_name hr, hw, ← hW y w hw]
    rfl

namespace Problem.Resolved

open Encoding Build

/-- The name of a next value stands for the state at the next boundary. -/
theorem reading_nextName (hp : p.Resolved) {y : String × ExprId} (hy : y ∈ p.transitions) (t : Nat) :
    reading? p (.stage t) (nextName y.1) = some (.inr (stageVar y.1 (t + 1))) := by
  have hname : y.1 ∈ p.domain.stateNames := hp.made.names ▸ List.mem_map_of_mem hy
  obtain ⟨v, hv, hvname⟩ := List.mem_map.1 hname
  have hrole : v.role = .state := by simpa using List.of_mem_filter hv
  have hresolve := hp.named.resolve?_nextName (List.mem_of_mem_filter hv) hrole
  rw [← hvname, reading?, hresolve]

/-- A closed form denotes the same without next values. -/
theorem denotes_closed (hp : p.Resolved) (hs : st.Reads p value (.stage t))
    (hW : ∀ y w, W y = some w → value y = w) {y : String × ExprId} (hy : y ∈ p.transitions) {r : ℝ}
    (h : p.arena.Denotes ((Scope.stage t).valuation p W) y.2 r) :
    p.arena.Denotes (st.valuation p st.dt) y.2 r :=
  h.congr (hp.closed y hy) fun _ _ hnext hq => hs.valuation_of_scope hp.named hW hnext hq

/-- Behind the rows of the transitions the closed forms have the values of next values. -/
theorem replaces_nextValues (hp : p.Resolved) (hs : st.Reads p value (.stage t))
    (hW : ∀ y w, W y = some w → value y = w)
    (h : ∀ y ∈ p.transitions, Defines p W (.stage t) (stageVar y.1 (t + 1)) y.2) :
    Replaces ArithOp.strictly p.arena ((Scope.stage t).valuation p W) (st.valuation p st.dt)
      (nextValues p.transitions) := by
  refine ⟨fun s e hs => ?_, fun s e u hσ hu => ?_, fun s u hσ hu => ?_⟩
  · obtain ⟨y, hy, heq⟩ := List.mem_map.1 (mem_of_ofList hs)
    cases heq
    exact hp.made.transitions y hy
  · obtain ⟨y, hy, heq⟩ := List.mem_map.1 (mem_of_ofList hσ)
    cases heq
    rw [Scope.valuation_of_name (hp.reading_nextName hy t)] at hu
    obtain ⟨q, rfl, hdenotes⟩ := h y hy _ hu
    exact ⟨real q, Arena.denotes_iff_value.1 (hp.denotes_closed hs hW hy hdenotes), .rfl⟩
  · refine hs.valuation_of_scope hp.named hW (fun v hv => ?_) hu
    -- the next value of a state would be replaced
    obtain ⟨-, hname, hmem, hrole⟩ := Domain.resolve?_eq_next hv
    have hstate : v.name.text ∈ p.domain.stateNames :=
      List.mem_map_of_mem (List.mem_filter.2 ⟨hmem, decide_eq_true hrole⟩)
    rw [← hp.made.names] at hstate
    obtain ⟨y, hy, hyname⟩ := List.mem_map.1 hstate
    refine not_mem_of_ofList hσ y.2 (List.mem_map.2 ⟨y, hy, ?_⟩)
    rw [hname, ← hyname]

/-- The closed forms lead to the states at the next boundary. -/
theorem stateAt_eq (hp : p.Resolved) (hs : st.Reads p value (.stage t))
    (hW : ∀ y w, W y = some w → value y = w)
    (hcovers : ∀ name y, reading? p (.stage t) name = some (.inr y) → (W y).isSome)
    (h : ∀ y ∈ p.transitions, Defines p W (.stage t) (stageVar y.1 (t + 1)) y.2) :
    st.stateAt p st.dt =
      p.domain.states.map fun v => (v.name.text, value (stageVar v.name.text (t + 1))) := by
  have hvalue : ∀ y ∈ p.transitions, p.arena.eval (st.valuation p st.dt) y.2 =
      .ok (value (stageVar y.1 (t + 1))) := by
    intro y hy
    obtain ⟨w, hw⟩ := Option.isSome_iff_exists.1 (hcovers _ _ (hp.reading_nextName hy t))
    obtain ⟨r, rfl, hdenotes⟩ := h y hy w hw
    rw [hW _ _ hw]
    exact (Arena.eval_eq_ok hp.made.domain.arena).2 (hp.denotes_closed hs hW hy hdenotes).value
  have hstates : st.stateAt p st.dt =
      p.transitions.map fun y => (y.1, value (stageVar y.1 (t + 1))) := by
    rw [Stage.stateAt, ← List.filterMap_eq_map]
    refine List.filterMap_congr fun y hy => ?_
    have hy := hvalue y hy
    dsimp only
    rw [hy]
    rfl
  have hnames := congrArg (List.map fun n => (n, value (stageVar n (t + 1)))) hp.made.names
  rw [Domain.stateNames, List.map_map, List.map_map] at hnames
  exact hstates.trans hnames

end Problem.Resolved

end

end HybridPlan
