import HybridPlan.Proofs.Encoding.Fitting

set_option autoImplicit false

/-! # Solutions are plans

The plan that is extracted from a solution of an encoded problem follows the closed forms, respects
all constraints and all cuts, and earns what the objective adds up to. -/

namespace HybridPlan

open Exact (real)
open Encoding

/-! ## Stages -/

section

variable {p : Problem Exact} {cs : List (Cut Exact)} {W : Valuation Exact}
  {value : String → Exact} {st : Stage Exact} {t : Nat} {δ : ℝ}

/-- If a resolved constraint holds at the end of a stage, the simulation agrees. -/
theorem Problem.Resolved.residualAt_nonpos (hp : p.Resolved) (hs : st.Reads p value (.stage t))
    (hW : ∀ y w, W y = some w → value y = w) (hδ : 0 ≤ δ) (h : StageHolds δ p W t) {e : ExprId}
    (he : e ∈ p.temporal) : ∃ r ≤ 0, st.residualAt p e st.dt = .ok (real r) := by
  obtain ⟨c, hc, hresolves⟩ := exists_of_forall₂ hp.temporal he
  have hreplaces := hp.replaces_nextValues hs hW h.transitions
  have hrespects : p.arena.Respects δ _ e :=
    (hresolves ArithOp.lawful_strictly _ (le_refl _) _ _ hreplaces).holdsIf (h.temporal c hc)
  obtain ⟨r, hr, hjudges⟩ := (hrespects.mono hδ).residual_nonpos
  exact ⟨r, hr, Stage.residualAt_eq_ok.2 ⟨r, rfl,
    (Arena.residual_eq_ok hp.made.domain.arena (hp.made.temporal e he)).2 hjudges⟩⟩

/-- A stage whose variables satisfy the rows obeys the constraints. -/
theorem Problem.Resolved.obeys (hp : p.Resolved) (hs : st.Reads p value (.stage t))
    (hindex : st.index = t)
    (hfinish : st.finish = p.domain.states.map fun v =>
      (v.name.text, value (stageVar v.name.text (t + 1))))
    (hW : ∀ y w, W y = some w → value y = w)
    (hcovers : ∀ name y, reading? p (.stage t) name = some (.inr y) → (W y).isSome)
    (hδ : 0 < δ) (h : StageHolds δ p W t) (hwithin : ∀ c ∈ cs, p.arena.Uses (.all Exact) c.expr)
    (hcuts : ∀ c ∈ cs, c.stage = t →
      p.arena.Respects δ ((Scope.stage t).valuation p W) c.expr) : st.Obeys p cs := by
  have hcongr {e : ExprId} (he : p.arena.Uses (.all Exact) e)
      (hrespects : p.arena.Respects δ ((Scope.stage t).valuation p W) e) :
      p.arena.Holds (st.completed p) e :=
    (hrespects.holds hδ).congr he fun _ _ _ hv => hs.completed_of_scope hp.named hfinish hW hv
  refine ⟨?_, fun c hc => ?_, fun e he => hp.residualAt_nonpos hs hW hδ.le h he,
    fun c hc hstage => ?_⟩
  · rw [hp.stateAt_eq hs hW hcovers h.transitions, hfinish]
  · exact hcongr (hp.made.domain.formulas c (by simp [Domain.formulas, hc])) (h.instantaneous c hc)
  · exact hcongr (hwithin c hc) (hcuts c hc (hstage.trans hindex))

end

/-! ## Plans -/

section

variable {p : Problem Exact} {horizon : Nat} {cs : List (Cut Exact)} {e : EncodedProgram Exact}
  {s : Solution Exact} {W : Valuation Exact} {δ : ℝ}

theorem EncodedProgram.obeys_extract (hp : p.Resolved) (hhorizon : 0 < horizon)
    (he : e.horizon = horizon) (hW : ∀ y w, W y = some w → e.valueOf s y = w)
    (hcovers : ∀ scope name y, Scope.Within horizon scope →
      reading? p scope name = some (.inr y) → (W y).isSome)
    (hδ : 0 < δ) (h : PlanHolds δ p horizon cs W)
    (hwithin : ∀ c ∈ cs, p.arena.Uses (.all Exact) c.expr) :
    (e.extract p s).Obeys p cs horizon := by
  have hstage {t : Nat} : (e.stageAt p s t).Reads p (e.valueOf s) (.stage t) :=
    e.reads_stageAt hp.named
  have hformula := hp.made.domain.formulas
  constructor
  · rw [EncodedProgram.stages_extract, List.map_map, he]
    exact List.map_id _
  · intro t st st' ht ht'
    obtain ⟨-, rfl⟩ := EncodedProgram.getElem?_stages_extract ht
    obtain ⟨-, rfl⟩ := EncodedProgram.getElem?_stages_extract ht'
    rfl
  · intro st hst
    rw [EncodedProgram.stages_extract] at hst
    obtain ⟨t, ht, rfl⟩ := List.mem_map.1 hst
    have ht : t < horizon := he ▸ List.mem_range.1 ht
    refine hp.obeys hstage rfl rfl hW (fun name y => hcovers _ name y ht) hδ
      (h.stages t ht) hwithin ?_
    rintro c hc rfl
    exact h.cuts c hc ht
  · intro st hst c hc
    obtain ⟨-, rfl⟩ := EncodedProgram.getElem?_stages_extract hst
    exact ((h.initials c hc).holds hδ).congr (hformula c (by simp [Domain.formulas, hc]))
      fun _ _ _ hv => hstage.completed_of_scope hp.named rfl hW hv
  · intro st hst c hc
    obtain ⟨-, rfl⟩ := EncodedProgram.getElem?_stages_extract hst
    have hended := e.reads_ended_stageAt (s := s) (t := horizon - 1) hp.named
    rw [Nat.sub_add_cancel hhorizon] at hended
    refine ((h.goals c hc).holds hδ).congr (hformula c (by simp [Domain.formulas, hc]))
      fun name q _ hv => hended.valuation_of_scope hp.named hW (fun v hnext => ?_) hv
    -- there are no next values at the end of the plan
    rw [Scope.valuation, reading?, hnext] at hv
    cases hv

/-- What the stages of a plan earn, each by its own variable. -/
theorem EncodedProgram.earns_extract (hp : p.Resolved)
    (hW : ∀ y w, W y = some w → e.valueOf s y = w) {rewards : Nat → ℝ}
    (h : ∀ t < e.horizon,
      p.arena.Denotes ((Scope.stage t).valuation p W) p.domain.reward.expr (rewards t)) :
    (e.extract p s).Earns p ((List.range e.horizon).map rewards) := by
  unfold Plan.Earns
  rw [EncodedProgram.stages_extract, List.forall₂_map_left_iff, List.forall₂_map_right_iff,
    List.forall₂_same]
  intro t ht
  have hformula := hp.made.domain.formulas p.domain.reward (by simp [Domain.formulas])
  exact (h t (List.mem_range.1 ht)).congr hformula fun _ _ _ hv =>
    (e.reads_stageAt hp.named).completed_of_scope hp.named rfl hW hv

end

/-! ## Solutions -/

/-- A solution of the program of a problem describes a plan that respects all constraints and cuts,
and its objective is what the stages of this plan earn. -/
theorem ReadProblem.extract_obeys (P : ReadProblem Exact)
    {vs : List (Violation Exact × OffsetMode × Nat)} {store : CutStore Exact} {q : Problem Exact}
    (hfill : CutStore.fill P.problem vs = (store, q)) {horizon : Nat} (hhorizon : 0 < horizon)
    {δ : ℝ} (hδ : 0 < δ) (hfeastol : P.problem.feastol = real δ) {e : EncodedProgram Exact}
    (h : encode q horizon store = .ok e) {s : Solution Exact}
    (hs : e.program.Satisfies s.value) :
    (e.extract q s).Obeys q store.items.toList horizon ∧
      ∃ rewards, (e.extract q s).Earns q rewards ∧
        e.program.objectiveValue s.value = real rewards.sum := by
  obtain ⟨hgrows, hwithin⟩ := CutStore.fill_grows P.madeOf vs
  rw [hfill] at hgrows hwithin
  have hq := P.resolved.grows hgrows
  have hfeastol' : q.feastol = real δ := by
    obtain ⟨a, rfl, -⟩ := hgrows
    exact hfeastol
  obtain ⟨hlength, objective, state, state', hdeclares, hearned, hrows, hprogram⟩ :=
    encode_eq_rows hq.made.domain.arena h
  rw [hprogram] at hs
  -- the rows make the values of the declared variables those of a plan
  have hmeans := hdeclares.means hhorizon objective s.value
  have hensures := hrows.ensures hq.made.domain.arena hfeastol' hhorizon hmeans
  have hholds := hensures.holds hs.beyond
  have hW : ∀ y w, state.valuation s.value y = some w → e.valueOf s y = w := by
    intro y w hy
    obtain ⟨v, hv, rfl⟩ := hensures.means.named y w hy
    rw [EncodedProgram.valueOf, Solution.valueOf?, hprogram, hv]
    rfl
  refine ⟨EncodedProgram.obeys_extract hq hhorizon hlength hW hmeans.covers hδ hholds
    hwithin, ?_⟩
  -- each stage has a reward, which is the value of its variable
  have hreward : ∀ t < horizon, ∃ r, state.valuation s.value (rewardVar t) = some (real r) ∧
      q.arena.Denotes ((Scope.stage t).valuation q (state.valuation s.value))
        q.domain.reward.expr r := by
    intro t ht
    obtain ⟨y, -, hvar, -⟩ := exists_of_forall₂ hearned.flip (List.mem_range.2 ht)
    have hvalue : state.valuation s.value (rewardVar t) = some (s.value y.1) := by
      rw [State.valuation, hvar]
      rfl
    obtain ⟨r, hr, hdenotes⟩ := (hholds.stages t ht).reward _ hvalue
    exact ⟨r, hr ▸ hvalue, hdenotes⟩
  choose! rewards hvalue hdenotes using hreward
  refine ⟨(List.range horizon).map rewards, ?_, ?_⟩
  · rw [← hlength] at hdenotes ⊢
    exact EncodedProgram.earns_extract hq hW hdenotes
  · refine objectiveValue_eq (s := state) ?_ fun t ht => hvalue t (List.mem_range.1 ht)
    rw [hprogram, hensures.grows.adds.objective]
    exact hearned

/-- The plan to wait for four units of time, where at least three have to be waited. -/
theorem ReadProblem.extract_obeys_waiting : ∃ (P : ReadProblem Exact) (e : EncodedProgram Exact)
    (s : Solution Exact), P.source = Waiting.source .ge ∧ P.config = .default ∧
      CutStore.fill P.problem [] = ({}, P.problem) ∧ (0 : ℝ) < 1 * 10 ^ (-6 : ℤ) ∧
      P.problem.feastol = real (1 * 10 ^ (-6 : ℤ)) ∧ encode P.problem 1 {} = .ok e ∧
      e.program.Satisfies s.value ∧ (e.extract P.problem s).stages = [e.stageAt P.problem s 0] ∧
      (e.stageAt P.problem s 0).dt = real 4 ∧ (e.extract P.problem s).Obeys P.problem [] 1 ∧
      ∃ rewards, (e.extract P.problem s).Earns P.problem rewards ∧
        e.program.objectiveValue s.value = real rewards.sum := by
  obtain ⟨P, e, s, hsource, hconfig, -, hfeastol, -, he, hs, hstages, hdt⟩ :=
    Waiting.exists_encoded
  have hδ : (0 : ℝ) < 1 * 10 ^ (-6 : ℤ) := by positivity
  have hfill : CutStore.fill P.problem [] = ({}, P.problem) := rfl
  obtain ⟨hobeys, hearns⟩ := P.extract_obeys hfill Nat.one_pos hδ hfeastol he hs
  exact ⟨P, e, s, hsource, hconfig, hfill, hδ, hfeastol, he, hs, hstages, hdt, hobeys, hearns⟩

end HybridPlan
