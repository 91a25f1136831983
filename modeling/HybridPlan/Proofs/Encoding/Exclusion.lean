import HybridPlan.Proofs.Anchor
import HybridPlan.Proofs.Encoding.Fitting
import HybridPlan.Proofs.Encoding.Stability

set_option autoImplicit false

/-! # Cuts exclude plans

A plan that was simulated and found to violate a temporal constraint is not proposed again: with an
absolute anchor the cut of the violation has the residual of the violation in the stage, whatever the
duration is, so the rows of the cut rule out every assignment that describes the plan. -/

namespace HybridPlan

open Exact (real)
open Encoding

/-! ## Values of the plan -/

section

variable {p : Problem Exact} {horizon : Nat} {store : CutStore Exact} {e : EncodedProgram Exact}
  {s : Solution Exact} {s₀ : State Exact} {x : VarId → Exact}

/-- Assignments that agree on the variables of a program describe the same values. -/
theorem EncodedProgram.valueOf_of_declares (hp : p.arena.WellFormed)
    (h : encode p horizon store = .ok e)
    (hs₀ : (State.begin Exact horizon).Declares (planVars p horizon) s₀)
    (hx : ∀ i < e.program.vars.size, x i = s.value i) {y : String} {w : Exact}
    (hy : s₀.valuation x y = some w) : e.valueOf s y = w := by
  obtain ⟨-, objective, s₁, s₂, hs₁, -, hrows, hprogram⟩ := encode_eq_rows hp h
  obtain ⟨i, hi, rfl⟩ := Option.map_eq_some_iff.1 hy
  obtain ⟨z, hz, hname⟩ := (hs₀.wellFormed.program.index y i).1 hi
  -- all declarations for the horizon number the variables in the same way
  have hvars : s₀.program.vars = s₁.program.vars :=
    Array.toList_inj.1 (hs₀.vars_eq.trans hs₁.vars_eq.symm)
  have hi₁ : s₁.program.varOf? y = some i :=
    (hs₁.wellFormed.program.index y i).2 ⟨z, hvars ▸ hz, hname⟩
  have hgrows := hrows.grows hp (hs₁.wellFormed.withObjective objective)
  have hi₂ : e.program.varOf? y = some i := by
    rw [hprogram]
    exact hgrows.adds.varOf? (hs₁.wellFormed.withObjective objective).program
      hgrows.wellFormed.program hi₁
  have hlt : i < e.program.vars.size := by
    rw [hprogram] at hi₂ ⊢
    exact hgrows.wellFormed.program.lt_size hi₂
  rw [EncodedProgram.valueOf, Solution.valueOf?, hi₂, hx i hlt]
  rfl

end

/-! ## Rows of a cut -/

section

variable {p : Problem Exact} {W : Valuation Exact} {value : String → Exact} {st : Stage Exact}
  {t horizon : Nat} {δ ρ : ℝ}

/-- The rows of a constraint cannot make it hold where its residual is positive. -/
theorem Stage.Reads.not_respects (hp : p.Resolved) (hs : st.Reads p value (.stage t))
    (hW : ∀ y w, W y = some w → value y = w)
    (hcovers : ∀ name y, reading? p (.stage t) name = some (.inr y) → (W y).isSome) (hδ : 0 ≤ δ)
    {e : ExprId} (he : p.arena.Uses (.all Exact) e) (h : st.residualAt p e st.dt = .ok (real ρ))
    (hρ : 0 < ρ) : ¬p.arena.Respects δ ((Scope.stage t).valuation p W) e := by
  intro hrespects
  obtain ⟨r, hr, hjudges⟩ := (hrespects.mono hδ).residual_nonpos
  obtain ⟨_, hreal, hresidual⟩ := Stage.residualAt_eq_ok.1 h
  cases hreal
  have hjudges' := ((Arena.residual_eq_ok hp.made.domain.arena he).1 hresidual).congr he
    fun name u _ hu => hs.scope_of_valuation hp.named hW (hcovers name) hu
  obtain rfl := hjudges.unique hjudges'
  exact absurd hρ (not_lt.2 hr)

/-- An assignment that describes a stage violates the rows of a cut with a positive residual
there. -/
theorem not_satisfiesBeyond_of_residual (hp : p.Resolved) (hδ : 0 ≤ δ)
    (hfeastol : p.feastol = real δ) {store store' : CutStore Exact} (hwithin : store.Within p)
    {c : Cut Exact} (hc : p.arena.Uses (.all Exact) c.expr) (hitems : store'.items = store.items.push c)
    (hstage : c.stage < horizon) {e e' : EncodedProgram Exact}
    (h : encode p horizon store = .ok e) (h' : encode p horizon store' = .ok e')
    {x : VarId → Exact} (hs : st.Reads p value (.stage c.stage))
    (hvalue : ∀ s₀, (State.begin Exact horizon).Declares (planVars p horizon) s₀ →
      ∀ y w, s₀.valuation x y = some w → value y = w)
    (hresidual : st.residualAt p c.expr st.dt = .ok (real ρ)) (hρ : 0 < ρ) :
    ¬e.program.SatisfiesBeyond e'.program x := by
  intro hx
  have hadded : store'.items.toList = store.items.toList ++ [c] := by
    rw [hitems, Array.toList_push]
  obtain ⟨objective, s₀, s, s', hdeclares, hrows, hcuts, hprogram, hprogram'⟩ :=
    encode_append hp.made hwithin hadded h h'
  have hhorizon := Nat.zero_lt_of_lt hstage
  have hmeans₀ := hdeclares.means hhorizon objective x
  have hmeans := (hrows.ensures hp.made.domain.arena hfeastol hhorizon hmeans₀).means
  -- behind the other rows come those of the cut only
  obtain ⟨k, hcut⟩ : ∃ k, CutFor p horizon (c, k) s s' := by
    rw [List.zipIdx_cons, List.zipIdx_nil] at hcuts
    cases hcuts with
    | cons hcut hnil =>
      cases hnil
      exact ⟨_, hcut⟩
  rw [hprogram, hprogram'] at hx
  have hrespects := (hcut.ensures hp.made.domain.arena hfeastol hmeans).holds hx hstage
  exact hs.not_respects hp (hvalue s₀ hdeclares)
    (fun name y => hmeans₀.covers _ name y hstage) hδ hc hresidual hρ hrespects

end

/-! ## Progress -/

/-- The cut of a violation with an absolute anchor does not depend on the duration and has the
residual of the violation in the stage, so that its rows exclude the plan, whatever the values of new
variables are. Further cuts may be made before this one. -/
theorem ReadProblem.absolute_cut_excludes (P : ReadProblem Exact)
    {vs : List (Violation Exact × OffsetMode × Nat)} {store store₁ : CutStore Exact}
    {q q₁ : Problem Exact} (hfill : CutStore.fill P.problem vs = (store, q)) (hgrows : q.Grows q₁)
    (hwithin : store₁.Within q₁) {δ tolerance : ℝ} (hδ : 0 ≤ δ)
    (hfeastol : P.problem.feastol = real δ) {params : SimulationParams Exact}
    (htolerance : 0 ≤ tolerance) (hparams : params.tolerance = real tolerance) {horizon : Nat}
    {e e₁ : EncodedProgram Exact} (h : encode q horizon store = .ok e)
    (h₁ : encode q₁ horizon store₁ = .ok e₁) {s : Solution Exact} {v : Violation Exact}
    (hv : v ∈ (e.extract q s).violations q params) (iteration : Nat) :
    (q₁.withCut v .absolute).arena.dependsOn (v.cut q₁ .absolute iteration).expr
        q₁.domain.dt = false ∧
      (∃ st ∈ (e.extract q s).stages, st.index = v.stage ∧
        ∃ ρ, tolerance < ρ ∧ v.residual = real ρ ∧ ∀ d, st.residualAt (q₁.withCut v .absolute)
          (v.cut q₁ .absolute iteration).expr d = .ok v.residual) ∧
      ∀ store' e' x, store'.items = store₁.items.push (v.cut q₁ .absolute iteration) →
        encode (q₁.withCut v .absolute) horizon store' = .ok e' →
        (∀ i < e.program.vars.size, x i = s.value i) →
        ¬e₁.program.SatisfiesBeyond e'.program x := by
  obtain ⟨hgrows₀, -⟩ := CutStore.fill_grows P.madeOf vs
  rw [hfill] at hgrows₀
  have hq := P.resolved.grows hgrows₀
  have hq₁ := hq.grows hgrows
  obtain ⟨hgrows', huses⟩ := v.grows_withCut .absolute hq₁.made
  obtain ⟨st, hst, hviolates⟩ := Plan.violates_of_mem_violations hv
  obtain ⟨c, hc, hresidual, _⟩ := hviolates.residual
  have hc₁ : q₁.temporal[v.constraint]? = some c := by
    obtain ⟨a, rfl, -⟩ := hgrows
    exact hc
  -- the residual is that of the violation, at the anchor before and at all times behind
  have hcutResidual (d : Exact) : st.residualAt (q₁.withCut v .absolute)
      (v.cut q₁ .absolute iteration).expr d = .ok v.residual :=
    Violation.residualAt_cutExpr hq₁.made hc₁ (Stage.residualAt_grows hq.made hgrows
      (hq.made.temporal c (List.mem_of_getElem? hc)) hresidual)
  obtain ⟨ρ, hρ, -⟩ := Stage.residualAt_eq_ok.1 hresidual
  have hexceeds : tolerance < ρ := by
    have hlt := hviolates.exceeds
    rwa [Stage.exceeds, hparams, hρ, Exact.lt_real] at hlt
  refine ⟨Violation.dependsOn_cutExpr hq₁.made hc₁,
    ⟨st, hst, hviolates.stage.symm, ρ, hexceeds, hρ, hcutResidual⟩, ?_⟩
  intro store' e' x hitems h' hx
  rw [EncodedProgram.stages_extract] at hst
  obtain ⟨t, ht, rfl⟩ := List.mem_map.1 hst
  have hhorizon : e.horizon = horizon := (encode_eq_rows hq.made.domain.arena h).1
  have hstage : v.stage = t := hviolates.stage
  have hlt : v.stage < horizon := hstage ▸ hhorizon ▸ List.mem_range.1 ht
  have hfeastol' : (q₁.withCut v .absolute).feastol = real δ := by
    obtain ⟨_, rfl, -⟩ := hgrows₀
    obtain ⟨_, rfl, -⟩ := hgrows
    exact hfeastol
  have hwithin' : store₁.Within (q₁.withCut v .absolute) := by
    obtain ⟨a, heq, hle, -⟩ := hgrows'
    rw [heq]
    exact fun c hc => (hwithin c hc).mono hle
  have hreads : (e.stageAt q s t).Reads (q₁.withCut v .absolute) (e.valueOf s)
      (.stage (v.cut q₁ .absolute iteration).stage) := by
    obtain ⟨_, rfl, -⟩ := hgrows
    rw [show (v.cut _ .absolute iteration).stage = t from hstage]
    exact e.reads_stageAt (hq₁.grows hgrows').named
  have hvalue : ∀ s₀, (State.begin Exact horizon).Declares
      (planVars (q₁.withCut v .absolute) horizon) s₀ →
        ∀ y w, s₀.valuation x y = some w → e.valueOf s y = w := by
    obtain ⟨_, rfl, -⟩ := hgrows
    exact fun s₀ hs₀ y w => e.valueOf_of_declares hq.made.domain.arena h hs₀ hx
  rw [← encode_of_grows hq₁.made hgrows' hwithin] at h₁
  refine not_satisfiesBeyond_of_residual (hq₁.grows hgrows') hδ hfeastol' hwithin' huses hitems hlt
    h₁ h' hreads hvalue ?_ (lt_of_le_of_lt htolerance hexceeds)
  rw [← hρ]
  exact hcutResidual _

/-- To wait for four units of time is refused where two units of time are not enough. -/
theorem ReadProblem.absolute_cut_excludes_waiting : ∃ (P : ReadProblem Exact)
    (e : EncodedProgram Exact) (s : Solution Exact) (v : Violation Exact),
    P.source = Waiting.source .ge ∧ P.config = .default ∧
      CutStore.fill P.problem [] = ({}, P.problem) ∧ P.problem.Grows P.problem ∧
      CutStore.Within {} P.problem ∧ (0 : ℝ) ≤ 1 * 10 ^ (-6 : ℤ) ∧
      P.problem.feastol = real (1 * 10 ^ (-6 : ℤ)) ∧ Waiting.params.tolerance = real 0 ∧
      encode P.problem 1 {} = .ok e ∧ e.program.Satisfies s.value ∧
      v ∈ (e.extract P.problem s).violations P.problem Waiting.params ∧
      v.offset = real 2 ∧ v.residual = real (1 / 3) ∧
      (P.problem.withCut v .absolute).arena.dependsOn (v.cut P.problem .absolute 1).expr
        P.problem.domain.dt = false ∧
      (∃ st ∈ (e.extract P.problem s).stages, st.index = v.stage ∧
        ∃ ρ, 0 < ρ ∧ v.residual = real ρ ∧ ∀ d, st.residualAt (P.problem.withCut v .absolute)
          (v.cut P.problem .absolute 1).expr d = .ok v.residual) ∧
      ∀ store' e' x, store'.items = #[v.cut P.problem .absolute 1] →
        encode (P.problem.withCut v .absolute) 1 store' = .ok e' →
        (∀ i < e.program.vars.size, x i = s.value i) →
        ¬e.program.SatisfiesBeyond e'.program x := by
  obtain ⟨P, e, s, hsource, hconfig, hwaits, hfeastol, -, he, hs, hstages, hdt⟩ :=
    Waiting.exists_encoded
  have hfill : CutStore.fill P.problem [] = ({}, P.problem) := rfl
  have hδ : (0 : ℝ) ≤ 1 * 10 ^ (-6 : ℤ) := by positivity
  have hgrows := Problem.Grows.refl P.problem
  have hwithin := CutStore.within_empty P.problem
  have hstage : e.stageAt P.problem s 0 ∈ (e.extract P.problem s).stages :=
    hstages ▸ List.mem_singleton_self _
  have hexcess : Comparison.ge.excess 2 3 = 1 / 3 := by norm_num [Comparison.excess]
  have hsamples : sampleOffsets Waiting.params.epsilon (real 4) =
      (([] : List ℝ) ++ 2 :: ([] ++ [4])).map real := Waiting.sampleOffsets_params
  obtain ⟨v, hv, -, -, -, hoffset, -, hresidual⟩ := hwaits.exists_violation P.resolved hstage
    (show (0 : ℝ) < 4 by norm_num) hdt rfl hsamples (by simp) (by norm_num [hexcess]) (by simp)
    (by norm_num [Comparison.excess])
  rw [hexcess] at hresidual
  obtain ⟨hfree, hcut, hexcludes⟩ := P.absolute_cut_excludes hfill hgrows hwithin hδ hfeastol
    (le_refl 0) rfl he he hv 1
  exact ⟨P, e, s, v, hsource, hconfig, hfill, hgrows, hwithin, hδ, hfeastol, rfl, he, hs, hv,
    hoffset, hresidual, hfree, hcut, hexcludes⟩

end HybridPlan
