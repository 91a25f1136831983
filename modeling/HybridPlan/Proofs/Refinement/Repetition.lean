import HybridPlan.Proofs.Encoding.Bounds
import HybridPlan.Proofs.Encoding.Fitting
import HybridPlan.Proofs.Encoding.Generated
import HybridPlan.Proofs.Refinement.NoPlan

set_option autoImplicit false

/-! # Repeated searches

A search that ends leaves its cuts in the store, whatever its result is, and a further search of the
same planner begins with them, although it begins again with the first horizon. As long as nothing is
refused, its programs have rows of these cuts besides those of the cuts that it finds itself. Only
with the first refusal they are given up. -/

namespace HybridPlan

variable {α : Type} [Scalar α]

/-! ## Planners between searches -/

/-- A planner for a problem that was read: a new one, or one whose last search has ended, with a plan
or with an error. -/
inductive Planner.Idle (P : ReadProblem α) : Planner α → Prop
  | new (config : Config α) (bisectionSteps : Nat) :
      Idle P { problem := P.problem, config, bisectionSteps }
  | again {p : Planner α} (hp : Idle P p) {ts : List (Search.Turn α)} {o : Outcome α}
      (h : p.begin.run ts = .error o) : Idle P o.planner

/-- The problem is valid, and so are the stored cuts, each of which is stored with its key. -/
structure Planner.Stocked (p : Planner α) : Prop where
  problem : p.problem.Valid
  consistent : p.store.Consistent
  within : p.store.Within p.problem
  cuts : p.store.Valid p.problem

namespace Planner

/-- The stored cuts that a search still has at a horizon: all of them at the first one, and none
later. -/
def kept (p : Planner α) (h : Nat) : List (Cut α) :=
  if h = p.begin.horizon then p.store.items.toList else []

variable {p q : Planner α} {h i : Nat} {added : List (Violation α × Cut α)}

theorem Stocked.like (hp : p.Stocked) (hq : p.Like q) : q.Stocked := by
  obtain ⟨_, _, rfl⟩ := hq
  exact ⟨hp.problem, hp.consistent, hp.within, hp.cuts⟩

theorem Stocked.cleared (hp : p.Stocked) : Stocked { p with store := {} } where
  problem := hp.problem
  consistent := CutStore.consistent_empty
  within := CutStore.within_empty _
  cuts _ hc := absurd hc List.not_mem_nil

theorem Stocked.excluded (hp : p.Stocked) (hq : p.Excluded q h i added)
    (hadded : ∀ x ∈ added, x.1.constraint < p.problem.temporal.length) : q.Stocked := by
  obtain ⟨hgrows, hwithin⟩ := hq.grows hp.problem.made hp.within
  exact ⟨hp.problem.grows hgrows, hq.consistent, hwithin,
    hq.valid hp.problem hp.within hp.cuts hadded⟩

end Planner

namespace Search

variable {s s' : Search α} {t : Turn α}

/-! ## Turns -/

/-- A violation of a proposed plan is one of a constraint that there is. -/
theorem constraint_lt_of_mem_violations {request : Request α} {solution : Solution α}
    {v : Violation α} (hv : v ∈ s.violations request solution) :
    v.constraint < s.planner.problem.temporal.length := by
  obtain ⟨_, -, hviolates⟩ := Plan.violates_of_mem_violations hv
  obtain ⟨e, he, -⟩ := hviolates.residual
  exact (List.getElem?_eq_some_iff.1 he).1

/-- The cut excludes a violation of the plan that is proposed in a turn. -/
def Finds (s : Search α) (t : Turn α) (c : Cut α) : Prop :=
  ∃ request solution, s.Asks t.elapsed request ∧
    proposal? (t.solve request.encoded.program request.params) = some solution ∧
    ∃ v ∈ s.violations request solution, ∃ a, c = v.cut (s.planner.problem.withArena a)
      s.planner.config.offsetMode s.iteration

/-- A turn either goes on to the next horizon with an empty store, or stays and adds cuts that it has
found. -/
inductive Advanced (s : Search α) (t : Turn α) (s' : Search α) : Prop
  | lengthened (horizon : s'.horizon = s.horizon + 1) (store : s'.planner.store = {})
  | refined (found : List (Cut α)) (horizon : s'.horizon = s.horizon)
      (items : s'.planner.store.items.toList = s.planner.store.items.toList ++ found)
      (finds : ∀ c ∈ found, s.Finds t c)

theorem stocked_called (hs : s.planner.Stocked) (request : Request α)
    (answer : Except SolverError (SolveResult α)) : (s.called request answer).planner.Stocked :=
  ⟨hs.problem, hs.consistent, hs.within, hs.cuts⟩

theorem stocked_considered (hs : s.planner.Stocked) (request : Request α) (solution : Solution α) :
    (s.considered request solution).Stocked :=
  ⟨hs.problem, hs.consistent, hs.within, hs.cuts⟩

/-- A turn that goes on changes nothing of the configuration, and the problem only grows. -/
theorem stocked_turn_ok (hs : s.planner.Stocked) (h : s.turn t = .ok s') :
    s'.planner.Stocked ∧ s.planner.problem.Grows s'.planner.problem ∧
      s'.planner.config = s.planner.config ∧ s.Advanced t s' := by
  have hturned := s.turned t hs.consistent
  rw [h] at hturned
  cases hturned with
  | lengthened request hr ha hq =>
    have hstocked := (stocked_called hs request _).cleared.like hq
    obtain ⟨_, _, rfl⟩ := hq
    exact ⟨hstocked, .refl _, rfl, .lengthened rfl rfl⟩
  | proposed request solution hr ha hconsidered =>
    have hstocked := stocked_considered (stocked_called hs request
      (t.solve request.encoded.program request.params)) request solution
    cases hconsidered with
    | refined added hnew hne hq =>
      have hmem (x : Violation α × Cut α) (hx : x ∈ added) : x.1 ∈ s.violations request solution := by
        have hnew : added.map (·.1) = s.newViolations request solution := hnew
        exact mem_of_mem_newViolations (hnew ▸ List.mem_map_of_mem hx)
      refine ⟨hstocked.excluded hq fun x hx => constraint_lt_of_mem_violations (hmem x hx),
        (hq.grows hs.problem.made hs.within).1, hq.same.1, .refined (added.map Prod.snd) rfl hq.items ?_⟩
      intro c hc
      obtain ⟨x, hx, rfl⟩ := List.mem_map.1 hc
      exact ⟨request, solution, hr, ha, x.1, hmem x hx, hq.cuts x hx⟩

/-- A turn that ends the search leaves the stored cuts as they are. -/
theorem stocked_turn_error (hs : s.planner.Stocked) {o : Outcome α} (h : s.turn t = .error o) :
    o.planner.Stocked ∧ o.planner.store.items.toList = s.planner.store.items.toList := by
  have hturned := s.turned t hs.consistent
  rw [h] at hturned
  have hlike {p q : Planner α} (hp : p.Stocked) (hq : p.Like q) :
      q.Stocked ∧ q.store.items.toList = p.store.items.toList := by
    refine ⟨hp.like hq, ?_⟩
    obtain ⟨_, _, rfl⟩ := hq
    rfl
  cases hturned with
  | unasked hr hq he => exact hlike hs hq
  | failed request hr ha hq => exact (hlike (stocked_called hs request _) hq :)
  | proposed request solution hr ha hconsidered =>
    have hstocked := stocked_considered (stocked_called hs request
      (t.solve request.encoded.program request.params)) request solution
    cases hconsidered with
    | verified hv hq => exact (hlike hstocked hq :)
    | stalled hv hnew hq =>
      have hitems := hq.items
      rw [List.map_nil, List.append_nil] at hitems
      exact ⟨hstocked.excluded hq fun x hx => absurd hx List.not_mem_nil, hitems⟩

/-! ## Runs -/

/-- The cut is found in one of the turns of a run, at a horizon. -/
def FoundAt (s : Search α) (ts : List (Turn α)) (h : Nat) (c : Cut α) : Prop :=
  ∃ ts' t s', ts' ++ [t] <+: ts ∧ s.run ts' = .ok s' ∧ s'.horizon = h ∧ s'.Finds t c

theorem FoundAt.mono {ts us : List (Turn α)} {h : Nat} {c : Cut α} (hc : s.FoundAt ts h c)
    (hts : ts <+: us) : s.FoundAt us h c := by
  obtain ⟨ts', t, s', hprefix, hfound⟩ := hc
  exact ⟨ts', t, s', hprefix.trans hts, hfound⟩

/-- The cuts of a search are those that are kept from the store of the planner, and those that the run
has found at the current horizon. -/
structure Gathers (p : Planner α) (ts : List (Turn α)) (s : Search α) : Prop where
  stocked : s.planner.Stocked
  problem : p.problem.Grows s.planner.problem
  config : s.planner.config = p.config
  horizon : p.begin.horizon ≤ s.horizon
  items : ∃ found, s.planner.store.items.toList = p.kept s.horizon ++ found ∧
    ∀ c ∈ found, p.begin.FoundAt ts s.horizon c

variable {p : Planner α} {ts : List (Turn α)}

theorem gathers_begin (hp : p.Stocked) : Gathers p [] p.begin where
  stocked := hp
  problem := .refl _
  config := rfl
  horizon := Nat.le_refl _
  items := ⟨[], by rw [List.append_nil, Planner.kept, if_pos rfl]; rfl, fun _ h => by cases h⟩

theorem Gathers.turn_ok (hs : Gathers p ts s) (hrun : p.begin.run ts = .ok s)
    (h : s.turn t = .ok s') : Gathers p (ts ++ [t]) s' := by
  obtain ⟨hstocked, hgrows, hconfig, hadvanced⟩ := stocked_turn_ok hs.stocked h
  have hhorizon : p.begin.horizon ≤ s'.horizon := by
    cases hadvanced with
    | lengthened horizon => exact horizon ▸ Nat.le_succ_of_le hs.horizon
    | refined _ horizon => exact horizon ▸ hs.horizon
  refine ⟨hstocked, hs.problem.trans hgrows, hconfig.trans hs.config, hhorizon, ?_⟩
  cases hadvanced with
  | lengthened horizon store =>
    have hlater : s'.horizon ≠ p.begin.horizon := by
      have := hs.horizon
      omega
    refine ⟨[], ?_, fun _ h => by cases h⟩
    rw [store, Planner.kept, if_neg hlater]
    rfl
  | refined new horizon items finds =>
    obtain ⟨found, hitems, hfound⟩ := hs.items
    refine ⟨found ++ new, by rw [items, hitems, horizon, List.append_assoc], fun c hc => ?_⟩
    rw [horizon]
    rcases List.mem_append.1 hc with hc | hc
    · exact (hfound c hc).mono (List.prefix_append _ _)
    · exact ⟨ts, t, s, List.prefix_refl _, hrun, rfl, finds c hc⟩

theorem gathers_run (hp : p.Stocked) (h : p.begin.run ts = .ok s) : Gathers p ts s := by
  induction ts using List.reverseRecOn generalizing s with
  | nil =>
    cases h
    exact gathers_begin hp
  | append_singleton ts t ih =>
    rw [run_append] at h
    obtain ⟨s₁, h₁, h⟩ := Except.bind_eq_ok.1 h
    obtain ⟨s₂, hturn, hs₂⟩ := Except.bind_eq_ok.1 h
    cases hs₂
    exact (ih h₁).turn_ok h₁ hturn

/-- A run that has ended leaves the cuts of its last turn. -/
theorem gathers_of_run_error (hp : p.Stocked) {o : Outcome α} (h : p.begin.run ts = .error o) :
    o.planner.Stocked ∧ ∃ n ≥ p.begin.horizon, ∃ found,
      o.planner.store.items.toList = p.kept n ++ found ∧ ∀ c ∈ found, p.begin.FoundAt ts n c := by
  obtain ⟨ts', t, s, hprefix, hrun, hturn⟩ := run_error h
  have hs := gathers_run hp hrun
  obtain ⟨hstocked, hstore⟩ := stocked_turn_error hs.stocked hturn
  obtain ⟨found, hitems, hfound⟩ := hs.items
  refine ⟨hstocked, s.horizon, hs.horizon, found, hstore.trans hitems, fun c hc => ?_⟩
  exact (hfound c hc).mono ((List.prefix_append _ _).trans hprefix)

end Search

theorem Planner.Idle.stocked {P : ReadProblem α} {p : Planner α} (hp : p.Idle P) : p.Stocked := by
  induction hp with
  | new config bisectionSteps =>
    exact ⟨P.valid, CutStore.consistent_empty, CutStore.within_empty _,
      fun _ h => absurd h List.not_mem_nil⟩
  | again hp h ih => exact (Search.gathers_of_run_error ih h).1

/-! ## Rows of cuts -/

/-- Where the rows of cuts in the program of a request come from. Each belongs to a cut that the run has
found at the same horizon, or to one that the planner had stored before it. The stored ones have rows
as long as the horizon is the first one. -/
structure Search.Accounts (p : Planner α) (ts : List (Search.Turn α)) (s : Search α)
    (request : Request α) : Prop where
  origin : ∀ r ∈ request.encoded.program.rows.toList, r.IsGenerated →
    ∃ k c, r.IsOf k c ∧ c.stage < s.horizon ∧ (p.begin.FoundAt ts s.horizon c ∨
      s.horizon = p.begin.horizon ∧ p.store.items.toList[k]? = some c)
  kept : s.horizon = p.begin.horizon → ∀ k c, p.store.items.toList[k]? = some c →
    c.stage < s.horizon → ∃ r ∈ request.encoded.program.rows.toList, r.IsGenerated ∧ r.IsOf k c
  first : ts = [] → ((∃ r ∈ request.encoded.program.rows.toList, r.IsGenerated) ↔
    ∃ c ∈ p.store.items.toList, c.stage < p.begin.horizon)

theorem Search.Gathers.accounts {p : Planner α} {ts : List (Search.Turn α)} {s : Search α}
    (hs : Search.Gathers p ts s) (hrun : p.begin.run ts = .ok s) {elapsed : Nanoseconds}
    {request : Request α} (hr : s.Asks elapsed request) : s.Accounts p ts request := by
  obtain ⟨found, hitems, hfound⟩ := hs.items
  have horigin (r : Row α) (hmem : r ∈ request.encoded.program.rows.toList)
      (hgenerated : r.IsGenerated) : ∃ k c, r.IsOf k c ∧ c.stage < s.horizon ∧
        (p.begin.FoundAt ts s.horizon c ∨
          s.horizon = p.begin.horizon ∧ p.store.items.toList[k]? = some c) := by
    obtain ⟨k, c, hk, hstage, hof⟩ :=
      Encoding.exists_cut_of_isGenerated hr.encode_eq hmem hgenerated
    refine ⟨k, c, hof, hstage, ?_⟩
    rw [hitems] at hk
    by_cases hlt : k < (p.kept s.horizon).length
    · rw [List.getElem?_append_left hlt] at hk
      unfold Planner.kept at hk
      split at hk
      · next hfirst => exact .inr ⟨hfirst, hk⟩
      · cases hk
    · rw [List.getElem?_append_right (Nat.le_of_not_lt hlt)] at hk
      exact .inl (hfound c (List.mem_of_getElem? hk))
  have hkept (hfirst : s.horizon = p.begin.horizon) (k : ℕ) (c : Cut α)
      (hk : p.store.items.toList[k]? = some c) (hstage : c.stage < s.horizon) :
      ∃ r ∈ request.encoded.program.rows.toList, r.IsGenerated ∧ r.IsOf k c := by
    have hstored : s.planner.store.items.toList[k]? = some c := by
      obtain ⟨hlt, -⟩ := List.getElem?_eq_some_iff.1 hk
      rw [hitems, Planner.kept, if_pos hfirst, List.getElem?_append_left hlt]
      exact hk
    have hmem := List.mem_of_getElem? hstored
    exact Encoding.exists_isOf hs.stocked.problem.made.domain.arena hr.encode_eq hstored hstage
      (hs.stocked.within c hmem) (hs.stocked.cuts c hmem)
  refine ⟨horigin, hkept, fun hts => ?_⟩
  subst hts
  obtain rfl : p.begin = s := Except.ok.inj hrun
  constructor
  · rintro ⟨r, hmem, hgenerated⟩
    obtain ⟨k, c, -, hstage, ⟨ts', t, -, hprefix, -⟩ | ⟨-, hk⟩⟩ := horigin r hmem hgenerated
    · simp at hprefix
    · exact ⟨c, List.mem_of_getElem? hk, hstage⟩
  · rintro ⟨c, hc, hstage⟩
    obtain ⟨k, hk⟩ := List.mem_iff_getElem?.1 hc
    obtain ⟨r, hmem, hgenerated, -⟩ := hkept rfl k c hk hstage
    exact ⟨r, hmem, hgenerated⟩

/-- A further search begins with the cuts that the last one has left, whatever its result was, and has
rows of them until the first refusal: its first program has generated rows exactly if one of these cuts
is of a stage that the plan has. All other generated rows are those of cuts that it has found itself at
the same horizon, and the same holds of the cuts that it leaves. -/
theorem Planner.Idle.generated_rows {P : ReadProblem α} {p : Planner α} (hp : p.Idle P)
    (ts : List (Search.Turn α)) :
    match p.begin.run ts with
    | .ok s => ∀ elapsed request, s.Asks elapsed request → s.Accounts p ts request
    | .error o => ∃ n ≥ p.begin.horizon, ∃ found,
        o.planner.store.items.toList = p.kept n ++ found ∧ ∀ c ∈ found, p.begin.FoundAt ts n c := by
  split
  · next s h => exact fun elapsed request hr => (Search.gathers_run hp.stocked h).accounts h hr
  · next o h => exact (Search.gathers_of_run_error hp.stocked h).2

/-! ## A cut that is left -/

/-- A search that has stages and time left makes a request. -/
theorem Search.exists_request {s : Search α} (hs : s.planner.Stocked)
    (hapart : s.planner.problem.domain.Apart) (hroomy : s.planner.problem.Roomy) (hpos : 0 < s.horizon)
    (hlong : s.isTooLong = false) {elapsed : Nanoseconds} {remaining : Option Nanoseconds}
    (htime : Search.remaining? s.planner.config.timeLimit elapsed = some remaining) :
    ∃ request, s.Asks elapsed request := by
  obtain ⟨e, he⟩ := hs.problem.encode_succeeds hapart hroomy hs.cuts hpos
  unfold Search.Asks Search.request
  rw [if_neg (by simp [hlong]), htime]
  dsimp only
  split
  · next e' he' => exact absurd (he.symm.trans he') (by simp)
  · exact ⟨_, _, rfl⟩

/-- A search whose time is up ends. -/
theorem Search.turn_of_timeUp {s : Search α} {t : Search.Turn α} (hlong : s.isTooLong = false)
    (htime : s.planner.TimeUp t.elapsed) :
    s.turn t = .error ⟨s.planner, .error (.noPlanFound s.horizon t.elapsed)⟩ := by
  have hrequest : s.request t.elapsed =
      .error ⟨s.planner, .error (.noPlanFound s.horizon t.elapsed)⟩ := by
    unfold Search.request
    rw [if_neg (by simp [hlong]), htime]
    rfl
  rw [Search.turn, hrequest]
  rfl

section

open Exact (real)

/-- A solution that waits for the same time in all stages. -/
theorem Problem.Waits.dt_stageAt {op : Comparison} {p : Problem Exact} (h : p.Waits op)
    (hp : p.arena.WellFormed) {horizon : ℕ} {store : CutStore Exact} {e : EncodedProgram Exact}
    (he : encode p horizon store = .ok e) {t : ℕ} (ht : t < horizon) (d objective : Exact) :
    (e.stageAt p ⟨Array.replicate e.program.vars.size d, objective⟩ t).dt = d := by
  obtain ⟨v, hvars, -, hname, -, hrole, hglobal⟩ := h.exists_duration
  have hmem : stageVar p.domain.dt t ∈ Encoding.planNames p horizon := by
    rw [h.dt, ← hname]
    exact Encoding.decision_mem_planNames (hvars ▸ List.mem_singleton_self v) (by simp [hrole])
      (by simp [hglobal]) ht
  obtain ⟨w, hw, hwname⟩ := hmem
  obtain ⟨i, hindex⟩ := EncodedProgram.exists_varOf? hp he hw
  have hlt := (EncodedProgram.wellFormed hp he).lt_size hindex
  change EncodedProgram.valueOf e _ (stageVar p.domain.dt t) = d
  rw [← hwname, EncodedProgram.valueOf, Solution.valueOf?, hindex, Option.map_some, Option.getD_some,
    Solution.value]
  simp [hlt]

namespace Waiting

/-- A configuration that looks at every other unit of time, and leaves next to no time to a search. -/
noncomputable def hasty : Config Exact :=
  { Config.default with epsilon := real (2 : ℕ), timeLimit := some 1 }

/-- The solution that waits for four units of time in each stage. -/
noncomputable def solution (program : Program Exact) : Solution Exact :=
  ⟨Array.replicate program.vars.size (real (4 : ℕ)), real (4 : ℕ)⟩

/-- A search in the problem of waiting for three units of time at most. -/
structure Sought (s : Search Exact) : Prop where
  stocked : s.planner.Stocked
  config : s.planner.config = hasty
  resolved : s.planner.problem.Resolved
  waits : s.planner.problem.Waits .le
  bigM : s.planner.problem.bigM = real (1000 : ℕ)
  epsilon : s.planner.problem.epsilon = real (2 : ℕ)
  pos : 0 < s.horizon

variable {s : Search Exact}

theorem Sought.isTooLong (hs : Sought s) : s.isTooLong = false := by
  rw [Search.isTooLong, hs.config]
  rfl

theorem Sought.exists_request (hs : Sought s) : ∃ request, s.Asks 0 request := by
  obtain ⟨place, hvars⟩ := hs.waits.vars
  have hroomy : s.planner.problem.Roomy := by
    refine Problem.roomy ?_
    rw [hs.bigM, Exact.zero_eq, ← Bool.not_eq_true, Exact.lt_real]
    norm_num
  have htime : Search.remaining? s.planner.config.timeLimit 0 = some (some 1) := by
    rw [hs.config]
    rfl
  exact Search.exists_request hs.stocked (Domain.apart_of_vars_eq hvars) hroomy hs.pos hs.isTooLong htime

/-- To wait for four units of time is too long in the first stage. -/
theorem Sought.exists_violation (hs : Sought s) {request : Request Exact} (hr : s.Asks 0 request) :
    ∃ v ∈ s.violations request (solution request.encoded.program), v.stage = 0 := by
  obtain ⟨hhorizon, -⟩ := encode_eq_ok hr.encode_eq
  have hstage : request.encoded.stageAt s.planner.problem (solution request.encoded.program) 0 ∈
      (s.plan request (solution request.encoded.program)).stages := by
    rw [Search.plan, EncodedProgram.stages_extract, hhorizon]
    exact List.mem_map_of_mem (List.mem_range.2 hs.pos)
  have hdt := hs.waits.dt_stageAt hs.stocked.problem.made.domain.arena hr.encode_eq hs.pos
    (real (4 : ℕ)) (real (4 : ℕ))
  rw [Nat.cast_ofNat] at hdt
  have htolerance : s.planner.simulationParams.tolerance = real (1 * 10 ^ (-6 : ℤ)) := by
    rw [Planner.simulationParams, hs.config]
    change real ((1 : ℕ) * 10 ^ (-6 : ℤ)) = _
    rw [Nat.cast_one]
  have hsamples : sampleOffsets s.planner.simulationParams.epsilon (real 4) =
      ([2] ++ 4 :: (([] : List ℝ) ++ [])).map real := by
    rw [Planner.simulationParams, hs.epsilon]
    exact sampleOffsets_params
  obtain ⟨v, hv, hvstage, -⟩ := hs.waits.exists_violation hs.resolved hstage
    (show (0 : ℝ) < 4 by norm_num) hdt htolerance hsamples (by norm_num [Comparison.excess])
    (by norm_num [Comparison.excess]) (by simp) (by simp)
  exact ⟨v, hv, hvstage⟩

/-- Searches of a planner with this configuration, and with a problem that only grows. -/
theorem sought_of_gathers {P : ReadProblem Exact} (hwaits : P.problem.Waits .le)
    (hbigM : P.problem.bigM = real (1000 : ℕ)) (hepsilon : P.problem.epsilon = real (2 : ℕ))
    {p : Planner Exact} (hproblem : P.problem.Grows p.problem) (hconfig : p.config = hasty)
    {ts : List (Search.Turn Exact)} (hs : Search.Gathers p ts s) : Sought s := by
  have hgrows := hproblem.trans hs.problem
  have hpos : 0 < p.begin.horizon := Nat.lt_of_lt_of_le Nat.one_pos (Nat.le_max_right _ 1)
  refine ⟨hs.stocked, hs.config.trans hconfig, P.resolved.grows hgrows, hwaits.grows hgrows, ?_, ?_,
    Nat.lt_of_lt_of_le hpos hs.horizon⟩
  · obtain ⟨a, ha, -⟩ := hgrows
    rw [ha]
    exact hbigM
  · obtain ⟨a, ha, -⟩ := hgrows
    rw [ha]
    exact hepsilon

/-- The solver refuses. -/
def refuse : Search.Turn Exact := ⟨0, fun _ _ => .ok .infeasible⟩

/-- The solver proposes to wait for four units of time in each stage. -/
noncomputable def wait : Search.Turn Exact :=
  ⟨0, fun program _ => .ok (.optimal (solution program))⟩

/-- The time is up. -/
def late : Search.Turn Exact := ⟨1, fun _ _ => .ok .infeasible⟩

theorem Sought.turn_refuse (hs : Sought s) (hinvariant : s.Invariant) :
    ∃ s', s.turn refuse = .ok s' ∧ s'.horizon = s.horizon + 1 ∧ s'.planner.store = {} := by
  obtain ⟨request, hr⟩ := hs.exists_request
  obtain ⟨s', hturn, hhorizon, -, hstore⟩ :=
    (hinvariant.goesOn (t := refuse) hr).lengthened (.inl rfl)
  exact ⟨s', hturn, hhorizon, hstore⟩

/-- If nothing is stored, the wait becomes a cut of the first stage. -/
theorem Sought.turn_wait (hs : Sought s) (hinvariant : s.Invariant) (hstore : s.planner.store = {}) :
    ∃ s' c, s.turn wait = .ok s' ∧ s.Finds wait c ∧ c.stage = 0 ∧
      c ∈ s'.planner.store.items.toList := by
  obtain ⟨request, hr⟩ := hs.exists_request
  obtain ⟨v, hv, hvstage⟩ := hs.exists_violation hr
  have hkey : v.key s.planner.config.offsetMode ∉ s.planner.store.cutKeys := by
    rw [hstore]
    exact List.not_mem_nil
  obtain ⟨s', added, hturn, -, -, hitems, -, hnew, hcuts⟩ :=
    (hinvariant.goesOn (t := wait) hr).refined _ rfl ⟨v, hv, hkey⟩
  obtain ⟨w, hw, hwkey⟩ := exists_mem_newViolations hv hkey
  obtain ⟨x, hx, rfl⟩ := List.mem_map.1 (hnew.symm ▸ hw : w ∈ added.map (·.1))
  obtain ⟨a, hcut⟩ := hcuts x hx
  refine ⟨s', x.2, hturn, ⟨request, _, hr, rfl, x.1, mem_of_mem_newViolations hw, a, hcut⟩, ?_, ?_⟩
  · have hwstage : x.1.stage = v.stage := congrArg CutKey.stage hwkey
    rw [hcut]
    exact hwstage.trans hvstage
  · rw [hitems]
    exact List.mem_append_right _ (List.mem_map_of_mem hx)

theorem Sought.turn_late (hs : Sought s) :
    s.turn late = .error ⟨s.planner, .error (.noPlanFound s.horizon 1)⟩ := by
  have htime : s.planner.TimeUp late.elapsed := by
    rw [Planner.TimeUp, hs.config]
    rfl
  exact Search.turn_of_timeUp hs.isTooLong htime

/-- A search is refused one stage, finds a wait of four units of time in two stages too long, and has no
time left. It leaves a cut of the first stage. -/
theorem exists_stale : ∃ (P : ReadProblem Exact) (p : Planner Exact) (ts : List (Search.Turn Exact))
    (o : Outcome Exact) (c : Cut Exact), P.source = source .le ∧ p.Idle P ∧
      p.begin.run ts = .error o ∧ p.begin.FoundAt ts 2 c ∧ c ∈ o.planner.store.items.toList ∧
      c.stage = 0 ∧ Sought o.planner.begin := by
  obtain ⟨P, hsource, -, -, hwaits, -, hbigM, hepsilon⟩ := exists_problem hasty rfl .le
  have hbigM := hbigM.trans (Exact.nat_eq 1000)
  let p : Planner Exact := { problem := P.problem, config := hasty, bisectionSteps := 32 }
  have hp : p.Idle P := .new hasty 32
  have hsought {ts : List (Search.Turn Exact)} {s : Search Exact} (hs : Search.Gathers p ts s) :
      Sought s := sought_of_gathers hwaits hbigM hepsilon (.refl _) rfl hs
  have hinvariant := Search.invariant_begin P.problem hasty 32
  obtain ⟨s₁, hturn₁, hhorizon, hstore⟩ :=
    (hsought (Search.gathers_begin hp.stocked)).turn_refuse hinvariant
  have hrun₁ : p.begin.run [refuse] = .ok s₁ := Except.bind_eq_ok.2 ⟨s₁, hturn₁, rfl⟩
  have hinvariant₁ := (hinvariant.turn_ok (Search.callInvariant_begin _ _ _) hturn₁).1
  obtain ⟨s₂, c, hturn₂, hfinds, hstage, hstored⟩ :=
    (hsought (Search.gathers_run hp.stocked hrun₁)).turn_wait hinvariant₁ hstore
  have hrun₂ : p.begin.run [refuse, wait] = .ok s₂ :=
    Except.bind_eq_ok.2 ⟨s₁, hturn₁, Except.bind_eq_ok.2 ⟨s₂, hturn₂, rfl⟩⟩
  have hs₂ := Search.gathers_run hp.stocked hrun₂
  let o : Outcome Exact := ⟨s₂.planner, .error (.noPlanFound s₂.horizon 1)⟩
  have hrun : p.begin.run [refuse, wait, late] = .error o := by
    rw [show [refuse, wait, late] = [refuse, wait] ++ [late] from rfl, Search.run_append, hrun₂]
    change (s₂.turn late >>= fun s => s.run []) = _
    rw [(hsought hs₂).turn_late]
    rfl
  exact ⟨P, p, _, o, c, hsource, hp, hrun, ⟨[refuse], wait, s₁, ⟨[late], rfl⟩, hrun₁, hhorizon, hfinds⟩,
    hstored, hstage, sought_of_gathers hwaits hbigM hepsilon hs₂.problem hs₂.config
      (Search.gathers_begin hs₂.stocked)⟩

end Waiting

/-- After a search that was refused one stage, the next one begins with one stage again, and its first
program has a row of a cut that was made for two. -/
theorem Planner.Idle.generated_rows_stale : ∃ (P : ReadProblem Exact) (p : Planner Exact)
    (ts : List (Search.Turn Exact)) (o : Outcome Exact) (c : Cut Exact) (request : Request Exact),
    P.source = Waiting.source .le ∧ p.Idle P ∧ p.begin.run ts = .error o ∧
      p.begin.FoundAt ts 2 c ∧ c ∈ o.planner.store.items.toList ∧ o.planner.Idle P ∧
      o.planner.begin.horizon = 1 ∧ o.planner.begin.Asks 0 request ∧
      o.planner.begin.Accounts o.planner [] request ∧
      ∃ r ∈ request.encoded.program.rows.toList, r.IsGenerated := by
  obtain ⟨P, p, ts, o, c, hsource, hp, hrun, hfound, hstored, hstage, hsought⟩ := Waiting.exists_stale
  have ho : o.planner.Idle P := .again hp hrun
  have hfirst : o.planner.begin.horizon = 1 := by
    rw [Planner.begin, show o.planner.config = Waiting.hasty from hsought.config]
    rfl
  obtain ⟨request, hr⟩ := hsought.exists_request
  have haccounts := Planner.Idle.generated_rows ho []
  change ∀ elapsed request, o.planner.begin.Asks elapsed request → _ at haccounts
  have hrows := haccounts 0 request hr
  refine ⟨P, p, ts, o, c, request, hsource, hp, hrun, hfound, hstored, ho, hfirst, hr, hrows,
    (hrows.first rfl).2 ⟨c, hstored, ?_⟩⟩
  rw [hstage, hfirst]
  exact Nat.one_pos

end

end HybridPlan
