import HybridPlan.Proofs.Refinement.Extension
import Mathlib.Algebra.Order.BigOperators.Group.Finset
import Mathlib.Algebra.BigOperators.Group.Finset.Basic
import Mathlib.Data.Finset.Prod
import Mathlib.Order.Interval.Finset.Nat

set_option autoImplicit false

/-! # Termination

A search has no limit on its iterations. It ends because an iteration that goes on has stored a cut
with a new key, and the stages of a horizon have finitely many keys: the stage, the constraint and
an anchor of 64 bits, the mode being that of the configuration. No horizon is tried a second time,
so a search with a largest horizon ends. -/

namespace HybridPlan

variable {α : Type} [Scalar α]

/-! ## Keys of a horizon -/

/-- A key of the given mode for the given numbers of stages and of constraints. -/
structure CutKey.Fits (horizon constraints : Nat) (mode : OffsetMode) (k : CutKey) : Prop where
  stage : k.stage < horizon
  constraint : k.constraint < constraints
  mode : k.mode = mode

/-- There are finitely many keys for a horizon, since anchors have 64 bits. -/
theorem CutKey.length_le {horizon constraints : Nat} {mode : OffsetMode} {keys : List CutKey}
    (hnodup : keys.Nodup) (hkeys : ∀ k ∈ keys, k.Fits horizon constraints mode) :
    keys.length ≤ horizon * constraints * 2 ^ 64 := by
  let position (k : CutKey) : Nat × Nat × Nat := (k.stage, k.constraint, k.anchor.toBitVec.toNat)
  let positions := Finset.range horizon ×ˢ Finset.range constraints ×ˢ Finset.range (2 ^ 64)
  have hinjective : (keys.map position).Nodup := by
    refine hnodup.map_on fun k hk k' hk' h => ?_
    have hmode : k.mode = k'.mode := (hkeys k hk).mode.trans (hkeys k' hk').mode.symm
    obtain ⟨stage, constraint, mode, anchor⟩ := k
    obtain ⟨stage', constraint', mode', anchor'⟩ := k'
    simp only [position, Prod.mk.injEq] at h hmode
    obtain ⟨rfl, rfl, hanchor⟩ := h
    obtain rfl := hmode
    obtain rfl := Int64.toBitVec_inj.1 (BitVec.eq_of_toNat_eq hanchor)
    rfl
  have hsub : (keys.map position).toFinset ⊆ positions := by
    intro x hx
    obtain ⟨k, hk, rfl⟩ := List.mem_map.1 (List.mem_toFinset.1 hx)
    refine Finset.mem_product.2 ⟨Finset.mem_range.2 (hkeys k hk).stage, ?_⟩
    exact Finset.mem_product.2 ⟨Finset.mem_range.2 (hkeys k hk).constraint,
      Finset.mem_range.2 k.anchor.toBitVec.isLt⟩
  calc keys.length = (keys.map position).toFinset.card := by
        rw [List.toFinset_card_of_nodup hinjective, List.length_map]
    _ ≤ positions.card := Finset.card_le_card hsub
    _ = horizon * constraints * 2 ^ 64 := by
        simp only [positions, Finset.card_product, Finset.card_range, Nat.mul_assoc]

/-! ## Calls at a horizon -/

/-- The number of calls at a horizon. -/
def callsAt (calls : List (CallRecord α)) (h : Nat) : Nat := (calls.map (·.horizon)).count h

/-- The most calls that a search makes at a horizon: one for each key, and the last one. -/
def Problem.callLimit (p : Problem α) (h : Nat) : Nat := h * p.temporal.length * 2 ^ 64 + 1

/-- The most calls that a search from the first horizon to the last one makes. -/
def Problem.callLimitUpTo (p : Problem α) (first last : Nat) : Nat :=
  ∑ h ∈ Finset.Icc first last, p.callLimit h

theorem callsAt_append (calls : List (CallRecord α)) (c : CallRecord α) (h : Nat) :
    callsAt (calls ++ [c]) h = callsAt calls h + if c.horizon = h then 1 else 0 := by
  simp [callsAt, List.count_singleton]

theorem length_le_callLimitUpTo {p : Problem α} {first last : Nat} {calls : List (CallRecord α)}
    (hcalls : ∀ c ∈ calls, c.horizon ∈ Finset.Icc first last)
    (hlimit : ∀ h, callsAt calls h ≤ p.callLimit h) :
    calls.length ≤ p.callLimitUpTo first last := by
  have hhorizons : ∀ h ∈ (calls.map (·.horizon) : Multiset Nat), h ∈ Finset.Icc first last := by
    intro h hh
    obtain ⟨c, hc, rfl⟩ := List.mem_map.1 (Multiset.mem_coe.1 hh)
    exact hcalls c hc
  calc calls.length = (calls.map (·.horizon) : Multiset Nat).card := by simp
    _ = ∑ h ∈ Finset.Icc first last, callsAt calls h := by
        rw [← Multiset.sum_count_eq_card hhorizons]
        exact Finset.sum_congr rfl fun h _ => Multiset.coe_count h _
    _ ≤ p.callLimitUpTo first last := Finset.sum_le_sum fun h _ => hlimit h

/-! ## Progress -/

/-- The planner with an empty store. -/
def Planner.cleared (p : Planner α) : Planner α := { p with store := {} }

namespace Search

/-- The planner after a run. -/
def plannerOf : Except (Outcome α) (Search α) → Planner α
  | .ok s => s.planner
  | .error o => o.planner

/-- The calls that a planner has made in a search from the first horizon to the current one. -/
structure CallsMade (p : Planner α) (first current : Nat) (calls : List (CallRecord α)) : Prop where
  horizon : ∀ c ∈ calls, first ≤ c.horizon ∧ c.horizon ≤ current
  allowed : ∀ c ∈ calls, ∀ max, p.config.maxHorizon = some max → c.horizon ≤ max
  limited : ∀ h, callsAt calls h ≤ p.problem.callLimit h

/-- How far a search has come since the planner began it with an empty store. Each iteration at the
current horizon has left a key of its own in the store. -/
structure Progress (p : Planner α) (first : Nat) (made : List (CallRecord α)) (s : Search α) :
    Prop where
  calls : s.planner.calls = p.calls ++ made
  config : s.planner.config = p.config
  temporal : s.planner.problem.temporal = p.problem.temporal
  consistent : s.planner.store.Consistent
  nodup : s.planner.store.cutKeys.Nodup
  keys : ∀ k ∈ s.planner.store.cutKeys,
    k.Fits s.horizon p.problem.temporal.length p.config.offsetMode
  iteration : s.iteration ≤ s.planner.store.size
  first_le : first ≤ s.horizon
  spent : CallsMade p first s.horizon made
  current : callsAt made s.horizon = s.iteration

variable {p : Planner α} {first : Nat} {made : List (CallRecord α)} {s : Search α}

theorem CallsMade.mono {h h' : Nat} (hmade : CallsMade p first h made) (hle : h ≤ h') :
    CallsMade p first h' made :=
  { hmade with horizon := fun c hc =>
      ⟨(hmade.horizon c hc).1, Nat.le_trans (hmade.horizon c hc).2 hle⟩ }

/-- The horizons to come have had no calls. -/
theorem CallsMade.callsAt_eq_zero {h h' : Nat} (hmade : CallsMade p first h made) (hlt : h < h') :
    callsAt made h' = 0 := by
  refine List.count_eq_zero.2 fun hmem => ?_
  obtain ⟨c, hc, rfl⟩ := List.mem_map.1 hmem
  exact Nat.not_le.2 hlt (hmade.horizon c hc).2

/-- There are no more iterations than keys. -/
theorem Progress.iteration_lt (hs : Progress p first made s) :
    s.iteration < p.problem.callLimit s.horizon := by
  have hsize : s.planner.store.size = s.planner.store.cutKeys.length := by
    simp [CutStore.size, CutStore.cutKeys]
  have hlength := CutKey.length_le hs.nodup hs.keys
  have hiteration := hs.iteration
  unfold Problem.callLimit
  omega

/-- A search that makes a request has not come to more stages than it may try. -/
theorem Asks.horizon_le {elapsed : Nanoseconds} {request : Request α}
    (hr : s.Asks elapsed request) {max : Nat} (hmax : s.planner.config.maxHorizon = some max) :
    s.horizon ≤ max := by
  obtain ⟨s', hs'⟩ := hr
  unfold Search.request at hs'
  split at hs'
  · contradiction
  · next hlong =>
    simpa [isTooLong, hmax] using hlong

theorem Progress.called (hs : Progress p first made s) {elapsed : Nanoseconds}
    {request : Request α} (hr : s.Asks elapsed request)
    (answer : Except SolverError (SolveResult α)) :
    CallsMade p first s.horizon (made ++ [s.call request answer]) ∧
      callsAt (made ++ [s.call request answer]) s.horizon = s.iteration + 1 := by
  have hcurrent : callsAt (made ++ [s.call request answer]) s.horizon = s.iteration + 1 := by
    have hsame : (s.call request answer).horizon = s.horizon := rfl
    rw [callsAt_append, hs.current, if_pos hsame]
  refine ⟨⟨fun c hc => ?_, fun c hc max hmax => ?_, fun h => ?_⟩, hcurrent⟩
  · rcases List.mem_append.1 hc with hc | hc
    · exact hs.spent.horizon c hc
    · obtain rfl := List.mem_singleton.1 hc
      exact ⟨hs.first_le, Nat.le_refl _⟩
  · rcases List.mem_append.1 hc with hc | hc
    · exact hs.spent.allowed c hc max hmax
    · obtain rfl := List.mem_singleton.1 hc
      exact hr.horizon_le (hs.config ▸ hmax)
  · by_cases hh : h = s.horizon
    · subst hh
      rw [hcurrent]
      exact hs.iteration_lt
    · have hother : ¬(s.call request answer).horizon = h := fun heq => hh heq.symm
      rw [callsAt_append, if_neg hother, Nat.add_zero]
      exact hs.spent.limited h

/-- The violations of a plan that is proposed have keys of its horizon. -/
theorem Progress.fits_of_mem_violations (hs : Progress p first made s) {elapsed : Nanoseconds}
    {request : Request α} (hr : s.Asks elapsed request) {solution : Solution α} {v : Violation α}
    (hv : v ∈ s.violations request solution) :
    (v.key p.config.offsetMode).Fits s.horizon p.problem.temporal.length p.config.offsetMode := by
  obtain ⟨_, -, hviolates⟩ := Plan.violates_of_mem_violations hv
  obtain ⟨e, he, -⟩ := hviolates.residual
  obtain ⟨hlt, -⟩ := List.getElem?_eq_some_iff.1 he
  exact ⟨stage_lt_of_mem_violations hr hv, hs.temporal ▸ hlt, rfl⟩

theorem Progress.refined (hs : Progress p first made s) {elapsed : Nanoseconds}
    {request : Request α} (hr : s.Asks elapsed request)
    (answer : Except SolverError (SolveResult α)) {solution : Solution α} {q : Planner α}
    {added : List (Violation α × Cut α)}
    (hnew : added.map (·.1) = s.newViolations request solution) (hne : added ≠ [])
    (hq : ((s.called request answer).considered request solution).Excluded q s.horizon s.iteration
      added) :
    Progress p first (made ++ [s.call request answer]) ⟨q, s.horizon, s.iteration + 1⟩ := by
  obtain ⟨hconfig, -, -, hcalls⟩ := hq.same
  obtain ⟨a, ha⟩ := hq.problem
  have hcutKeys : q.store.cutKeys = s.planner.store.cutKeys ++
      (s.newViolations request solution).map (·.key s.planner.config.offsetMode) := by
    rw [hq.cutKeys, ← hnew, List.map_map]
    rfl
  obtain ⟨hmade, hcurrent⟩ := hs.called hr answer
  exact
    { calls := by
        rw [hcalls, ← List.append_assoc, ← hs.calls]
        rfl
      config := hconfig.trans hs.config
      temporal := by
        rw [ha]
        exact hs.temporal
      consistent := hq.consistent
      nodup := by
        rw [hcutKeys]
        exact nodup_append_newViolations hs.nodup _
      keys := fun k hk => by
        rw [hcutKeys, List.mem_append, List.mem_map] at hk
        rcases hk with hk | ⟨v, hv, rfl⟩
        · exact hs.keys k hk
        · rw [hs.config]
          exact hs.fits_of_mem_violations hr (mem_of_mem_newViolations hv)
      iteration := by
        have hitems := congrArg List.length hq.items
        rw [List.length_append, List.length_map, Array.length_toList, Array.length_toList] at hitems
        have hsize : q.store.size = s.planner.store.size + added.length := hitems
        have hadded := List.length_pos_iff.2 hne
        have hiteration := hs.iteration
        dsimp only
        omega
      first_le := hs.first_le
      spent := hmade
      current := hcurrent }

theorem Progress.lengthened (hs : Progress p first made s) {elapsed : Nanoseconds}
    {request : Request α} (hr : s.Asks elapsed request)
    (answer : Except SolverError (SolveResult α)) {q : Planner α}
    (hq : { (s.called request answer).planner with store := {} }.Like q) :
    Progress p first (made ++ [s.call request answer]) ⟨q, s.horizon + 1, 0⟩ := by
  obtain ⟨results, log, rfl⟩ := hq
  obtain ⟨hmade, -⟩ := hs.called hr answer
  exact
    { calls := by
        rw [← List.append_assoc, ← hs.calls]
        rfl
      config := hs.config
      temporal := hs.temporal
      consistent := CutStore.consistent_empty
      nodup := .nil
      keys := fun k hk => absurd hk List.not_mem_nil
      iteration := Nat.le_refl 0
      first_le := Nat.le_succ_of_le hs.first_le
      spent := hmade.mono (Nat.le_succ _)
      current := hmade.callsAt_eq_zero (Nat.lt_succ_self _) }

/-- A turn that does not end the search makes a call. -/
theorem Progress.turn_ok (hs : Progress p first made s) {t : Turn α} {s' : Search α}
    (h : s.turn t = .ok s') : ∃ c, Progress p first (made ++ [c]) s' := by
  have hturned := s.turned t hs.consistent
  rw [h] at hturned
  cases hturned with
  | lengthened request hr ha hq => exact ⟨_, hs.lengthened hr _ hq⟩
  | proposed request solution hr ha hconsidered =>
    cases hconsidered with
    | refined added hnew hne hq => exact ⟨_, hs.refined hr _ hnew hne hq⟩

/-- A turn that ends the search makes a call at most. -/
theorem Progress.turn_error (hs : Progress p first made s) {t : Turn α} {o : Outcome α}
    (h : s.turn t = .error o) :
    ∃ calls', o.planner.calls = p.calls ++ calls' ∧ CallsMade p first s.horizon calls' := by
  have hturned := s.turned t hs.consistent
  have hcall {request : Request α} (answer : Except SolverError (SolveResult α))
      (hr : s.Asks t.elapsed request)
      (hcalls : o.planner.calls = s.planner.calls ++ [s.call request answer]) :
      ∃ calls', o.planner.calls = p.calls ++ calls' ∧ CallsMade p first s.horizon calls' := by
    refine ⟨made ++ [s.call request answer], ?_, (hs.called hr answer).1⟩
    rw [hcalls, hs.calls, List.append_assoc]
  rw [h] at hturned
  cases hturned with
  | unasked hr hq he => exact ⟨made, hq.calls.trans hs.calls, hs.spent⟩
  | failed request hr ha hq => exact hcall _ hr hq.calls
  | proposed request solution hr ha hconsidered =>
    cases hconsidered with
    | verified hv hq => exact hcall _ hr hq.calls
    | stalled hv hnew hq => exact hcall _ hr hq.same.2.2.2

theorem progress_begin (p : Planner α) :
    Progress p (max p.config.horizon 1) [] p.cleared.begin where
  calls := (List.append_nil _).symm
  config := rfl
  temporal := rfl
  consistent := CutStore.consistent_empty
  nodup := .nil
  keys _ hk := absurd hk List.not_mem_nil
  iteration := Nat.le_refl 0
  first_le := Nat.le_refl _
  spent := ⟨fun _ h => absurd h List.not_mem_nil, fun _ h => absurd h List.not_mem_nil,
    fun _ => Nat.zero_le _⟩
  current := rfl

/-- A run that has not ended has made a call in each turn. -/
theorem Progress.run_ok (hs : Progress p first made s) {ts : List (Turn α)} {s' : Search α}
    (h : s.run ts = .ok s') :
    ∃ calls', calls'.length = ts.length ∧ Progress p first (made ++ calls') s' := by
  induction ts generalizing s made with
  | nil =>
    cases h
    exact ⟨[], rfl, by simpa using hs⟩
  | cons t ts ih =>
    cases hturn : s.turn t with
    | error o => simp [run, List.foldlM_cons, hturn, bind, Except.bind] at h
    | ok s₁ =>
      obtain ⟨c, hs₁⟩ := hs.turn_ok hturn
      have hrest : s₁.run ts = .ok s' := by
        simpa [run, List.foldlM_cons, hturn, bind, Except.bind] using h
      obtain ⟨calls', hlength, hs'⟩ := ih hs₁ hrest
      exact ⟨c :: calls', by simp [hlength], by simpa using hs'⟩

/-- After any run the calls are limited, horizon by horizon. -/
theorem callsMade_run (p : Planner α) (ts : List (Turn α)) :
    ∃ calls last, (plannerOf (p.cleared.begin.run ts)).calls = p.calls ++ calls ∧
      CallsMade p (max p.config.horizon 1) last calls ∧
      ∀ s, p.cleared.begin.run ts = .ok s → calls.length = ts.length := by
  cases h : p.cleared.begin.run ts with
  | ok s =>
    obtain ⟨calls, hlength, hs⟩ := (progress_begin p).run_ok h
    exact ⟨calls, s.horizon, hs.calls, hs.spent, fun _ _ => hlength⟩
  | error o =>
    obtain ⟨ts', t, s, -, hrun, hturn⟩ := run_error h
    obtain ⟨calls, -, hs⟩ := (progress_begin p).run_ok hrun
    obtain ⟨calls', hcalls', hmade⟩ := hs.turn_error hturn
    exact ⟨calls', s.horizon, hcalls', hmade, fun _ h' => by cases h'⟩

/-- A search that begins with an empty store makes at most one call more at a horizon than this has
keys, whatever the solver answers. With a largest horizon it makes finitely many calls, and it has
ended after more turns than that. -/
theorem run_terminates (p : Planner α) (ts : List (Turn α)) :
    ∃ calls, (plannerOf (p.cleared.begin.run ts)).calls = p.calls ++ calls ∧
      (∀ h, callsAt calls h ≤ h * p.problem.temporal.length * 2 ^ 64 + 1) ∧
      ∀ last, p.config.maxHorizon = some last →
        calls.length ≤ p.problem.callLimitUpTo (max p.config.horizon 1) last ∧
        (p.problem.callLimitUpTo (max p.config.horizon 1) last < ts.length →
          ∃ o, p.cleared.begin.run ts = .error o) := by
  obtain ⟨calls, current, hcalls, hmade, hlength⟩ := callsMade_run p ts
  refine ⟨calls, hcalls, hmade.limited, fun last hlast => ?_⟩
  have hlimit : calls.length ≤ p.problem.callLimitUpTo (max p.config.horizon 1) last :=
    length_le_callLimitUpTo (fun c hc => Finset.mem_Icc.2 ⟨(hmade.horizon c hc).1,
      hmade.allowed c hc last hlast⟩) hmade.limited
  refine ⟨hlimit, fun hlong => ?_⟩
  cases h : p.cleared.begin.run ts with
  | error o => exact ⟨o, rfl⟩
  | ok s => exact absurd (hlength s h) (by omega)

end Search

end HybridPlan
