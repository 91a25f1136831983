import HybridPlan.Proofs.Refinement.Store
import Mathlib.Logic.Basic

set_option autoImplicit false

/-! # Turns of a search

A turn of a search ends it without a call of the solver, or makes one call; what follows is settled
by the answer and by the violations of the plan that it proposes. -/

namespace HybridPlan

variable {α : Type} [Scalar α]

/-- The solution that an answer proposes. -/
def proposal? : Except SolverError (SolveResult α) → Option (Solution α)
  | .ok (.optimal s) => some s
  | .ok (.timeout s) => s
  | .ok .infeasible | .error _ => none

/-- The answer that there is no solution, or that none was found in time. -/
def IsRefusal (answer : Except SolverError (SolveResult α)) : Prop :=
  answer = .ok .infeasible ∨ answer = .ok (.timeout none)

omit [Scalar α] in
theorem IsRefusal.proposal?_eq {answer : Except SolverError (SolveResult α)}
    (h : IsRefusal answer) : proposal? answer = none := by
  rcases h with rfl | rfl
  · rfl
  · rfl

namespace Search

variable (s : Search α)

/-! ## Calls -/

/-- The search makes a request after the given time. -/
def Asks (elapsed : Nanoseconds) (request : Request α) : Prop :=
  ∃ s', s.request elapsed = .ok (s', request)

/-- The call in which the request is answered. -/
def call (request : Request α) (answer : Except SolverError (SolveResult α)) : CallRecord α where
  horizon := s.horizon
  iteration := s.iteration
  cuts := s.planner.store.items.toList
  request := request
  answer := answer

/-- The plan that a solution describes. -/
def plan (request : Request α) (solution : Solution α) : Plan α :=
  request.encoded.extract s.planner.problem solution

/-- The violations of the plan that a solution describes. -/
def violations (request : Request α) (solution : Solution α) : List (Violation α) :=
  (s.plan request solution).violations s.planner.problem s.planner.simulationParams

/-- The violations without a stored cut, the first of each key. -/
def newViolations (request : Request α) (solution : Solution α) : List (Violation α) :=
  HybridPlan.newViolations s.planner.config.offsetMode s.planner.store.cutKeys
    (s.violations request solution)

/-- The record of the iteration. -/
def record (request : Request α) (solution : Solution α) : IterationRecord α where
  horizon := s.horizon
  iteration := s.iteration
  accumulated := s.planner.store.size
  violations := (s.violations request solution).length
  objective := solution.objective

/-- The search with a call recorded. -/
def called (request : Request α) (answer : Except SolverError (SolveResult α)) : Search α :=
  { s with planner := { s.planner with calls := s.planner.calls ++ [s.call request answer] } }

/-- The planner with an iteration recorded. -/
def considered (request : Request α) (solution : Solution α) : Planner α :=
  { s.planner with history := s.planner.history ++ [s.record request solution] }

/-! ## Turns -/

/-- A refinement comes to a dead end if no violation becomes a cut, and goes on otherwise. -/
theorem refine_eq (vs : List (Violation α)) (hs : s.planner.store.Consistent) :
    ∃ q added, s.planner.Excluded q s.horizon s.iteration added ∧
      added.map (·.1) = HybridPlan.newViolations s.planner.config.offsetMode
        s.planner.store.cutKeys vs ∧
      s.refine vs = if added = [] then .error ⟨q, .error (.stalled s.horizon s.iteration)⟩
        else .ok ⟨q, s.horizon, s.iteration + 1⟩ := by
  let p := (s.enter .generating).planner
  let q := vs.foldl (exclude · s.horizon s.iteration ·) p
  obtain ⟨added, hq, hnew⟩ := foldl_exclude (p := p) hs s.horizon s.iteration vs
  have hzero : q.store.size - s.planner.store.size = 0 ↔ added = [] := by
    have hitems := congrArg List.length hq.items
    rw [List.length_append, List.length_map, Array.length_toList, Array.length_toList] at hitems
    have hsize : q.store.size - s.planner.store.size = added.length :=
      Nat.sub_eq_of_eq_add' hitems
    rw [hsize, List.length_eq_zero_iff]
  let n := q.store.size - s.planner.store.size
  refine ⟨q.info s!"{vs.length} violation(s), {n} new constraint(s)", added,
    .like (s.planner.like_note _ _) hq (q.like_note _ _), hnew, ?_⟩
  exact if_congr hzero rfl rfl

/-- A proposal is recorded; it is the result, a dead end, or refined. -/
inductive Considered (request : Request α) (solution : Solution α) :
    Except (Outcome α) (Search α) → Prop
  | verified {q : Planner α} (hv : s.violations request solution = [])
      (hq : (s.considered request solution).Like q) :
      Considered request solution (.error ⟨q, .ok (s.plan request solution)⟩)
  | stalled {q : Planner α} (hv : s.violations request solution ≠ [])
      (hnew : s.newViolations request solution = [])
      (hq : (s.considered request solution).Excluded q s.horizon s.iteration []) :
      Considered request solution (.error ⟨q, .error (.stalled s.horizon s.iteration)⟩)
  | refined {q : Planner α} (added : List (Violation α × Cut α))
      (hnew : added.map (·.1) = s.newViolations request solution) (hne : added ≠ [])
      (hq : (s.considered request solution).Excluded q s.horizon s.iteration added) :
      Considered request solution (.ok ⟨q, s.horizon, s.iteration + 1⟩)

theorem exists_keepResults (plan : Plan α) :
    ∃ results, s.keepResults plan = { s with planner := { s.planner with results } } := by
  by_cases h : s.planner.config.saveReports
  · refine ⟨s.planner.results ++ plan.rows s.planner.problem.domain s.iteration, ?_⟩
    exact congrArg (fun p : Planner α => { s with planner := p }) (if_pos h)
  · exact ⟨s.planner.results, congrArg (fun p : Planner α => { s with planner := p }) (if_neg h)⟩

theorem considered_consider (request : Request α) (solution : Solution α)
    (hs : s.planner.store.Consistent) :
    s.Considered request solution (s.consider request solution) := by
  obtain ⟨results, hresults⟩ := s.exists_keepResults (s.plan request solution)
  unfold plan at hresults
  unfold consider
  dsimp only
  rw [hresults]
  split
  · next h =>
    exact .verified (List.isEmpty_iff.1 h) ⟨_, _, rfl⟩
  · next h =>
    obtain ⟨q, added, hq, hnew, hrefine⟩ := refine_eq
      (simulate { s with planner := { s.planner with results } } solution
        (s.plan request solution)).2 (s.violations request solution) hs
    have hq := hq.like (p := s.considered request solution) ⟨_, _, rfl⟩ (.refl q)
    refine cast (congrArg _ hrefine.symm) ?_
    split
    · next hadded =>
      subst hadded
      exact .stalled (fun hv => h (List.isEmpty_iff.2 hv)) hnew.symm hq
    · next hadded =>
      exact .refined added hnew hadded hq

/-- What is kept besides does not matter. -/
theorem Considered.like {s : Search α} {q : Planner α} {request : Request α}
    {solution : Solution α} {r : Except (Outcome α) (Search α)} (hq : s.planner.Like q)
    (h : Considered ⟨q, s.horizon, s.iteration⟩ request solution r) :
    s.Considered request solution r := by
  obtain ⟨results, log, rfl⟩ := hq
  cases h with
  | verified hv hq =>
    obtain ⟨results', log', rfl⟩ := hq
    exact .verified hv ⟨_, _, rfl⟩
  | stalled hv hnew hq => exact .stalled hv hnew (.like ⟨_, _, rfl⟩ hq (.refl _))
  | refined added hnew hne hq => exact .refined added hnew hne (.like ⟨_, _, rfl⟩ hq (.refl _))

/-- What a turn comes to. -/
inductive Turned (t : Turn α) : Except (Outcome α) (Search α) → Prop
  | unasked {q : Planner α} {e : SearchError α} (hr : ∀ request, ¬s.Asks t.elapsed request)
      (hq : s.planner.Like q)
      (he : (∃ h d, e = .noPlanFound h d) ∨ ∃ a e', e = .encoding a e') :
      Turned t (.error ⟨q, .error e⟩)
  | failed {q : Planner α} {e : SolverError} (request : Request α) (hr : s.Asks t.elapsed request)
      (ha : t.solve request.encoded.program request.params = .error e)
      (hq : (s.called request (.error e)).planner.Like q) :
      Turned t (.error ⟨q, .error (.solver e)⟩)
  | lengthened {q : Planner α} (request : Request α) (hr : s.Asks t.elapsed request)
      (ha : IsRefusal (t.solve request.encoded.program request.params))
      (hq : { (s.called request (t.solve request.encoded.program request.params)).planner with
        store := {} }.Like q) : Turned t (.ok ⟨q, s.horizon + 1, 0⟩)
  | proposed {r : Except (Outcome α) (Search α)} (request : Request α) (solution : Solution α)
      (hr : s.Asks t.elapsed request)
      (ha : proposal? (t.solve request.encoded.program request.params) = some solution)
      (h : (s.called request (t.solve request.encoded.program request.params)).Considered request
        solution r) : Turned t r

/-- Before the call there is nothing but the program, that of the current horizon with the stored
cuts. -/
theorem request_eq (elapsed : Nanoseconds) :
    (∃ q e, s.request elapsed = .error ⟨q, .error e⟩ ∧ s.planner.Like q ∧
      ((∃ h d, e = .noPlanFound h d) ∨ ∃ a e', e = .encoding a e')) ∨
    ∃ q request, s.request elapsed = .ok (⟨q, s.horizon, s.iteration⟩, request) ∧
      s.planner.Like q ∧
      encode s.planner.problem s.horizon s.planner.store = .ok request.encoded := by
  unfold request
  split
  · exact .inl ⟨_, _, rfl, .refl _, .inl ⟨_, _, rfl⟩⟩
  · split
    · exact .inl ⟨_, _, rfl, .refl _, .inl ⟨_, _, rfl⟩⟩
    · dsimp only
      split
      · exact .inl ⟨_, _, rfl, ⟨_, _, rfl⟩, .inr ⟨_, _, rfl⟩⟩
      · next encoded hencoded =>
        exact .inr ⟨_, _, rfl, ⟨_, _, rfl⟩, hencoded⟩

/-- What is asked for is the program of the current horizon with the stored cuts. -/
theorem Asks.encode_eq {s : Search α} {elapsed : Nanoseconds} {request : Request α}
    (h : s.Asks elapsed request) :
    encode s.planner.problem s.horizon s.planner.store = .ok request.encoded := by
  obtain ⟨s', h⟩ := h
  rcases s.request_eq elapsed with ⟨q, e, he, -⟩ | ⟨q, request', hrequest, -, hencode⟩
  · rw [he] at h
    contradiction
  · rw [hrequest] at h
    cases h
    exact hencode

theorem Asks.unique {s : Search α} {elapsed : Nanoseconds} {request request' : Request α}
    (h : s.Asks elapsed request) (h' : s.Asks elapsed request') : request' = request := by
  obtain ⟨_, h⟩ := h
  obtain ⟨_, h'⟩ := h'
  rw [h] at h'
  cases h'
  rfl

theorem turned (t : Turn α) (hs : s.planner.store.Consistent) : s.Turned t (s.turn t) := by
  unfold turn
  rcases s.request_eq t.elapsed with ⟨q, e, hrequest, hq, he⟩ | ⟨q, request, hrequest, hq, -⟩
  · have hr (request : Request α) : ¬s.Asks t.elapsed request := by
      rintro ⟨s', hs'⟩
      rw [hrequest] at hs'
      contradiction
    rw [hrequest]
    exact .unasked hr hq he
  · have hr : s.Asks t.elapsed request := ⟨_, hrequest⟩
    rw [hrequest]
    obtain ⟨results, log, rfl⟩ := hq
    have hconsider (answer : Except SolverError (SolveResult α)) (solution : Solution α)
        {s' : Search α} (hlike : (s.called request answer).planner.Like s'.planner)
        (hh : s'.horizon = s.horizon) (hi : s'.iteration = s.iteration) :
        (s.called request answer).Considered request solution (s'.consider request solution) := by
      obtain ⟨p, h, i⟩ := s'
      subst hh hi
      refine .like hlike (considered_consider _ request solution ?_)
      obtain ⟨_, _, rfl⟩ := hlike
      exact hs
    change s.Turned t (absorb _ request (t.solve request.encoded.program request.params))
    unfold absorb
    dsimp only
    split
    · next e ha => exact .failed request hr ha (ha ▸ ⟨_, _, rfl⟩)
    · next solution ha =>
      refine .proposed request solution hr (by rw [ha]; rfl) ?_
      rw [ha]
      exact hconsider _ solution ⟨_, _, rfl⟩ rfl rfl
    · next solution ha =>
      refine .proposed request solution hr (by rw [ha]; rfl) ?_
      rw [ha]
      exact hconsider _ solution ⟨_, _, rfl⟩ rfl rfl
    · next ha => exact .lengthened request hr (.inr ha) ⟨_, _, rfl⟩
    · next ha => exact .lengthened request hr (.inl ha) ⟨_, _, rfl⟩

end Search

end HybridPlan
