import HybridPlan.Proofs.Refinement.Turn
import Mathlib.Data.List.Chain

set_option autoImplicit false

/-! # Runs of a search

What the records of a run say about each other: which call follows which, how the history goes on,
and how many cuts a recorded iteration has seen. The invariant ties them to the horizon, the
iteration and the store that the next call works with. -/

namespace HybridPlan

variable {α : Type} [Scalar α]

/-! ## Calls in order -/

/-- The call is followed by a call for the given horizon and iteration with the given cuts: one
stage more without cuts after a refusal, and the next iteration with further cuts after a
proposal. -/
def CallRecord.Leads (c : CallRecord α) (horizon iteration : Nat) (cuts : List (Cut α)) : Prop :=
  (IsRefusal c.answer ∧ horizon = c.horizon + 1 ∧ iteration = 0 ∧ cuts = []) ∨
  (∃ solution, proposal? c.answer = some solution) ∧ horizon = c.horizon ∧
    iteration = c.iteration + 1 ∧ ∃ added, added ≠ [] ∧ cuts = c.cuts ++ added

/-- The calls of a run that starts at a horizon. -/
structure CallsInOrder (first : Nat) (calls : List (CallRecord α)) : Prop where
  head : ∀ c ∈ calls.head?, c.horizon = first ∧ c.iteration = 0 ∧ c.cuts = []
  chain : calls.IsChain fun c c' => c.Leads c'.horizon c'.iteration c'.cuts

theorem CallsInOrder.append {first : Nat} {calls : List (CallRecord α)} {c : CallRecord α}
    (h : CallsInOrder first calls)
    (hfirst : calls = [] → c.horizon = first ∧ c.iteration = 0 ∧ c.cuts = [])
    (hlast : ∀ c' ∈ calls.getLast?, c'.Leads c.horizon c.iteration c.cuts) :
    CallsInOrder first (calls ++ [c]) where
  head := by
    intro c' hc'
    cases calls with
    | nil =>
      obtain rfl : c = c' := by simpa using hc'
      exact hfirst rfl
    | cons d calls => exact h.head c' (by simpa using hc')
  chain := by
    refine List.isChain_append.2 ⟨h.chain, .singleton c, fun c' hc' c'' hc'' => ?_⟩
    obtain rfl : c = c'' := by simpa using hc''
    exact hlast c' hc'

/-! ## History and recorded cuts -/

/-- Lexicographic order of horizon and iteration. -/
def IterationRecord.Before (r r' : IterationRecord α) : Prop :=
  r.horizon < r'.horizon ∨ r.horizon = r'.horizon ∧ r.iteration < r'.iteration

namespace Planner

variable (p : Planner α)

/-- The recorded iterations at a horizon. -/
def iterationsAt (h : Nat) : List Nat := (p.history.filter (·.horizon = h)).map (·.iteration)

/-- The number of recorded cuts of a horizon from iterations before the given one. -/
def cutsBefore (h i : Nat) : Nat := p.newCuts.countP fun c => c.horizon = h ∧ c.iteration < i

/-- The history is increasing, has all iterations of each recorded horizon up to the last one, and
counts the recorded cuts. -/
structure Recorded : Prop where
  increasing : p.history.Pairwise IterationRecord.Before
  gapless : ∀ h, p.iterationsAt h = List.range (p.iterationsAt h).length
  accumulated : ∀ r ∈ p.history, r.accumulated = p.cutsBefore r.horizon r.iteration

variable {p} {q : Planner α} {h i : Nat} {added : List (Violation α × Cut α)}

theorem Recorded.congr (hp : p.Recorded) (hhistory : q.history = p.history)
    (hcuts : ∀ r ∈ p.history, q.cutsBefore r.horizon r.iteration =
      p.cutsBefore r.horizon r.iteration) : q.Recorded where
  increasing := hhistory ▸ hp.increasing
  gapless h := by
    unfold iterationsAt
    rw [hhistory]
    exact hp.gapless h
  accumulated r hr := by
    rw [hhistory] at hr
    rw [hp.accumulated r hr, hcuts r hr]

theorem Recorded.like (hp : p.Recorded) (hq : p.Like q) : q.Recorded := by
  obtain ⟨_, _, rfl⟩ := hq
  exact hp.congr rfl fun _ _ => rfl

/-- The cuts of an iteration count for later iterations only. -/
theorem Excluded.cutsBefore (hpq : p.Excluded q h i added) {h' i' : Nat}
    (hlt : h' < h ∨ h' = h ∧ i' ≤ i) : q.cutsBefore h' i' = p.cutsBefore h' i' := by
  unfold Planner.cutsBefore
  rw [hpq.newCuts, List.countP_append, Nat.add_eq_left, List.countP_eq_zero]
  intro c hc
  obtain ⟨x, hx, rfl⟩ := List.mem_map.1 hc
  obtain ⟨a, ha⟩ := hpq.cuts x hx
  have hrow : (CutRow.of x.2 x.1.intervalStart x.1.intervalEnd h).iteration = i := by rw [ha]; rfl
  rw [decide_eq_true_eq, hrow]
  rintro ⟨hh : h = h', hi⟩
  omega

/-- The number of cuts of the horizon itself grows with the store. -/
theorem Excluded.countP_horizon (hpq : p.Excluded q h i added)
    (hp : p.store.size = p.newCuts.countP (·.horizon = h)) :
    q.store.size = q.newCuts.countP (·.horizon = h) := by
  have hsize : q.store.size = p.store.size + added.length := by
    have hitems := congrArg List.length hpq.items
    rwa [List.length_append, List.length_map, Array.length_toList, Array.length_toList] at hitems
  rw [hsize, hp, hpq.newCuts, List.countP_append, List.countP_map]
  congr 1
  refine (List.countP_eq_length.2 fun x _ => ?_).symm
  simp [CutRow.of]

end Planner

/-! ## The invariant -/

namespace Search

/-- What the records say about the horizon, the iteration and the store at hand. -/
structure Invariant (s : Search α) : Prop where
  consistent : s.planner.store.Consistent
  recorded : s.planner.Recorded
  current : s.planner.iterationsAt s.horizon = List.range s.iteration
  past : ∀ r ∈ s.planner.history, r.horizon ≤ s.horizon
  generated : ∀ c ∈ s.planner.newCuts,
    c.horizon < s.horizon ∨ c.horizon = s.horizon ∧ c.iteration < s.iteration
  stored : s.planner.store.size = s.planner.newCuts.countP (·.horizon = s.horizon)

variable {s : Search α}

theorem iterationsAt_considered (s : Search α) (request : Request α) (solution : Solution α)
    (h : Nat) : (s.considered request solution).iterationsAt h =
      s.planner.iterationsAt h ++ if s.horizon = h then [s.iteration] else [] := by
  unfold Planner.iterationsAt considered
  rw [List.filter_append, List.map_append]
  congr 1
  by_cases hh : s.horizon = h
  · simp [record, hh]
  · simp [record, hh]

theorem Invariant.before_record (hs : s.Invariant) (request : Request α) (solution : Solution α)
    {r : IterationRecord α} (hr : r ∈ s.planner.history) :
    r.Before (s.record request solution) := by
  rcases Nat.lt_or_eq_of_le (hs.past r hr) with hlt | heq
  · exact .inl hlt
  · refine .inr ⟨heq, ?_⟩
    have hmem : r.iteration ∈ s.planner.iterationsAt s.horizon :=
      List.mem_map_of_mem (List.mem_filter.2 ⟨hr, by simpa using heq⟩)
    rw [hs.current] at hmem
    exact List.mem_range.1 hmem

/-- The store holds the recorded cuts of the horizon, all from earlier iterations. -/
theorem Invariant.size_eq_cutsBefore (hs : s.Invariant) :
    s.planner.store.size = s.planner.cutsBefore s.horizon s.iteration := by
  rw [hs.stored]
  refine List.countP_congr fun c hc => ?_
  have hc := hs.generated c hc
  simp only [decide_eq_true_eq]
  omega

theorem Invariant.considered (hs : s.Invariant) (request : Request α) (solution : Solution α) :
    (s.considered request solution).Recorded where
  increasing := by
    refine List.pairwise_append.2 ⟨hs.recorded.increasing, List.pairwise_singleton _ _, ?_⟩
    intro r hr r' hr'
    obtain rfl := List.mem_singleton.1 hr'
    exact hs.before_record request solution hr
  gapless h := by
    rw [s.iterationsAt_considered request solution h]
    split
    · next hh =>
      subst hh
      rw [hs.current, ← List.range_succ, List.length_range]
    · rw [List.append_nil]
      exact hs.recorded.gapless h
  accumulated r hr := by
    rcases List.mem_append.1 hr with hr | hr
    · exact hs.recorded.accumulated r hr
    · obtain rfl := List.mem_singleton.1 hr
      exact hs.size_eq_cutsBefore

/-- The cuts of the iteration at hand do not change what is counted. -/
theorem Invariant.excluded (hs : s.Invariant) {request : Request α} {solution : Solution α}
    {q : Planner α} {added : List (Violation α × Cut α)}
    (hq : (s.considered request solution).Excluded q s.horizon s.iteration added) :
    q.Recorded := by
  refine (hs.considered request solution).congr hq.same.2.2.1 fun r hr => hq.cutsBefore ?_
  rcases List.mem_append.1 hr with hr | hr
  · rcases hs.before_record request solution hr with hlt | ⟨heq, hlt⟩
    · exact .inl hlt
    · exact .inr ⟨heq, Nat.le_of_lt hlt⟩
  · obtain rfl := List.mem_singleton.1 hr
    exact .inr ⟨rfl, Nat.le_refl _⟩

theorem Invariant.refined (hs : s.Invariant) {request : Request α} {solution : Solution α}
    {q : Planner α} {added : List (Violation α × Cut α)}
    (hq : (s.considered request solution).Excluded q s.horizon s.iteration added) :
    Invariant ⟨q, s.horizon, s.iteration + 1⟩ where
  consistent := hq.consistent
  recorded := hs.excluded hq
  current := by
    have hconsidered := s.iterationsAt_considered request solution s.horizon
    rw [if_pos rfl, hs.current, ← List.range_succ] at hconsidered
    rw [← hconsidered]
    unfold Planner.iterationsAt
    rw [hq.same.2.2.1]
  past r hr := by
    rw [hq.same.2.2.1] at hr
    rcases List.mem_append.1 hr with hr | hr
    · exact hs.past r hr
    · obtain rfl := List.mem_singleton.1 hr
      exact Nat.le_refl _
  generated c hc := by
    rw [hq.newCuts] at hc
    rcases List.mem_append.1 hc with hc | hc
    · have hc := hs.generated c hc
      dsimp only
      omega
    · obtain ⟨x, hx, rfl⟩ := List.mem_map.1 hc
      obtain ⟨a, ha⟩ := hq.cuts x hx
      exact .inr ⟨rfl, by rw [ha]; exact Nat.lt_succ_self _⟩
  stored := hq.countP_horizon hs.stored

theorem Invariant.lengthened (hs : s.Invariant) {q : Planner α}
    (hq : { s.planner with store := {} }.Like q) : Invariant ⟨q, s.horizon + 1, 0⟩ := by
  obtain ⟨results, log, rfl⟩ := hq
  exact
    { consistent := CutStore.consistent_empty
      recorded := hs.recorded.congr rfl fun _ _ => rfl
      current := by
        have hnone : s.planner.history.filter (·.horizon = s.horizon + 1) = [] := by
          refine List.filter_eq_nil_iff.2 fun r hr => ?_
          have hr := hs.past r hr
          simp only [decide_eq_true_eq]
          omega
        exact congrArg (List.map (·.iteration)) hnone
      past := fun r hr => Nat.le_succ_of_le (hs.past r hr)
      generated := fun c hc => by
        have hc := hs.generated c hc
        dsimp only
        omega
      stored := by
        refine (List.countP_eq_zero.2 fun c hc => ?_).symm
        have hc := hs.generated c hc
        simp only [decide_eq_true_eq]
        omega }

/-- What the calls so far say about the next one. -/
structure CallInvariant (first : Nat) (s : Search α) : Prop where
  inOrder : CallsInOrder first s.planner.calls
  fresh : s.planner.calls = [] →
    s.horizon = first ∧ s.iteration = 0 ∧ s.planner.store.items.toList = []
  next : ∀ c ∈ s.planner.calls.getLast?,
    c.Leads s.horizon s.iteration s.planner.store.items.toList

variable {first : Nat}

theorem Invariant.called (hs : s.Invariant) (request : Request α)
    (answer : Except SolverError (SolveResult α)) : (s.called request answer).Invariant :=
  { hs with recorded := hs.recorded.congr rfl fun _ _ => rfl }

theorem CallInvariant.called (hs : s.CallInvariant first) (request : Request α)
    (answer : Except SolverError (SolveResult α)) :
    CallsInOrder first (s.called request answer).planner.calls :=
  hs.inOrder.append hs.fresh hs.next

/-- A call has been made, and it leads on to the search. -/
theorem CallInvariant.of_called (hs : s.CallInvariant first) {request : Request α}
    {answer : Except SolverError (SolveResult α)} {s' : Search α}
    (hcalls : s'.planner.calls = (s.called request answer).planner.calls)
    (hleads : (s.call request answer).Leads s'.horizon s'.iteration
      s'.planner.store.items.toList) : s'.CallInvariant first where
  inOrder := hcalls ▸ hs.called request answer
  fresh h := by simp [hcalls, Search.called] at h
  next c hc := by
    rw [hcalls, Search.called, List.getLast?_concat] at hc
    cases hc
    exact hleads

/-! ## Turns -/

theorem Invariant.turn_ok (hs : s.Invariant) (hc : s.CallInvariant first) {t : Turn α}
    {s' : Search α} (h : s.turn t = .ok s') : s'.Invariant ∧ s'.CallInvariant first := by
  have hturned := s.turned t hs.consistent
  rw [h] at hturned
  cases hturned with
  | lengthened request hr ha hq =>
    refine ⟨(hs.called request _).lengthened hq, hc.of_called hq.calls (.inl ⟨ha, rfl, rfl, ?_⟩)⟩
    obtain ⟨_, _, rfl⟩ := hq
    rfl
  | proposed request solution hr ha hconsidered =>
    cases hconsidered with
    | refined added hnew hne hq =>
      have hcuts : added.map (·.2) ≠ [] := by simpa using hne
      exact ⟨(hs.called request _).refined hq, hc.of_called hq.same.2.2.2
        (.inr ⟨⟨solution, ha⟩, rfl, rfl, _, hcuts, hq.items⟩)⟩

theorem Invariant.turn_error (hs : s.Invariant) (hc : s.CallInvariant first) {t : Turn α}
    {o : Outcome α} (h : s.turn t = .error o) :
    o.planner.Recorded ∧ CallsInOrder first o.planner.calls := by
  have hturned := s.turned t hs.consistent
  rw [h] at hturned
  cases hturned with
  | unasked hr hq he => exact ⟨hs.recorded.like hq, hq.calls ▸ hc.inOrder⟩
  | failed request hr ha hq =>
    exact ⟨(hs.called request _).recorded.like hq, hq.calls ▸ hc.called request _⟩
  | proposed request solution hr ha hconsidered =>
    cases hconsidered with
    | verified hv hq =>
      exact ⟨((hs.called request _).considered request solution).like hq,
        hq.calls ▸ hc.called request _⟩
    | stalled hv hnew hq =>
      exact ⟨(hs.called request _).excluded hq, hq.same.2.2.2 ▸ hc.called request _⟩

/-- How the search goes on after a request: one stage more after a refusal, and the next iteration
with further cuts if a proposed plan has a violation without a stored cut. -/
structure GoesOn (s : Search α) (t : Turn α) (request : Request α) : Prop where
  encoded : encode s.planner.problem s.horizon s.planner.store = .ok request.encoded
  called : ∀ s', s.turn t = .ok s' → s'.planner.calls = s.planner.calls ++
    [s.call request (t.solve request.encoded.program request.params)]
  lengthened : IsRefusal (t.solve request.encoded.program request.params) →
    ∃ s', s.turn t = .ok s' ∧ s'.horizon = s.horizon + 1 ∧ s'.iteration = 0 ∧
      s'.planner.store = {}
  refined : ∀ solution,
    proposal? (t.solve request.encoded.program request.params) = some solution →
    (∃ v ∈ s.violations request solution,
      v.key s.planner.config.offsetMode ∉ s.planner.store.cutKeys) →
    ∃ s', ∃ added : List (Violation α × Cut α), s.turn t = .ok s' ∧ s'.horizon = s.horizon ∧ s'.iteration = s.iteration + 1 ∧
      s'.planner.store.items.toList = s.planner.store.items.toList ++ added.map (·.2) ∧
      added ≠ [] ∧ added.map (·.1) = s.newViolations request solution ∧
      ∀ x ∈ added, ∃ a,
        x.2 = x.1.cut (s.planner.problem.withArena a) s.planner.config.offsetMode s.iteration

theorem Invariant.goesOn (hs : s.Invariant) {t : Turn α} {request : Request α}
    (hr : s.Asks t.elapsed request) : s.GoesOn t request := by
  have hturned := s.turned t hs.consistent
  generalize hturn : s.turn t = r at hturned
  cases hturned with
  | unasked hr' hq he => exact absurd hr (hr' request)
  | failed request' hr' ha' hq =>
    obtain rfl := hr.unique hr'
    refine ⟨hr.encode_eq, by simp [hturn], fun ha => ?_, fun solution ha => ?_⟩
    · rw [ha'] at ha
      rcases ha with ha | ha <;> contradiction
    · rw [ha'] at ha
      contradiction
  | lengthened request' hr' ha' hq =>
    obtain rfl := hr.unique hr'
    refine ⟨hr.encode_eq, fun s' h => ?_, fun _ => ⟨_, hturn, rfl, rfl, ?_⟩, fun solution ha => ?_⟩
    · rw [hturn] at h
      cases h
      exact hq.calls
    · obtain ⟨_, _, rfl⟩ := hq
      rfl
    · rw [ha'.proposal?_eq] at ha
      contradiction
  | proposed request' solution hr' ha' hconsidered =>
    obtain rfl := hr.unique hr'
    refine ⟨hr.encode_eq, fun s' h => ?_, fun ha => ?_, fun solution' ha hnew' => ?_⟩
    · rw [hturn] at h
      subst h
      cases hconsidered with
      | refined added hnew hne hq => exact hq.same.2.2.2
    · rw [ha.proposal?_eq] at ha'
      contradiction
    · obtain rfl : solution = solution' := Option.some.inj (ha'.symm.trans ha)
      obtain ⟨v, hv, hkey⟩ := hnew'
      cases hconsidered with
      | verified hv' hq => exact absurd (hv' ▸ hv) List.not_mem_nil
      | stalled hv' hnew hq => exact absurd (newViolations_eq_nil.1 hnew v hv) hkey
      | refined added hnew hne hq =>
        exact ⟨_, added, hturn, rfl, rfl, hq.items, hne, hnew, hq.cuts⟩

/-- The last call of the planner after a turn proposes a solution. -/
def LastProposal (s : Search α) (t : Turn α) (q : Planner α) (request : Request α)
    (solution : Solution α) : Prop :=
  s.Asks t.elapsed request ∧
    proposal? (t.solve request.encoded.program request.params) = some solution ∧
    q.calls = s.planner.calls ++
      [s.call request (t.solve request.encoded.program request.params)]

/-- A turn ends the search with a plan only if this is the plan of the last answer and has no
violations, and with a dead end only if there are violations and each has a stored cut. -/
structure Justified (s : Search α) (t : Turn α) (o : Outcome α) : Prop where
  plan : ∀ plan, o.result = .ok plan → ∃ request solution,
    s.LastProposal t o.planner request solution ∧ plan = s.plan request solution ∧
      plan.violations s.planner.problem s.planner.simulationParams = []
  stalled : ∀ h i, o.result = .error (.stalled h i) → ∃ request solution,
    s.LastProposal t o.planner request solution ∧ s.violations request solution ≠ [] ∧
      ∀ v ∈ s.violations request solution,
        v.key s.planner.config.offsetMode ∈ s.planner.store.cutKeys

theorem Invariant.justified (hs : s.Invariant) {t : Turn α} {o : Outcome α}
    (h : s.turn t = .error o) : s.Justified t o := by
  have hturned := s.turned t hs.consistent
  rw [h] at hturned
  cases hturned with
  | unasked hr hq he =>
    refine ⟨fun plan hplan => (by cases hplan), fun h i hstalled => ?_⟩
    cases hstalled
    rcases he with ⟨_, _, he⟩ | ⟨_, _, he⟩ <;> contradiction
  | failed request hr ha hq =>
    exact ⟨fun plan hplan => (by cases hplan), fun h i hstalled => by cases hstalled⟩
  | proposed request solution hr ha hconsidered =>
    cases hconsidered with
    | verified hv hq =>
      refine ⟨fun plan hplan => ?_, fun h i hstalled => by cases hstalled⟩
      cases hplan
      exact ⟨request, solution, ⟨hr, ha, hq.calls⟩, rfl, hv⟩
    | stalled hv hnew hq =>
      refine ⟨fun plan hplan => (by cases hplan), fun h i _ => ?_⟩
      exact ⟨request, solution, ⟨hr, ha, hq.same.2.2.2⟩, hv, newViolations_eq_nil.1 hnew⟩

/-! ## Runs -/

theorem invariant_begin (problem : Problem α) (config : Config α) (bisectionSteps : Nat) :
    (Planner.begin { problem, config, bisectionSteps }).Invariant where
  consistent := CutStore.consistent_empty
  recorded := ⟨.nil, fun _ => rfl, fun _ h => absurd h List.not_mem_nil⟩
  current := rfl
  past _ h := absurd h List.not_mem_nil
  generated _ h := absurd h List.not_mem_nil
  stored := rfl

theorem callInvariant_begin (problem : Problem α) (config : Config α) (bisectionSteps : Nat) :
    (Planner.begin { problem, config, bisectionSteps }).CallInvariant (max config.horizon 1) where
  inOrder := ⟨fun _ h => (by cases h), .nil⟩
  fresh _ := ⟨rfl, rfl, rfl⟩
  next _ h := by cases h

/-- What every turn preserves holds after any number of turns. -/
theorem run_induction {I : Search α → Prop}
    (hI : ∀ s t s', I s → s.turn t = .ok s' → I s') {s s' : Search α} (hs : I s)
    {ts : List (Turn α)} (h : s.run ts = .ok s') : I s' := by
  induction ts generalizing s with
  | nil =>
    cases h
    exact hs
  | cons t ts ih =>
    cases hturn : s.turn t with
    | error o => simp [run, List.foldlM_cons, hturn, bind, Except.bind] at h
    | ok s₁ =>
      refine ih (hI s t s₁ hs hturn) ?_
      simpa [run, List.foldlM_cons, hturn, bind, Except.bind] using h

theorem Invariant.run_ok (hs : s.Invariant) (hc : s.CallInvariant first) {ts : List (Turn α)}
    {s' : Search α} (h : s.run ts = .ok s') : s'.Invariant ∧ s'.CallInvariant first :=
  run_induction (I := fun s => s.Invariant ∧ s.CallInvariant first)
    (fun _ _ _ hs hturn => hs.1.turn_ok hs.2 hturn) ⟨hs, hc⟩ h

/-- A run ends in some turn. -/
theorem run_error {ts : List (Turn α)} {o : Outcome α} (h : s.run ts = .error o) :
    ∃ ts' t s', ts' ++ [t] <+: ts ∧ s.run ts' = .ok s' ∧ s'.turn t = .error o := by
  induction ts generalizing s with
  | nil => cases h
  | cons t ts ih =>
    cases hturn : s.turn t with
    | error o' =>
      simp only [run, List.foldlM_cons, hturn, bind, Except.bind, Except.error.injEq] at h
      subst h
      exact ⟨[], t, s, by simp, rfl, hturn⟩
    | ok s₁ =>
      simp only [run, List.foldlM_cons, hturn, bind, Except.bind] at h
      obtain ⟨ts', t', s', hprefix, hrun, hturn'⟩ := ih h
      refine ⟨t :: ts', t', s', (List.prefix_cons_inj t).2 hprefix, ?_, hturn'⟩
      simpa [run, List.foldlM_cons, hturn, bind, Except.bind] using hrun

/-- A new planner searches in order: after any turns, the records agree with each other, every
request is followed by the right call, and the search ends for the right reasons only. -/
theorem run_in_order (problem : Problem α) (config : Config α) (bisectionSteps : Nat)
    (ts : List (Turn α)) :
    match (Planner.begin { problem, config, bisectionSteps }).run ts with
    | .ok s => s.planner.Recorded ∧ CallsInOrder (max config.horizon 1) s.planner.calls ∧
      ∀ t request, s.Asks t.elapsed request → s.GoesOn t request
    | .error o => o.planner.Recorded ∧ CallsInOrder (max config.horizon 1) o.planner.calls ∧
      ∃ ts' t s, ts' ++ [t] <+: ts ∧
        (Planner.begin { problem, config, bisectionSteps }).run ts' = .ok s ∧
        s.turn t = .error o ∧ s.Justified t o := by
  have hs := invariant_begin problem config bisectionSteps
  have hc := callInvariant_begin problem config bisectionSteps
  split
  · next s h =>
    obtain ⟨hs', hc'⟩ := hs.run_ok hc h
    exact ⟨hs'.recorded, hc'.inOrder, fun t request => hs'.goesOn⟩
  · next o h =>
    obtain ⟨ts', t, s, hprefix, hrun, hturn⟩ := run_error h
    obtain ⟨hs', hc'⟩ := hs.run_ok hc hrun
    obtain ⟨hrecorded, horder⟩ := hs'.turn_error hc' hturn
    exact ⟨hrecorded, horder, ts', t, s, hprefix, hrun, hturn, hs'.justified hturn⟩

end Search

end HybridPlan
