import HybridPlan.Proofs.Encoding.Stability
import HybridPlan.Proofs.Refinement.Run
import HybridPlan.Proofs.Simulation

set_option autoImplicit false

/-! # Programs of successive calls

While a search stays at a horizon, the program of each call continues that of the call before: what
was there stays, in spite of the arena that has grown in between, and what is new are the rows of
the new cuts. So the feasible set never grows. -/

namespace HybridPlan

variable {α : Type} [Scalar α]

/-! ## Continued programs -/

/-- The program with further rows, at least one, and switches, all with the names of a label. -/
structure Program.ContinuedBy (label : String) (p q : Program α) : Prop where
  adds : p.Adds (Encoding.switches label) (Encoding.named label) q
  row : p.rows.size < q.rows.size

/-- The program of a call. -/
def CallRecord.program (c : CallRecord α) : Program α := c.request.encoded.program

/-- A later call with a continued program: besides what was there it has, for each new cut in turn,
rows and switches with the names of the cut. Every feasible point is one of the earlier program, up
to the values of new variables. -/
structure CallRecord.ContinuedIn (c c' : CallRecord α) : Prop where
  added : ∃ added, added ≠ [] ∧ c'.cuts = c.cuts ++ added ∧
    Steps (fun x p q => p.ContinuedBy (Encoding.cutLabel x.2 x.1) q)
      (added.zipIdx c.cuts.length) c.program c'.program
  vars : c.program.vars.toList <+: c'.program.vars.toList
  terms : c.program.terms.items.toList <+: c'.program.terms.items.toList
  rows : c.program.rows.toList <+: c'.program.rows.toList
  row : c.program.rows.size < c'.program.rows.size
  objective : c'.program.objective = c.program.objective
  sense : c'.program.sense = c.program.sense
  feasible : ∀ x y, (∀ v < c.program.vars.size, y v = x v) → c'.program.Feasible y →
    c.program.Feasible x

theorem Program.adds_of_steps {cs : List (Cut α × Nat)} {p q : Program α}
    (h : Steps (fun x p q => p.ContinuedBy (Encoding.cutLabel x.2 x.1) q) cs p q) :
    p.Adds Set.univ Set.univ q := by
  induction h with
  | nil => exact .refl _
  | cons h _ ih => exact (h.adds.mono (Set.subset_univ _) (Set.subset_univ _)).trans ih

theorem Program.rows_size_lt_of_steps {cs : List (Cut α × Nat)} (hcs : cs ≠ []) {p q : Program α}
    (h : Steps (fun x p q => p.ContinuedBy (Encoding.cutLabel x.2 x.1) q) cs p q) :
    p.rows.size < q.rows.size := by
  cases h with
  | nil => exact absurd rfl hcs
  | cons h hrest =>
    exact Nat.lt_of_lt_of_le h.row (Program.adds_of_steps hrest).isPrefix_rows.length_le

/-- The rows of cuts continue a program if the plan has their stages. -/
theorem Encoding.continued_of_cuts {V : Vocabulary α} {p : Problem α} (hp : p.arena.WellFormed)
    {horizon : Nat} {cs : List (Cut α × Nat)}
    (hcs : ∀ c ∈ cs, c.1.stage < horizon ∧ p.arena.Uses V c.1.expr) {s s' : State α}
    (hs : s.WellFormed) (h : Steps (CutFor p horizon) cs s s') :
    s'.WellFormed ∧
      Steps (fun x p q => p.ContinuedBy (cutLabel x.2 x.1) q) cs s.program s'.program := by
  induction h with
  | nil => exact ⟨hs, .nil⟩
  | @cons c cs s s₁ s' hc _ ih =>
    rw [List.forall_mem_cons] at hcs
    have hgrows := hc.grows hp hs
    obtain ⟨hs', hrest⟩ := ih hcs.2 hgrows.wellFormed
    refine ⟨hs', .cons ⟨hgrows.adds, ?_⟩ hrest⟩
    rw [CutFor, if_pos hcs.1.1] at hc
    exact constraint_adds_row hp hcs.1.2 hc hs

/-- A call for a problem that has grown, with further cuts of stages that the plan has. -/
theorem CallRecord.continuedIn {V : Vocabulary α} {c c' : CallRecord α} {p q : Problem α}
    (hp : p.MadeOf V) (hpq : p.Grows q) {horizon : Nat} {store store' : CutStore α}
    (hcuts : c.cuts = store.items.toList) (hcuts' : c'.cuts = store'.items.toList)
    (hstore : ∀ d ∈ store.items.toList, p.arena.Uses V d.expr) {added : List (Cut α)}
    (hadded : store'.items.toList = store.items.toList ++ added) (hne : added ≠ [])
    (hnew : ∀ d ∈ added, d.stage < horizon ∧ q.arena.Uses V d.expr)
    (h : encode p horizon store = .ok c.request.encoded)
    (h' : encode q horizon store' = .ok c'.request.encoded) : c.ContinuedIn c' := by
  obtain ⟨s, s', hs, hprogram, hprogram', hsteps⟩ :=
    encode_continues hp hpq hstore hadded h h'
  obtain ⟨hs', hcontinued⟩ := Encoding.continued_of_cuts (hp.grows hpq).domain.arena
    (fun d hd => hnew _ (List.fst_mem_of_mem_zipIdx hd)) hs hsteps
  have hlength : c.cuts.length = store.size := by
    rw [hcuts]
    rfl
  change c.program = s.program at hprogram
  change c'.program = s'.program at hprogram'
  rw [← hlength, ← hprogram, ← hprogram'] at hcontinued
  have hadds := Program.adds_of_steps hcontinued
  have hzip : added.zipIdx c.cuts.length ≠ [] := by simpa using hne
  exact
    { added := ⟨added, hne, by rw [hcuts', hadded, hcuts], hcontinued⟩
      vars := hadds.isPrefix_vars
      terms := hadds.terms
      rows := hadds.isPrefix_rows
      row := Program.rows_size_lt_of_steps hzip hcontinued
      objective := hadds.objective
      sense := hadds.sense
      feasible := fun x y hxy hy => .of_adds hadds (hprogram ▸ hs.program)
        (hprogram' ▸ hs'.program) hxy hy }

/-! ## Searches -/

namespace Search

/-- Whatever is at the same horizon is continued. -/
def CallsContinued (calls : List (CallRecord α)) : Prop :=
  calls.IsChain fun c c' => c'.horizon = c.horizon → c.ContinuedIn c'

/-- The last call was for the problem as it was then, with fewer cuts. -/
structure Continues (s : Search α) (c : CallRecord α) (p : Problem α) (store : CutStore α)
    (added : List (Cut α)) : Prop where
  made : p.MadeOf (.all α)
  grows : p.Grows s.planner.problem
  within : store.Within p
  encoded : encode p c.horizon store = .ok c.request.encoded
  cuts : c.cuts = store.items.toList
  items : s.planner.store.items.toList = store.items.toList ++ added
  new : added ≠ []
  stage : ∀ d ∈ added, d.stage < s.horizon

/-- The problem at hand is that of a domain that was read, the store holds expressions of it, and
the program of the next call at the horizon of the last one will continue the last program. -/
structure ExtensionInvariant (s : Search α) : Prop where
  consistent : s.planner.store.Consistent
  made : s.planner.problem.MadeOf (.all α)
  within : s.planner.store.Within s.planner.problem
  chain : CallsContinued s.planner.calls
  last : ∀ c ∈ s.planner.calls.getLast?, c.horizon = s.horizon →
    ∃ p store added, s.Continues c p store added

variable {s : Search α}

theorem ExtensionInvariant.called (hs : s.ExtensionInvariant) {elapsed : Nanoseconds}
    {request : Request α} (hr : s.Asks elapsed request)
    (answer : Except SolverError (SolveResult α)) :
    CallsContinued (s.called request answer).planner.calls := by
  refine List.isChain_append.2 ⟨hs.chain, .singleton _, fun c hc c' hc' hhorizon => ?_⟩
  obtain rfl : s.call request answer = c' := by simpa using hc'
  obtain ⟨p, store, added, h⟩ := hs.last c hc hhorizon.symm
  have hencoded : encode p s.horizon store = .ok c.request.encoded := by
    rw [← h.encoded, ← hhorizon]
    rfl
  refine CallRecord.continuedIn h.made h.grows h.cuts rfl h.within h.items h.new
    (fun d hd => ⟨h.stage d hd, hs.within d ?_⟩) hencoded hr.encode_eq
  rw [h.items]
  exact List.mem_append_right _ hd

/-- A violation of a proposed plan is one of a stage that the plan has. -/
theorem stage_lt_of_mem_violations {elapsed : Nanoseconds} {request : Request α}
    (hr : s.Asks elapsed request) {solution : Solution α} {v : Violation α}
    (hv : v ∈ s.violations request solution) : v.stage < s.horizon := by
  obtain ⟨st, hst, hstage⟩ := Plan.exists_stage_of_mem_violations hv
  obtain ⟨t, ht, rfl⟩ := List.mem_map.1 hst
  have hhorizon : request.encoded.horizon = s.horizon := (encode_eq_ok hr.encode_eq).1
  rw [hhorizon, List.mem_range] at ht
  rwa [hstage]

/-- A call has been made. -/
theorem ExtensionInvariant.of_called (hs : s.ExtensionInvariant) {elapsed : Nanoseconds}
    {request : Request α} (hr : s.Asks elapsed request)
    {answer : Except SolverError (SolveResult α)} {s' : Search α}
    (hcalls : s'.planner.calls = (s.called request answer).planner.calls)
    (hconsistent : s'.planner.store.Consistent) (hmade : s'.planner.problem.MadeOf (.all α))
    (hwithin : s'.planner.store.Within s'.planner.problem)
    (hlast : s.horizon = s'.horizon →
      ∃ p store added, s'.Continues (s.call request answer) p store added) :
    s'.ExtensionInvariant where
  consistent := hconsistent
  made := hmade
  within := hwithin
  chain := hcalls ▸ hs.called hr answer
  last c hc hhorizon := by
    rw [hcalls, Search.called, List.getLast?_concat] at hc
    cases hc
    exact hlast hhorizon

theorem ExtensionInvariant.turn_ok (hs : s.ExtensionInvariant) {t : Turn α} {s' : Search α}
    (h : s.turn t = .ok s') : s'.ExtensionInvariant := by
  have hturned := s.turned t hs.consistent
  rw [h] at hturned
  cases hturned with
  | lengthened request hr ha hq =>
    obtain ⟨results, log, rfl⟩ := hq
    refine hs.of_called hr rfl CutStore.consistent_empty hs.made (CutStore.within_empty _)
      fun hhorizon => ?_
    exact absurd hhorizon (Nat.ne_of_lt (Nat.lt_succ_self s.horizon))
  | proposed request solution hr ha hconsidered =>
    cases hconsidered with
    | refined added hnew hne hq =>
      obtain ⟨hgrows, hwithin⟩ := hq.grows hs.made hs.within
      refine hs.of_called hr hq.same.2.2.2 hq.consistent (hs.made.grows hgrows) hwithin fun _ =>
        ⟨s.planner.problem, s.planner.store, added.map (·.2), ?_⟩
      exact
        { made := hs.made
          grows := hgrows
          within := hs.within
          encoded := hr.encode_eq
          cuts := rfl
          items := hq.items
          new := by simpa using hne
          stage := fun d hd => by
            obtain ⟨x, hx, rfl⟩ := List.mem_map.1 hd
            obtain ⟨a, ha⟩ := hq.cuts x hx
            have hmem : x.1 ∈ s.newViolations request solution :=
              hnew ▸ List.mem_map_of_mem hx
            rw [ha]
            exact stage_lt_of_mem_violations hr (mem_of_mem_newViolations hmem) }

theorem ExtensionInvariant.turn_error (hs : s.ExtensionInvariant) {t : Turn α} {o : Outcome α}
    (h : s.turn t = .error o) : CallsContinued o.planner.calls := by
  have hturned := s.turned t hs.consistent
  rw [h] at hturned
  cases hturned with
  | unasked hr hq he => exact hq.calls ▸ hs.chain
  | failed request hr ha hq => exact hq.calls ▸ hs.called hr _
  | proposed request solution hr ha hconsidered =>
    cases hconsidered with
    | verified hv hq => exact hq.calls ▸ hs.called hr _
    | stalled hv hnew hq => exact hq.same.2.2.2 ▸ hs.called hr _

theorem extensionInvariant_begin {problem : Problem α} (hp : problem.MadeOf (.all α))
    (config : Config α) (bisectionSteps : Nat) :
    (Planner.begin { problem, config, bisectionSteps }).ExtensionInvariant where
  consistent := CutStore.consistent_empty
  made := hp
  within := CutStore.within_empty _
  chain := .nil
  last _ h := by cases h

/-- In a search for a problem that was read, the program of each call continues that of the call
before as long as the horizon stays, whatever the solver answers. -/
theorem run_continues (P : ReadProblem α) (config : Config α) (bisectionSteps : Nat)
    (ts : List (Turn α)) :
    match (Planner.begin { problem := P.problem, config, bisectionSteps }).run ts with
    | .ok s => CallsContinued s.planner.calls
    | .error o => CallsContinued o.planner.calls := by
  have hs := extensionInvariant_begin P.madeOf config bisectionSteps
  split
  · next s h => exact (run_induction (fun _ _ _ hs => hs.turn_ok) hs h).chain
  · next o h =>
    obtain ⟨ts', t, s, -, hrun, hturn⟩ := run_error h
    exact (run_induction (fun _ _ _ hs => hs.turn_ok) hs hrun).turn_error hturn

end Search

end HybridPlan
