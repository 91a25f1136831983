import HybridPlan.Proofs.Domain.Acceptance
import HybridPlan.Proofs.Refinement.Termination

set_option autoImplicit false

/-! # Searches without a plan

A search that gives up reports a horizon. If the largest horizon was refused, or if the time is up
while proposals are refined, this is the horizon of the last call. But if the time is up after a
refusal it is one more, a horizon that was not tried; and if there was no call at all, it is the
first horizon or the one before. -/

namespace HybridPlan

variable {α : Type} [Scalar α]

/-! ## Giving up -/

namespace Planner

variable (p : Planner α)

/-- All the time that a search may take has passed. -/
def TimeUp (elapsed : Nanoseconds) : Prop :=
  Search.remaining? p.config.timeLimit elapsed = none

/-- How a search that made the given calls gives up, and the horizon that it reports. -/
inductive GivesUp (calls : List (CallRecord α)) (elapsed : Nanoseconds) : Nat → Prop
  /-- The last call was refused, at the largest horizon. -/
  | exhausted (c : CallRecord α) (hc : calls.getLast? = some c) (ha : IsRefusal c.answer)
      (hmax : p.config.maxHorizon = some c.horizon) : GivesUp calls elapsed c.horizon
  /-- The last call made a proposal, and there is no time for another one. -/
  | unrefined (c : CallRecord α) (hc : calls.getLast? = some c)
      (ha : ∃ solution, proposal? c.answer = some solution) (htime : p.TimeUp elapsed) :
      GivesUp calls elapsed c.horizon
  /-- The last call was refused, and there is no time for the next horizon. -/
  | unlengthened (c : CallRecord α) (hc : calls.getLast? = some c) (ha : IsRefusal c.answer)
      (htime : p.TimeUp elapsed) : GivesUp calls elapsed (c.horizon + 1)
  /-- There was no call, since the first horizon is too large. -/
  | excluded (hcalls : calls = []) (last : Nat) (hmax : p.config.maxHorizon = some last)
      (hlast : last < p.begin.horizon) : GivesUp calls elapsed (p.begin.horizon - 1)
  /-- There was no time for a call. -/
  | late (hcalls : calls = []) (htime : p.TimeUp elapsed) : GivesUp calls elapsed p.begin.horizon

end Planner

namespace Search

/-! ## The horizon after a call -/

/-- The search that a planner has come to with the given calls is at the horizon of the last one, or
after a refusal at the next one. -/
structure Follows (p : Planner α) (made : List (CallRecord α)) (s : Search α) : Prop where
  consistent : s.planner.store.Consistent
  calls : s.planner.calls = p.calls ++ made
  config : s.planner.config = p.config
  first : made = [] → s.horizon = p.begin.horizon
  next : ∀ c, made.getLast? = some c →
    (IsRefusal c.answer ∧ s.horizon = c.horizon + 1) ∨
    ((∃ solution, proposal? c.answer = some solution) ∧ s.horizon = c.horizon)
  allowed : ∀ c, made.getLast? = some c →
    ∀ last, p.config.maxHorizon = some last → c.horizon ≤ last

variable {p q : Planner α} {made : List (CallRecord α)} {s : Search α}

/-- A call has been made. -/
theorem Follows.of_called (hs : Follows p made s) {elapsed : Nanoseconds} {request : Request α}
    (hr : s.Asks elapsed request) (answer : Except SolverError (SolveResult α)) {s' : Search α}
    (hconsistent : s'.planner.store.Consistent)
    (hcalls : s'.planner.calls = s.planner.calls ++ [s.call request answer])
    (hconfig : s'.planner.config = s.planner.config)
    (hnext : (IsRefusal answer ∧ s'.horizon = s.horizon + 1) ∨
      ((∃ solution, proposal? answer = some solution) ∧ s'.horizon = s.horizon)) :
    Follows p (made ++ [s.call request answer]) s' where
  consistent := hconsistent
  calls := by rw [hcalls, hs.calls, List.append_assoc]
  config := hconfig.trans hs.config
  first h := by simp at h
  next c hc := by
    rw [List.getLast?_concat] at hc
    cases hc
    exact hnext
  allowed c hc last hlast := by
    rw [List.getLast?_concat] at hc
    cases hc
    exact hr.horizon_le (hs.config ▸ hlast)

theorem Follows.turn_ok (hs : Follows p made s) {t : Turn α} {s' : Search α}
    (h : s.turn t = .ok s') : ∃ c, Follows p (made ++ [c]) s' := by
  have hturned := s.turned t hs.consistent
  rw [h] at hturned
  cases hturned with
  | lengthened request hr ha hq =>
    refine ⟨_, hs.of_called hr _ ?_ hq.calls ?_ (.inl ⟨ha, rfl⟩)⟩
    · obtain ⟨_, _, rfl⟩ := hq
      exact CutStore.consistent_empty
    · obtain ⟨_, _, rfl⟩ := hq
      rfl
  | proposed request solution hr ha hconsidered =>
    cases hconsidered with
    | refined added hnew hne hq =>
      exact ⟨_, hs.of_called hr _ hq.consistent hq.same.2.2.2 hq.same.1
        (.inr ⟨⟨solution, ha⟩, rfl⟩)⟩

theorem follows_begin (hp : p.store.Consistent) : Follows p [] p.begin where
  consistent := hp
  calls := (List.append_nil _).symm
  config := rfl
  first _ := rfl
  next _ h := by cases h
  allowed _ h := by cases h

/-! ## Reported horizons -/

/-- A search gives up before a call, since the horizon is too large or the time is up. -/
theorem turn_noPlanFound (hs : s.planner.store.Consistent) {t : Turn α} {h : Nat}
    {elapsed : Nanoseconds} (hturn : s.turn t = .error ⟨q, .error (.noPlanFound h elapsed)⟩) :
    q = s.planner ∧
      ((∃ last, s.planner.config.maxHorizon = some last ∧ last < s.horizon ∧ h = s.horizon - 1) ∨
        s.planner.TimeUp elapsed ∧ h = s.horizon) := by
  have hturned := s.turned t hs
  rw [hturn] at hturned
  cases hturned with
  | proposed request solution hr ha hconsidered => cases hconsidered
  | unasked hr _ _ =>
    cases hrequest : s.request t.elapsed with
    | ok r => exact absurd ⟨r.1, hrequest⟩ (hr r.2)
    | error o =>
      obtain rfl : o = ⟨q, .error (.noPlanFound h elapsed)⟩ := by
        simpa [turn, hrequest, bind, Except.bind] using hturn
      unfold request at hrequest
      split at hrequest
      · next hlong =>
        cases hrequest
        unfold isTooLong at hlong
        split at hlong
        · next last hlast => exact ⟨rfl, .inl ⟨last, hlast, by simpa using hlong, rfl⟩⟩
        · contradiction
      · split at hrequest
        · next htime =>
          cases hrequest
          exact ⟨rfl, .inr ⟨htime, rfl⟩⟩
        · dsimp only at hrequest
          split at hrequest
          · cases hrequest
          · cases hrequest

theorem Follows.givesUp (hs : Follows p made s) {t : Turn α} {h : Nat} {elapsed : Nanoseconds}
    (hturn : s.turn t = .error ⟨q, .error (.noPlanFound h elapsed)⟩) :
    q.calls = p.calls ++ made ∧ p.GivesUp made elapsed h := by
  obtain ⟨rfl, hreason⟩ := turn_noPlanFound hs.consistent hturn
  refine ⟨hs.calls, ?_⟩
  have htime (h : s.planner.TimeUp elapsed) : p.TimeUp elapsed := by
    unfold Planner.TimeUp at h
    rwa [hs.config] at h
  rw [hs.config] at hreason
  cases hc : made.getLast? with
  | none =>
    have hmade : made = [] := List.getLast?_eq_none_iff.1 hc
    rw [hs.first hmade] at hreason
    rcases hreason with ⟨last, hmax, hlast, rfl⟩ | ⟨hup, rfl⟩
    · exact .excluded hmade last hmax hlast
    · exact .late hmade (htime hup)
  | some c =>
    rcases hs.next c hc with ⟨ha, hhorizon⟩ | ⟨ha, hhorizon⟩
    · rw [hhorizon] at hreason
      rcases hreason with ⟨last, hmax, hlast, rfl⟩ | ⟨hup, rfl⟩
      · obtain rfl : last = c.horizon :=
          Nat.le_antisymm (Nat.le_of_lt_succ hlast) (hs.allowed c hc last hmax)
        exact .exhausted c hc ha hmax
      · exact .unlengthened c hc ha (htime hup)
    · rw [hhorizon] at hreason
      rcases hreason with ⟨last, hmax, hlast, rfl⟩ | ⟨hup, rfl⟩
      · exact absurd (hs.allowed c hc last hmax) (Nat.not_le.2 hlast)
      · exact .unrefined c hc ha (htime hup)

theorem Follows.run_ok (hs : Follows p made s) {ts : List (Turn α)} {s' : Search α}
    (h : s.run ts = .ok s') : ∃ made', Follows p made' s' :=
  run_induction (I := fun s => ∃ made, Follows p made s)
    (fun _ _ _ ⟨_, hs⟩ hturn => (hs.turn_ok hturn).elim fun _ hs => ⟨_, hs⟩) ⟨made, hs⟩ h

/-- A search that gives up reports the horizon of the last call, unless the time is up after a
refusal or there was no call. -/
theorem run_givesUp (p : Planner α) (hp : p.store.Consistent) (ts : List (Turn α)) {h : Nat}
    {elapsed : Nanoseconds} (hrun : p.begin.run ts = .error ⟨q, .error (.noPlanFound h elapsed)⟩) :
    ∃ calls, q.calls = p.calls ++ calls ∧ p.GivesUp calls elapsed h := by
  obtain ⟨ts', t, s, -, hrun, hturn⟩ := run_error hrun
  obtain ⟨made, hs⟩ := (follows_begin hp).run_ok hrun
  exact ⟨made, hs.givesUp hturn⟩

/-- A search for at least five stages of which it may try three reports four. -/
theorem run_givesUp_waiting : ∃ p : Planner Exact, p.config.horizon = 5 ∧
    p.config.maxHorizon = some 3 ∧ ∃ calls, p.calls = p.calls ++ calls ∧ p.GivesUp calls 0 4 := by
  obtain ⟨P, -⟩ := Waiting.exists_default .le
  let config : Config Exact := { P.config with horizon := 5, maxHorizon := some 3 }
  let p : Planner Exact := { problem := P.problem, config, bisectionSteps := 50 }
  let t : Turn Exact := ⟨0, fun _ _ => .ok .infeasible⟩
  have hrun : p.begin.run [t] = .error ⟨p, .error (.noPlanFound 4 0)⟩ := rfl
  exact ⟨p, rfl, rfl, run_givesUp p CutStore.consistent_empty [t] hrun⟩

end Search

end HybridPlan
