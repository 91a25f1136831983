import HybridPlan.Proofs.Validity
import HybridPlan.Refinement

set_option autoImplicit false

/-! # Which violations become cuts

A violation becomes a cut unless the store holds a cut with its key. Here this is followed through a
list of violations, of which later ones may have the keys of earlier ones. -/

namespace HybridPlan

variable {α : Type} [Scalar α]

/-! ## Exclusion of violations -/

/-- A planner that differs in the kept values and in the log at most. -/
def Planner.Like (p q : Planner α) : Prop := ∃ results log, q = { p with results, log }

theorem Planner.Like.refl (p : Planner α) : p.Like p := ⟨p.results, p.log, rfl⟩

theorem Planner.Like.calls {p q : Planner α} (hq : p.Like q) : q.calls = p.calls := by
  obtain ⟨_, _, rfl⟩ := hq
  rfl

theorem Planner.like_note (p : Planner α) (level : LogLevel) (text : String) :
    p.Like (p.note level text) :=
  ⟨p.results, _, rfl⟩

/-- What the exclusion of violations does to a planner: the cuts of `added` are stored and recorded,
nothing else changes but the arena. -/
structure Planner.Excluded (p q : Planner α) (h i : Nat) (added : List (Violation α × Cut α)) :
    Prop where
  cuts : ∀ x ∈ added, ∃ a, x.2 = x.1.cut (p.problem.withArena a) p.config.offsetMode i
  items : q.store.items.toList = p.store.items.toList ++ added.map (·.2)
  newCuts : q.newCuts = p.newCuts ++
    added.map fun x => CutRow.of x.2 x.1.intervalStart x.1.intervalEnd h
  consistent : q.store.Consistent
  problem : ∃ a, q.problem = p.problem.withArena a
  grows : p.problem.MadeOf (.all α) → p.store.Within p.problem →
    p.problem.Grows q.problem ∧ q.store.Within q.problem
  valid : p.problem.Valid → p.store.Within p.problem → p.store.Valid p.problem →
    (∀ x ∈ added, x.1.constraint < p.problem.temporal.length) → q.store.Valid q.problem
  same : q.config = p.config ∧ q.bisectionSteps = p.bisectionSteps ∧ q.history = p.history ∧
    q.calls = p.calls

namespace Planner.Excluded

variable {p q r : Planner α} {h i : Nat} {added added' : List (Violation α × Cut α)}

theorem refl (hp : p.store.Consistent) : p.Excluded p h i [] :=
  ⟨by simp, by simp, by simp, hp, ⟨p.problem.arena, rfl⟩, fun _ hs => ⟨.refl _, hs⟩,
    fun _ _ hs _ => hs, rfl, rfl, rfl, rfl⟩

theorem trans (hpq : p.Excluded q h i added) (hqr : q.Excluded r h i added') :
    p.Excluded r h i (added ++ added') := by
  obtain ⟨hconfig, hsteps, hhistory, hcalls⟩ := hpq.same
  obtain ⟨hconfig', hsteps', hhistory', hcalls'⟩ := hqr.same
  obtain ⟨a, ha⟩ := hpq.problem
  refine ⟨?_, ?_, ?_, hqr.consistent, ?_, fun hp hs => ?_, fun hp hs hvalid hadded => ?_,
    hconfig'.trans hconfig, hsteps'.trans hsteps, hhistory'.trans hhistory, hcalls'.trans hcalls⟩
  · intro x hx
    rcases List.mem_append.1 hx with hx | hx
    · exact hpq.cuts x hx
    · obtain ⟨b, hb⟩ := hqr.cuts x hx
      rw [ha, hconfig] at hb
      exact ⟨b, hb⟩
  · rw [hqr.items, hpq.items, List.map_append, List.append_assoc]
  · rw [hqr.newCuts, hpq.newCuts, List.map_append, List.append_assoc]
  · obtain ⟨b, hb⟩ := hqr.problem
    exact ⟨b, by rw [hb, ha]; rfl⟩
  · obtain ⟨hgrows, hs⟩ := hpq.grows hp hs
    obtain ⟨hgrows', hs⟩ := hqr.grows (hp.grows hgrows) hs
    exact ⟨hgrows.trans hgrows', hs⟩
  · obtain ⟨hgrows, hs'⟩ := hpq.grows hp.made hs
    have hvalid := hpq.valid hp hs hvalid fun x hx => hadded x (List.mem_append_left _ hx)
    refine hqr.valid (hp.grows hgrows) hs' hvalid fun x hx => ?_
    rw [ha]
    exact hadded x (List.mem_append_right _ hx)

/-- The kept values and the log do not matter. -/
theorem like {p' q' : Planner α} (hp : p.Like p') (hpq : p'.Excluded q h i added)
    (hq : q.Like q') : p.Excluded q' h i added := by
  obtain ⟨results, log, rfl⟩ := hp
  obtain ⟨results', log', rfl⟩ := hq
  exact ⟨hpq.cuts, hpq.items, hpq.newCuts, hpq.consistent, hpq.problem, hpq.grows, hpq.valid,
    hpq.same⟩

/-- The stored keys afterwards are the old ones and those of the violations that became cuts. -/
theorem cutKeys (hpq : p.Excluded q h i added) :
    q.store.cutKeys = p.store.cutKeys ++ added.map fun x => x.1.key p.config.offsetMode := by
  unfold CutStore.cutKeys
  rw [hpq.items, List.map_append, List.map_map]
  congr 1
  refine List.map_congr_left fun x hx => ?_
  obtain ⟨a, ha⟩ := hpq.cuts x hx
  rw [Function.comp_apply, ha, Violation.key_cut]

end Planner.Excluded

theorem Search.exclude_excluded {p : Planner α} (hp : p.store.Consistent) (h i : Nat)
    (v : Violation α) : ∃ added, p.Excluded (Search.exclude p h i v) h i added ∧
      added.map (·.1) =
        if v.key p.config.offsetMode ∈ p.store.cutKeys then [] else [v] := by
  by_cases hv : p.store.keys.contains (v.key p.config.offsetMode)
  · refine ⟨[], ?_, by rw [if_pos ((hp _).1 hv)]; rfl⟩
    unfold Search.exclude
    rw [p.store.add_of_stored p.problem i hv]
    exact ⟨by simp, by simp, by simp, hp, ⟨p.problem.arena, rfl⟩, fun _ hs => ⟨.refl _, hs⟩,
      fun _ _ hs _ => hs, rfl, rfl, rfl, rfl⟩
  · refine ⟨[(v, v.cut p.problem p.config.offsetMode i)], ?_, by
      rw [if_neg fun hk => hv ((hp _).2 hk)]; rfl⟩
    have hwithin (hmade : p.problem.MadeOf (.all α)) (hs : p.store.Within p.problem) :=
      CutStore.within_add hmade hs v p.config.offsetMode i
    have hvalid (hmade : p.problem.Valid) (hs : p.store.Valid p.problem)
        (hlt : v.constraint < p.problem.temporal.length) :=
      CutStore.valid_add hmade hs hlt p.config.offsetMode i
    rw [p.store.add_of_new p.problem i hv] at hwithin hvalid
    unfold Search.exclude
    rw [p.store.add_of_new p.problem i hv]
    refine ⟨?_, by simp, by simp, hp.push_cut p.problem i v _, ⟨_, rfl⟩, hwithin,
      fun hmade _ hs hlt => hvalid hmade hs (hlt _ (List.mem_singleton_self _)), rfl, rfl, rfl, rfl⟩
    intro x hx
    exact ⟨p.problem.arena, by rw [List.mem_singleton.1 hx]; rfl⟩

/-- The violations that become cuts are those with new keys, in their order. -/
theorem Search.foldl_exclude {p : Planner α} (hp : p.store.Consistent) (h i : Nat)
    (vs : List (Violation α)) :
    ∃ added, p.Excluded (vs.foldl (Search.exclude · h i ·) p) h i added ∧
      added.map (·.1) = newViolations p.config.offsetMode p.store.cutKeys vs := by
  induction vs generalizing p with
  | nil => exact ⟨[], .refl hp, rfl⟩
  | cons v vs ih =>
    obtain ⟨first, hfirst, hv⟩ := Search.exclude_excluded hp h i v
    obtain ⟨rest, hrest, hvs⟩ := ih hfirst.consistent
    refine ⟨first ++ rest, hfirst.trans hrest, ?_⟩
    have hkeys : first.map (fun x => x.1.key p.config.offsetMode) =
        (first.map (·.1)).map (·.key p.config.offsetMode) := by rw [List.map_map]; rfl
    rw [List.map_append, hvs, hfirst.cutKeys, hfirst.same.1, hkeys, hv]
    simp only [newViolations]
    split
    · simp
    · simp

end HybridPlan
