import HybridPlan.Proofs.Cut
import HybridPlan.Proofs.Domain.Names
import HybridPlan.Proofs.Domain.Validity

set_option autoImplicit false

/-! # Valid problems

What the checks establish of a domain is passed on: to the closed forms, which are arithmetic over
what the dynamics may use, to the temporal constraints whose next values are replaced by closed
forms, and to the constraints of cuts. -/

namespace HybridPlan

open Build

variable {α : Type} [Scalar α]

/-! ## Problems -/

namespace Problem

/-- A problem of a valid domain: its closed forms are arithmetic, and its resolved constraints have the
shape of constraints, without next values. -/
structure Valid (p : Problem α) : Prop where
  made : p.MadeOf (.all α)
  named : p.domain.Named
  domain : p.domain.Valid
  transitions : ∀ t ∈ p.transitions, p.arena.Uses (p.domain.vocabulary .dynamics) t.2
  temporal : ∀ e ∈ p.temporal, p.arena.Shaped (p.domain.vocabulary .dynamics) e

theorem Valid.grows {p q : Problem α} (hp : p.Valid) (hpq : p.Grows q) : q.Valid := by
  have hmade := hp.made.grows hpq
  obtain ⟨a, rfl, hle, -⟩ := hpq
  exact ⟨hmade, hp.named.withArena a, hp.domain.mono hle, fun t ht => (hp.transitions t ht).mono hle,
    fun e he => (hp.temporal e he).mono hle⟩

/-- Once all states have closed forms, no next values are left. -/
theorem leaves_nextValues {d : Domain α} {ts : Transitions}
    (hts : ts.map (·.1) = d.stateNames) :
    Leaves (nextValues ts) (d.vocabulary .constraint) (d.vocabulary .dynamics) := by
  refine ⟨Vocabulary.closed_arithmetic _, fun _ h => h, ?_, fun _ _ h => h, fun h => h⟩
  rintro s ⟨r, hr, -⟩ hnone
  refine ⟨r, hr, ?_⟩
  rintro v rfl
  obtain ⟨-, rfl, hv, hrole⟩ := Domain.resolve?_eq_next hr
  have hstate : v.name.text ∈ d.stateNames :=
    List.mem_map_of_mem (List.mem_filter.2 ⟨hv, by simpa using hrole⟩)
  rw [← hts] at hstate
  obtain ⟨⟨state, e⟩, ht, hname⟩ := List.mem_map.1 hstate
  refine absurd (List.mem_map.2 ⟨(state, e), ht, ?_⟩) (not_mem_of_ofList hnone e)
  exact congrArg (fun s => (nextName s, e)) hname

theorem valid_ofDomain {d : Domain α} {config : Config α} {p : Problem α}
    (h : ofDomain d config = .ok p) (hd : d.MadeOf (.all α)) (hnamed : d.Named) (hvalid : d.Valid) :
    p.Valid := by
  obtain ⟨hmade, -⟩ := ofDomain_eq_ok Vocabulary.closed_all h hd trivial fun _ _ => trivial
  unfold ofDomain at h
  split at h
  · cases h
  · next ts temporal a hrun =>
    cases h
    obtain ⟨ts', a₁, hts, htemporal⟩ := Attempt.run_bind_eq_ok.1 hrun
    obtain ⟨temporal', a₂, htemporal, hpure⟩ := Attempt.run_bind_eq_ok.1 htemporal
    cases hpure
    -- the closed forms use what the right-hand sides use, and states and the duration
    have hnames := Transitions.gives_resolve d d.arena ts (congrArg Prod.fst hts)
    have hhas {v : Variable} {s : String} (h : d.declared? s = some v) : d.Has .dynamics s :=
      ⟨.var v, Domain.resolve?_eq_var.2 h, fun _ h => by cases h⟩
    have hstates : ∀ s ∈ d.stateNames, d.Has .dynamics s := by
      intro s hs
      obtain ⟨v, hv, rfl⟩ := List.mem_map.1 hs
      exact hhas (hnamed.declared? (List.mem_of_mem_filter hv))
    have hdt : d.Has .dynamics d.dt := by
      obtain ⟨v, hv, -⟩ := hnamed.duration
      exact hhas hv
    obtain ⟨ha₁, hle₁, hclosed⟩ := (Transitions.yields_resolve (V := d.vocabulary .dynamics)
      (C := {x | d.arena.Uses (d.vocabulary .dynamics) x}) (Vocabulary.closed_arithmetic _) hdt
      hstates hvalid.equations).of_run hts hd.arena fun x hx => hx
    -- so they can replace next values
    have hresolve (c : Constraint) (hc : c ∈ d.temporal) (b : Arena α) (hb : b.WellFormed)
        (hle : a₁ ≤ b) : Leads (Build.substitute (nextValues ts) c.expr) b
          fun b e => b.Shaped (d.vocabulary .dynamics) e := by
      have hle' := le_trans hle₁ hle
      refine leads_substitute_shaped (leaves_nextValues hnames) (fun s x h => ?_) hb
        ((hd.formulas c (by simp [Domain.formulas, hc])).mono hle')
        ((hvalid.temporal c hc).mono hle')
      obtain ⟨t, ht, heq⟩ := List.mem_map.1 (mem_of_ofList h)
      cases heq
      exact (hclosed _ ⟨t, ht, rfl⟩).mono hle
    obtain ⟨-, hle₂, hshaped⟩ := (Attempt.Leads.mapM (fun _ _ _ _ hbc h => h.mono hbc) ha₁
      fun c hc b hb hle => .lift (hresolve c hc b hb hle)).of_run htemporal
    refine ⟨hmade, hnamed.withArena _, hvalid.mono (le_trans hle₁ hle₂),
      fun t ht => (hclosed _ ⟨t, ht, rfl⟩).mono hle₂, fun e he => ?_⟩
    obtain ⟨c, -, hc⟩ := exists_of_forall₂ hshaped he
    exact hc

end Problem

/-- A problem of a domain that was read is valid. -/
theorem ReadProblem.valid (P : ReadProblem α) : P.problem.Valid := by
  obtain ⟨hd, -, -⟩ := Domain.read_eq_ok Vocabulary.complete_all P.read
  exact Problem.valid_ofDomain P.derived hd (Domain.named_of_read P.read)
    (Domain.valid_of_read P.read)

/-! ## Cuts -/

/-- The constraint of a cut has the shape of a constraint. -/
theorem Violation.leads_materialize {p : Problem α} (hp : p.Valid) {v : Violation α}
    (hv : v.constraint < p.temporal.length) (mode : OffsetMode) :
    Leads (v.materialize p mode) p.arena fun b e => b.Shaped (p.domain.vocabulary .dynamics) e := by
  have hclosed := Vocabulary.closed_arithmetic (α := α) (p.domain.Has .dynamics)
  have hdt : p.domain.Has .dynamics p.domain.dt := by
    obtain ⟨w, hw, -⟩ := hp.named.duration
    exact ⟨.var w, Domain.resolve?_eq_var.2 hw, fun _ h => by cases h⟩
  have hanchor : Yields (p.domain.vocabulary .dynamics) ∅ (v.anchorExpr p.domain.dt mode) ({·}) :=
    v.yields_anchorExpr hclosed trivial trivial hdt
  obtain ⟨hwf, hle, hx⟩ := hanchor p.arena hp.made.domain.arena fun _ h => h.elim
  have hmem := List.getElem_mem hv
  refine .bind (P := fun b x => b.Uses (p.domain.vocabulary .dynamics) x) ⟨hwf, hle, hx _ rfl⟩
    fun x b hb hab hx => ?_
  rw [List.getElem?_eq_getElem hv]
  refine leads_substitute_shaped (.refl hclosed) (fun s y h => ?_) hb
    ((hp.made.temporal _ hmem).mono hab) ((hp.temporal _ hmem).mono hab)
  obtain ⟨-, rfl⟩ : s = _ ∧ y = _ := by simpa using mem_of_ofList h
  exact hx

namespace CutStore

/-- The constraints of the store have the shape of constraints. -/
def Valid (s : CutStore α) (p : Problem α) : Prop :=
  ∀ c ∈ s.items.toList, p.arena.Shaped (p.domain.vocabulary .dynamics) c.expr

theorem valid_add {s : CutStore α} {p : Problem α} (hp : p.Valid) (hs : s.Valid p)
    {v : Violation α} (hv : v.constraint < p.temporal.length) (mode : OffsetMode)
    (iteration : Nat) : (s.add p v mode iteration).2.1.Valid (s.add p v mode iteration).2.2 := by
  by_cases h : s.keys.contains (v.key mode)
  · rw [s.add_of_stored p iteration h]
    exact hs
  · rw [s.add_of_new p iteration h]
    obtain ⟨hwf, hle, hshaped⟩ := v.leads_materialize hp hv mode
    intro c hc
    rw [Array.toList_push, List.mem_append, List.mem_singleton] at hc
    rcases hc with hc | rfl
    · exact (hs c hc).mono hle
    · exact hshaped

/-- Violations of the constraints of a valid problem fill the store with valid constraints. -/
theorem fill_valid {p : Problem α} (hp : p.Valid) {vs : List (Violation α × OffsetMode × Nat)}
    (hvs : ∀ v ∈ vs, v.1.constraint < p.temporal.length) :
    (fill p vs).2.Valid ∧ (fill p vs).1.Valid (fill p vs).2 := by
  suffices p.Grows (fill p vs).2 ∧ (fill p vs).1.Within (fill p vs).2 ∧
    (fill p vs).1.Valid (fill p vs).2 from ⟨hp.grows this.1, this.2.2⟩
  refine fill_induction (Q := fun s q => p.Grows q ∧ s.Within q ∧ s.Valid q)
    ⟨.refl p, within_empty p, fun _ h => absurd h List.not_mem_nil⟩ ?_
  rintro v hv s q ⟨hpq, hwithin, hs⟩
  obtain ⟨hgrows, hwithin⟩ := within_add (hp.made.grows hpq) hwithin v.1 v.2.1 v.2.2
  refine ⟨hpq.trans hgrows, hwithin, valid_add (hp.grows hpq) hs ?_ _ _⟩
  obtain ⟨a, rfl, -⟩ := hpq
  exact hvs v hv

end CutStore

end HybridPlan
