import HybridPlan.Proofs.Dynamics.ClosedForm
import HybridPlan.Proofs.Dynamics.Linear

set_option autoImplicit false

/-! # Where closed forms are defined

The closed form of a linear equation divides by the difference of its rate and a rate of its forcing.
Whether the two rates are the same is decided once, on the expressions, so there can be values at
which the difference is zero, and there the closed form has no value although the equation has a
solution. These are the only places: if all right-hand sides are polynomials, then the closed forms of
a system have values exactly where no divisor that occurs in them vanishes. -/

namespace HybridPlan

open Build
open Exact (real)

variable {a b : Arena Exact} {ρ : String → ℝ} {dt : String} {states : List String}

/-! ## One equation -/

theorem Arena.Represents.polynomialIn {e : ExprId} {p : Poly} (h : a.Represents e p) (x : String) :
    a.PolynomialIn x e := by
  induction h with
  | num he => exact .still he.uses
  | @sym e s he =>
    by_cases hs : s = x
    · exact .sym (hs ▸ he)
    · exact .still (.node he hs fun y hy => absurd hy List.not_mem_nil)
  | neg he _ ih => exact .neg he ih
  | @ring op f e y z p q he hop _ _ ihy ihz =>
    cases op with
    | add => exact .add he ihy ihz
    | sub => exact .sub he ihy ihz
    | mul => exact .mul he ihy ihz
    | div | pow => cases hop
  | pow he _ hz ih => exact .pow he ih hz
  | div he _ hz _ ih => exact .div he ih hz.uses

namespace Linear

/-- Where all known closed forms have values, there is a valuation that follows them. -/
theorem exists_follows {known : List (String × ExprId)} (x : String)
    (h : ∀ k ∈ known, ∃ u, a.Denotes (fun s => some (real (ρ s))) k.2 u) :
    ∃ ξ, Follows a known x ρ ξ := by
  have hvalue (s : String) : ∃ u,
      (∀ e, Substitution.ofList known s = some e → a.Denotes (fun s => some (real (ρ s))) e u) ∧
        (Substitution.ofList known s = none → u = ρ s) := by
    cases hs : Substitution.ofList known s with
    | some e =>
      obtain ⟨u, hu⟩ := h _ (mem_of_ofList hs)
      refine ⟨u, ?_, fun hnone => absurd hnone (Option.some_ne_none e)⟩
      rintro _ ⟨⟩
      exact hu
    | none => exact ⟨ρ s, fun e he => absurd he.symm (Option.some_ne_none e), fun _ => rfl⟩
  choose ξ hξ hξ' using hvalue
  exact ⟨ξ, fun s e hs _ => hξ s e hs, fun s hs _ => hξ' s hs⟩

/-- The closed form of an equation has a value where those of the other states have values, unless a
divisor in it vanishes. -/
theorem Solved.exists_value {known : List (String × ExprId)} {r : Rate} {c : ExprId} {p : Poly}
    (h : Solved states dt known r a c b) (hp : a.Represents r.rhs p)
    (hknown : ∀ k ∈ known, ∃ u, a.Denotes (fun s => some (real (ρ s))) k.2 u)
    (hc : ¬b.Vanishes ρ dt c) : ∃ u, b.Denotes (fun s => some (real (ρ s))) c u := by
  obtain ⟨ξ, hξ⟩ := exists_follows r.state hknown
  obtain ⟨rate, b₁, z, b₂, g, b₃, forcing, b₄, hfound⟩ := h.exists_found
  obtain ⟨α, γ, hrate, hγ, -⟩ :=
    hfound.exists_affine h hξ (hp.denotes ξ) (hp.polynomialIn r.state)
  obtain ⟨hsolves, -⟩ := hfound.solves h hrate hγ
  obtain ⟨-, hvanishes⟩ | ⟨u, hu, -⟩ := hsolves
  · exact absurd hvanishes hc
  · exact ⟨u, hu.denotes⟩

end Linear

/-! ## Systems -/

namespace Transitions

/-- The closed forms that are known have values wherever no divisor in one of them vanishes. -/
structure Defined (states : List String) (dt : String) (a : Arena Exact) (entries : List Entry) :
    Prop where
  state : ∀ e ∈ entries, e.rate.state ∈ states
  polynomial : ∀ e ∈ entries, ∃ p, a.Represents e.rate.rhs p
  uses : ∀ k ∈ known entries, a.Uses (.all Exact) k.2
  value : ∀ ρ : String → ℝ, (∀ k ∈ known entries, ¬a.Vanishes ρ dt k.2) →
    ∀ k ∈ known entries, ∃ u, a.Denotes (fun s => some (real (ρ s))) k.2 u

theorem known_append (ls rs : List Entry) : known (ls ++ rs) = known ls ++ known rs :=
  List.filterMap_append

theorem known_cons_some (r : Rate) (c : ExprId) (es : List Entry) :
    known (⟨r, some c⟩ :: es) = (r.state, c) :: known es :=
  rfl

theorem known_cons_none (r : Rate) (es : List Entry) : known (⟨r, none⟩ :: es) = known es :=
  rfl

/-- The closed forms of a state that is solved join those of the others. -/
theorem known_solve (done todo : List Entry) (r : Rate) (c : ExprId) (k : String × ExprId) :
    k ∈ known (done ++ ⟨r, some c⟩ :: todo) ↔
      k = (r.state, c) ∨ k ∈ known (done ++ ⟨r, none⟩ :: todo) := by
  simp only [known_append, known_cons_some, known_cons_none, List.mem_append, List.mem_cons]
  tauto

namespace Defined

variable {entries done todo : List Entry}

theorem mono (ha : a.WellFormed) (hab : a ≤ b) (h : Defined states dt a entries) :
    Defined states dt b entries where
  state := h.state
  polynomial e he := by
    obtain ⟨p, hp⟩ := h.polynomial e he
    exact ⟨p, hp.mono hab⟩
  uses k hk := (h.uses k hk).mono hab
  value ρ hρ k hk := by
    obtain ⟨u, hu⟩ := h.value ρ (fun k hk hvanishes => hρ k hk (hvanishes.mono ha hab)) k hk
    exact ⟨u, (Arena.agreeBelow_of_le ha hab).denotes (h.uses k hk).lt_size hu⟩

/-- Solving one more state keeps this. -/
theorem solve {r : Rate} {c : ExprId} (ha : a.WellFormed) (hdt : dt ∉ states)
    (h : Defined states dt a (done ++ ⟨r, none⟩ :: todo))
    (hrun : (Linear.closedForm states dt (known (done ++ ⟨r, none⟩ :: todo)) r).run.run a =
      (.ok c, b)) :
    b.WellFormed ∧ a ≤ b ∧ Defined states dt b (done ++ ⟨r, some c⟩ :: todo) := by
  have hr : (⟨r, none⟩ : Entry) ∈ done ++ ⟨r, none⟩ :: todo := by simp
  obtain ⟨p, hp⟩ := h.polynomial _ hr
  obtain ⟨hb, hab, hc⟩ := (Linear.yields_closedForm (C := {x | a.Uses (.all Exact) x})
    Vocabulary.closed_all trivial trivial hp.uses h.uses).of_run hrun ha fun x hx => hx
  have hothers : ∀ k ∈ known (done ++ ⟨r, none⟩ :: todo), k.1 ∈ states ∧ a.Uses (.all Exact) k.2 := by
    intro k hk
    refine ⟨?_, h.uses k hk⟩
    obtain ⟨e, he, hclosed⟩ := List.mem_filterMap.1 hk
    obtain ⟨c', -, rfl⟩ := Option.map_eq_some_iff.1 hclosed
    exact h.state e he
  have hsolved : Linear.Solved states dt (known (done ++ ⟨r, none⟩ :: todo)) r a c b :=
    ⟨ha, hp.uses, h.state _ hr, hdt, hothers, hrun⟩
  -- the entries have the same rates as before
  have hrates : ∀ e ∈ done ++ ⟨r, some c⟩ :: todo, ∃ e' ∈ done ++ ⟨r, none⟩ :: todo,
      e'.rate = e.rate := by
    intro e he
    simp only [List.mem_append, List.mem_cons] at he
    rcases he with he | rfl | he
    · exact ⟨e, by simp [he], rfl⟩
    · exact ⟨_, hr, rfl⟩
    · exact ⟨e, by simp [he], rfl⟩
  have hmono := h.mono ha hab
  refine ⟨hb, hab, fun e he => ?_, fun e he => ?_, fun k hk => ?_, fun ρ hρ k hk => ?_⟩
  · obtain ⟨e', he', heq⟩ := hrates e he
    exact heq ▸ h.state e' he'
  · obtain ⟨e', he', heq⟩ := hrates e he
    exact heq ▸ hmono.polynomial e' he'
  · rcases (known_solve done todo r c k).1 hk with rfl | hk
    · exact hc _ rfl
    · exact hmono.uses k hk
  · have hvanishes : ∀ k ∈ known (done ++ ⟨r, none⟩ :: todo), ¬b.Vanishes ρ dt k.2 :=
      fun k hk => hρ k ((known_solve done todo r c k).2 (.inr hk))
    rcases (known_solve done todo r c k).1 hk with rfl | hk
    · exact hsolved.exists_value hp
        (h.value ρ fun k hk h => hvanishes k hk (h.mono ha hab)) (hρ _ hk)
    · exact hmono.value ρ hvanishes k hk

/-- A pass over the system solves states one after the other. -/
theorem pass {solved : List Entry} (ha : a.WellFormed) (hdt : dt ∉ states)
    (h : Defined states dt a (done ++ todo))
    (hrun : (Transitions.pass states dt done todo).run.run a = (.ok solved, b)) :
    b.WellFormed ∧ a ≤ b ∧ Defined states dt b solved := by
  induction todo generalizing a done with
  | nil =>
    cases hrun
    rw [List.append_nil] at h
    exact ⟨ha, le_refl _, h⟩
  | cons e todo ih =>
    obtain ⟨_, _, ⟨⟩, hrun⟩ := Attempt.run_bind_eq_ok.1 hrun
    split at hrun
    · next hready =>
      obtain ⟨r, closed⟩ := e
      obtain rfl : closed = none := by
        rw [Bool.and_eq_true, Option.isNone_iff_eq_none] at hready
        exact hready.1
      obtain ⟨c, b₁, hc, hrun⟩ := Attempt.run_bind_eq_ok.1 hrun
      obtain ⟨hb₁, hab₁, hsolved⟩ := h.solve ha hdt hc
      obtain ⟨hb, hle, hdefined⟩ := ih hb₁ (by rwa [List.append_assoc]) hrun
      exact ⟨hb, le_trans hab₁ hle, hdefined⟩
    · exact ih ha (by rwa [List.append_assoc]) hrun

theorem passes {solved : List Entry} (n : ℕ) (ha : a.WellFormed) (hdt : dt ∉ states)
    (h : Defined states dt a entries)
    (hrun : (Transitions.passes states dt n entries).run.run a = (.ok solved, b)) :
    b.WellFormed ∧ a ≤ b ∧ Defined states dt b solved := by
  induction n generalizing a entries with
  | zero =>
    cases hrun
    exact ⟨ha, le_refl _, h⟩
  | succ n ih =>
    obtain ⟨next, b₁, hnext, hrun⟩ := Attempt.run_bind_eq_ok.1 hrun
    have hstart : Defined states dt a ([] ++ entries) := h
    obtain ⟨hb₁, hab₁, hdefined⟩ := hstart.pass ha hdt hnext
    split at hrun
    · obtain ⟨hb, hle, hsolved⟩ := ih hb₁ hdefined hrun
      exact ⟨hb, le_trans hab₁ hle, hsolved⟩
    · cases hrun
      exact ⟨hb₁, hab₁, hdefined⟩

end Defined

/-- A series that ends stands for a polynomial. -/
theorem leads_entryOf {system : List Rate} {f : Rate → Poly} (ha : a.WellFormed)
    (hdt : dt ∉ system.map (·.state)) (hf : ∀ r ∈ system, a.Represents r.rhs (f r)) {r : Rate}
    (hr : r ∈ system) : (entryOf system dt r).Leads a fun b e =>
      e.rate = r ∧ ∀ c, e.closed = some c → ∃ p, b.Represents c p := by
  have hne : r.state ≠ dt := fun heq => hdt (heq ▸ List.mem_map_of_mem hr)
  refine .bind (.adapt (Series.leads_closedForm? hf ha hne)) fun closed b hb _ hends => ?_
  refine .pure hb ⟨rfl, fun c hc => ?_⟩
  obtain ⟨n, -, hrepresents⟩ := hends c hc
  exact ⟨_, hrepresents⟩

/-- So the series that end have values everywhere. -/
theorem leads_entries {system : List Rate} {f : Rate → Poly} (ha : a.WellFormed)
    (hdt : dt ∉ system.map (·.state)) (hf : ∀ r ∈ system, a.Represents r.rhs (f r)) :
    Attempt.Leads (system.mapM (entryOf system dt)) a fun b entries =>
      a ≤ b → Defined (system.map (·.state)) dt b entries := by
  have hmono (r : Rate) (b c : Arena Exact) (e : Entry) (hbc : b ≤ c)
      (he : e.rate = r ∧ ∀ x, e.closed = some x → ∃ p, b.Represents x p) :
      e.rate = r ∧ ∀ x, e.closed = some x → ∃ p, c.Represents x p := by
    refine ⟨he.1, fun x hx => ?_⟩
    obtain ⟨p, hp⟩ := he.2 x hx
    exact ⟨p, hp.mono hbc⟩
  refine (Attempt.Leads.mapM hmono ha fun r hr b hb hab =>
    leads_entryOf hb hdt (fun q hq => (hf q hq).mono hab) hr).imp fun b entries _ hall hab => ?_
  have hknown : ∀ k ∈ known entries, ∃ p, b.Represents k.2 p := by
    intro k hk
    obtain ⟨e, he, hclosed⟩ := List.mem_filterMap.1 hk
    obtain ⟨c, hc, rfl⟩ := Option.map_eq_some_iff.1 hclosed
    obtain ⟨r, -, -, hrepresents⟩ := exists_of_forall₂ hall he
    exact hrepresents c hc
  refine ⟨fun e he => ?_, fun e he => ?_, fun k hk => ?_, fun ρ _ k hk => ?_⟩
  · obtain ⟨r, hr, rfl, -⟩ := exists_of_forall₂ hall he
    exact List.mem_map_of_mem hr
  · obtain ⟨r, hr, rfl, -⟩ := exists_of_forall₂ hall he
    exact ⟨_, (hf e.rate hr).mono hab⟩
  · obtain ⟨p, hp⟩ := hknown k hk
    exact hp.uses
  · obtain ⟨p, hp⟩ := hknown k hk
    exact ⟨_, hp.denotes ρ⟩

/-- The closed forms that are returned are those of the entries. -/
theorem eq_known_of_run {entries : List Entry} {ts : Transitions}
    (h : (entries.mapM (closedOf (α := Exact))).run.run a = (.ok ts, b)) :
    b = a ∧ ts = known entries := by
  induction entries generalizing a ts with
  | nil =>
    rw [List.mapM_nil] at h
    cases h
    exact ⟨rfl, rfl⟩
  | cons e entries ih =>
    rw [List.mapM_cons] at h
    obtain ⟨t, a₁, ht, h⟩ := Attempt.run_bind_eq_ok.1 h
    obtain ⟨ts', a₂, hts, h⟩ := Attempt.run_bind_eq_ok.1 h
    cases h
    obtain ⟨rfl, rfl⟩ := ih hts
    obtain ⟨r, _ | c⟩ := e
    · cases congrArg Prod.fst ht
    · cases ht
      exact ⟨rfl, rfl⟩

/-- From right-hand sides that are polynomials, the closed forms that are returned are defined. -/
theorem exists_entries {system : List Rate} {ts : Transitions} (ha : a.WellFormed)
    (hdt : dt ∉ system.map (·.state)) (hsystem : ∀ r ∈ system, ∃ p, a.Represents r.rhs p)
    (hrun : (Transitions.solve system dt).run.run a = (.ok ts, b)) :
    b.WellFormed ∧ ∃ entries, ts = known entries ∧ Defined (system.map (·.state)) dt b entries := by
  choose! f hf using hsystem
  obtain ⟨start, b₁, hstart, hrun⟩ := Attempt.run_bind_eq_ok.1 hrun
  obtain ⟨solved, b₂, hsolved, hrun⟩ := Attempt.run_bind_eq_ok.1 hrun
  obtain ⟨hb₁, hab₁, hdefined⟩ := (leads_entries ha hdt hf).of_run hstart
  obtain ⟨hb₂, -, hdefined⟩ := (hdefined hab₁).passes start.length hb₁ hdt hsolved
  obtain ⟨rfl, hts⟩ := eq_known_of_run hrun
  exact ⟨hb₂, solved, hts, hdefined⟩

/-- Where no divisor vanishes, the closed forms of a domain have values. Solutions that are given have
values everywhere. -/
theorem exists_values {d : Domain Exact} {ts : Transitions} (ha : d.arena.WellFormed)
    (hdt : d.dt ∉ d.stateNames) (hpolynomial : ∀ q ∈ d.equations, ∃ p, d.arena.Represents q.rhs p)
    (hrun : (resolve d).run.run d.arena = (.ok ts, b)) :
    b.WellFormed ∧ ∀ ρ : String → ℝ, (∀ t ∈ ts, ¬b.Vanishes ρ d.dt t.2) →
      ∀ t ∈ ts, b.Uses (.all Exact) t.2 ∧ ∃ u, b.Denotes (fun s => some (real (ρ s))) t.2 u := by
  obtain ⟨rates, b₁, hrates, hrun⟩ := Attempt.run_bind_eq_ok.1 hrun
  obtain ⟨hsystem, rfl⟩ := Attempt.run_except_eq_ok.1 hrates
  obtain ⟨hnames, hrhs⟩ := system_eq_ok hsystem
  have hrepresents : ∀ r ∈ rates, ∃ p, d.arena.Represents r.rhs p := by
    intro r hr
    obtain ⟨q, hq, heq⟩ := hrhs r hr
    exact heq ▸ hpolynomial q hq
  cases hmode : d.mode with
  | solutions =>
    rw [hmode] at hrun
    cases hrun
    refine ⟨ha, fun ρ _ t ht => ?_⟩
    obtain ⟨r, hr, rfl⟩ := List.mem_map.1 ht
    obtain ⟨p, hp⟩ := hrepresents r hr
    exact ⟨hp.uses, _, hp.denotes ρ⟩
  | odes =>
    rw [hmode] at hrun
    rw [← hnames] at hdt
    obtain ⟨hb, entries, rfl, hdefined⟩ := exists_entries ha hdt hrepresents hrun
    exact ⟨hb, fun ρ hρ t ht => ⟨hdefined.uses t ht, hdefined.value ρ hρ t ht⟩⟩

/-- If all right-hand sides of a domain are polynomials, then its closed forms can be evaluated
without a division by zero where no divisor of one of them vanishes, and only there. -/
theorem resolve_evaluates_iff {d : Domain Exact} {ts : Transitions} (ha : d.arena.WellFormed)
    (hdt : d.dt ∉ d.stateNames) (hpolynomial : ∀ q ∈ d.equations, ∃ p, d.arena.Represents q.rhs p)
    (hrun : (resolve d).run.run d.arena = (.ok ts, b)) (ρ : String → ℝ) :
    (∀ t ∈ ts, (∃ u, b.EvaluatesTo ρ t.2 u) ∧ Linear.DivisorsNonzero b ρ t.2) ↔
      ∀ t ∈ ts, ¬b.Vanishes ρ d.dt t.2 := by
  obtain ⟨hb, hvalues⟩ := exists_values ha hdt hpolynomial hrun
  constructor
  · intro h t ht
    obtain ⟨-, hdivisors⟩ := h t ht
    exact hdivisors.not_vanishes hb
  · intro h t ht
    obtain ⟨huses, u, hu⟩ := hvalues ρ h t ht
    exact ⟨⟨u, (Arena.eval_eq_ok hb).2 hu.value⟩, Linear.divisorsNonzero_of_denotes hb huses hu⟩

/-- A domain with a clock, whose state is the time that has passed. -/
def clock (a : Arena Exact) (one : ExprId) : Domain Exact where
  arena := a
  constants := []
  vars := [⟨⟨"Dt", none⟩, .continuous, .action, false⟩, ⟨⟨"x", none⟩, .continuous, .state, false⟩]
  dt := "Dt"
  mode := .odes
  equations := [⟨⟨"x", none⟩, one, .whole "dd(x, Dt) == 1"⟩]
  initials := []
  instantaneous := []
  temporal := []
  goals := []
  reward := ⟨one, .whole "1"⟩

theorem resolve_evaluates_iff_clock : ∃ (a b : Arena Exact) (one c : ExprId),
    a.WellFormed ∧ a.Represents one (.C 1) ∧
    (resolve (clock a one)).run.run a = (.ok [("x", c)], b) ∧ ∀ ρ : String → ℝ,
      ((∀ t ∈ [("x", c)], (∃ u, b.EvaluatesTo ρ t.2 u) ∧ Linear.DivisorsNonzero b ρ t.2) ↔
        ∀ t ∈ [("x", c)], ¬b.Vanishes ρ "Dt" t.2) := by
  obtain ⟨ha, -, hone⟩ := literal_num Arena.wellFormed_empty Exact.one_eq
  generalize (num (Scalar.one : Exact)).run {} = p at ha hone
  obtain ⟨one, a⟩ := p
  have hleads : (Series.closedForm? [⟨"x", one⟩] "Dt" "x").Leads a fun _ o => ∃ c, o = some c :=
    Series.leads_closedForm?_one (by decide) ha hone
  obtain ⟨o, b, hrun, -, -, c, rfl⟩ := hleads
  have hresolve : (resolve (clock a one)).run.run a = (.ok [("x", c)], b) := by
    refine Attempt.run_bind_eq_ok.2 ⟨[⟨"x", one⟩], a, rfl, ?_⟩
    refine Attempt.run_bind_eq_ok.2 ⟨[⟨⟨"x", one⟩, some c⟩], b, ?_, ?_⟩
    · rw [List.mapM_cons]
      exact Attempt.run_bind_eq_ok.2 ⟨⟨⟨"x", one⟩, some c⟩, b, Attempt.run_bind_eq_ok.2
        ⟨some c, b, Attempt.run_adapt_eq_ok.2 hrun, rfl⟩, rfl⟩
    · rfl
  refine ⟨a, b, one, c, ha, .num hone, hresolve, ?_⟩
  have hdt : (clock a one).dt ∉ (clock a one).stateNames := by
    change "Dt" ∉ ["x"]
    decide
  have hpolynomial : ∀ q ∈ (clock a one).equations, ∃ p, a.Represents q.rhs p := by
    intro q hq
    rw [List.mem_singleton.1 hq]
    exact ⟨_, .num hone⟩
  exact resolve_evaluates_iff (d := clock a one) ha hdt hpolynomial hresolve

end Transitions

end HybridPlan
