import HybridPlan.Problem
import HybridPlan.Proofs.Domain.Reader
import HybridPlan.Proofs.Dynamics.ClosedForm

set_option autoImplicit false

/-! # What a problem is made of

The closed forms and the resolved constraints of a problem live in an arena that extends that of its
domain. Cuts extend the arena further, and change nothing else of the problem. -/

namespace HybridPlan

variable {α : Type} [Scalar α] {V : Vocabulary α} {C : Set ExprId}

open Build

theorem Domain.MadeOf.mono {d : Domain α} (h : d.MadeOf V) {a : Arena α} (ha : a.WellFormed)
    (hle : d.arena ≤ a) : Domain.MadeOf V { d with arena := a } where
  arena := ha
  formulas c hc := (h.formulas c hc).mono hle
  equations q hq := (h.equations q hq).mono hle

namespace Problem

/-! ## Closed forms and resolved constraints -/

/-- What is known of a problem: besides its domain, its closed forms and its resolved constraints
use a vocabulary, and there is a closed form for each state. -/
structure MadeOf (V : Vocabulary α) (p : Problem α) : Prop where
  domain : p.domain.MadeOf V
  transitions : ∀ t ∈ p.transitions, p.arena.Uses V t.2
  temporal : ∀ e ∈ p.temporal, p.arena.Uses V e
  names : p.transitions.map (·.1) = p.domain.stateNames

theorem gives_derive (d : Domain α) :
    Attempt.Gives (fun r => r.1.map (·.1) = d.stateNames) (derive d) := by
  refine .bind (Transitions.gives_resolve d) fun ts hts => ?_
  exact .bind .any fun temporal _ => .pure hts

theorem yields_derive (hV : V.Closed) {d : Domain α} (hdt : V.symbol d.dt)
    (hstates : ∀ s ∈ d.stateNames, V.symbol s) (hequations : ∀ q ∈ d.equations, q.rhs ∈ C)
    (htemporal : ∀ c ∈ d.temporal, c.expr ∈ C) : Attempt.Yields V C (derive d)
      fun r => {x | ∃ t ∈ r.1, x = t.2} ∪ {x | x ∈ r.2} := by
  refine .bind (Transitions.yields_resolve hV hdt hstates hequations) fun ts => ?_
  refine .bind (.mapM (R := ({·})) fun c hc => .lift (yields_substitute hV ?_
    (.inr (htemporal c hc)))) fun temporal => .pure ?_
  · intro s x h
    obtain ⟨t, ht, heq⟩ := List.mem_map.1 (mem_of_ofList h)
    cases heq
    exact .inl ⟨t, ht, rfl⟩
  · rintro x (hx | hx)
    · exact .inr (.inl hx)
    · exact .inl ⟨x, hx, rfl⟩

theorem ofDomain_eq_ok (hV : V.Closed) {d : Domain α} {config : Config α} {p : Problem α}
    (h : ofDomain d config = .ok p) (hd : d.MadeOf V) (hdt : V.symbol d.dt)
    (hstates : ∀ s ∈ d.stateNames, V.symbol s) :
    p.MadeOf V ∧ p.domain = { d with arena := p.arena } ∧ d.arena ≤ p.arena ∧
      p.feastol = config.feastol := by
  unfold ofDomain at h
  split at h
  · cases h
  · next ts temporal a hrun =>
    cases h
    obtain ⟨ha, hle, huses⟩ := (yields_derive hV hdt hstates (C := {x | d.arena.Uses V x})
      hd.equations fun c hc => hd.formulas c (by simp [Domain.formulas, hc])).of_run hrun hd.arena
      fun x hx => hx
    have hnames := gives_derive d d.arena (ts, temporal) (congrArg Prod.fst hrun)
    exact ⟨⟨hd.mono ha hle, fun t ht => huses _ (.inl ⟨t, ht, rfl⟩),
      fun e he => huses _ (.inr he), hnames⟩, rfl, hle, rfl⟩

/-! ## Problems of domains that were read -/

end Problem

/-- A problem, with the text of its domain and the configuration. -/
structure ReadProblem (α : Type) [Scalar α] where
  source : Source
  settings : ReadSettings α
  domain : Domain α
  config : Config α
  problem : Problem α
  read : Domain.read source settings = .ok domain
  derived : Problem.ofDomain domain config = .ok problem

theorem ReadProblem.madeOf (P : ReadProblem α) : P.problem.MadeOf (.all α) := by
  obtain ⟨hd, -, -⟩ := Domain.read_eq_ok Vocabulary.complete_all P.read
  exact (Problem.ofDomain_eq_ok Vocabulary.closed_all P.derived hd trivial fun _ _ => trivial).1

namespace Problem

/-! ## Growth -/

/-- The problem with a larger arena. -/
def Grows (p q : Problem α) : Prop :=
  ∃ a, q = p.withArena a ∧ p.arena ≤ a ∧ (p.arena.WellFormed → a.WellFormed)

theorem Grows.refl (p : Problem α) : p.Grows p := ⟨p.arena, rfl, le_refl _, id⟩

theorem Grows.trans {p q r : Problem α} (hpq : p.Grows q) (hqr : q.Grows r) : p.Grows r := by
  obtain ⟨a, rfl, hle, ha⟩ := hpq
  obtain ⟨b, rfl, hle', hb⟩ := hqr
  exact ⟨b, rfl, le_trans hle hle', hb ∘ ha⟩

theorem MadeOf.grows {p q : Problem α} (hp : p.MadeOf V) (hpq : p.Grows q) : q.MadeOf V := by
  obtain ⟨a, rfl, hle, ha⟩ := hpq
  exact ⟨hp.domain.mono (ha hp.domain.arena) hle, fun t ht => (hp.transitions t ht).mono hle,
    fun e he => (hp.temporal e he).mono hle, hp.names⟩

end Problem

end HybridPlan
