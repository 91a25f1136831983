import HybridPlan.Proofs.Domain.Names
import HybridPlan.Proofs.Expr.Replacement
import HybridPlan.Proofs.Expr.Subterms
import HybridPlan.Proofs.Problem

set_option autoImplicit false

/-! # Resolved constraints

The closed forms of a problem do not speak about next values. So wherever they have the values that
next values stand for, a temporal constraint and its resolved form say the same, and this goes on when
cuts make the arena grow. -/

namespace HybridPlan

open Exact (real)

/-! ## Without next values -/

section

variable {α : Type} [Scalar α] {d : Domain α}

/-- The vocabulary without next values. -/
def Domain.current (d : Domain α) : Vocabulary α where
  literal _ := True
  symbol s := ∀ v, d.resolve? s ≠ some (.next v)

namespace Domain

theorem closed_current : d.current.Closed := by
  constructor <;> intros <;> trivial

theorem current_of_declared? {s : String} {v : Variable} (h : d.declared? s = some v) :
    d.current.symbol s := by
  intro w hw
  rw [resolve?_eq_var.2 h] at hw
  cases hw

/-- The dynamics are checked to be free of next values. -/
theorem uses_current (hd : d.MadeOf (.all α)) (hchecked : d.Checked) {q : Equation}
    (hq : q ∈ d.equations) : d.arena.Uses d.current q.rhs := by
  obtain ⟨⟨⟩, -, h⟩ := Except.bind_eq_ok.1 hchecked.expressions
  obtain ⟨⟨⟩, -, h⟩ := Except.bind_eq_ok.1 h
  obtain ⟨⟨⟩, hequations, -⟩ := Except.bind_eq_ok.1 h
  obtain ⟨⟨⟩, hsymbols, -⟩ := Except.bind_eq_ok.1 (Except.forM_eq_ok.1 hequations q hq)
  refine .of_symbols hd.arena (hd.equations q hq) fun s hs v hv => ?_
  have hcheck := Except.forM_eq_ok.1 hsymbols s hs
  rw [checkSymbol, hv] at hcheck
  cases hcheck

end Domain

end

/-! ## Replaced next values -/

namespace Problem

open Build

/-- A constraint and its resolved form say the same wherever the closed forms have the values that
next values stand for. -/
def Resolves (a : Arena Exact) (σ : Substitution) (c : Constraint) (e : ExprId) : Prop :=
  ∀ {ops}, ArithOp.Lawful ops → ∀ b, a ≤ b → ∀ v v', Replaces ops b v v' σ →
    b.Translates ops v b v' c.expr e

variable {a b : Arena Exact} {σ : Substitution}

theorem Resolves.mono {c : Constraint} {e : ExprId} (h : Resolves a σ c e) (hab : a ≤ b) :
    Resolves b σ c e :=
  fun hops b' hb' => h hops b' (le_trans hab hb')

theorem replaces_of_le {ops : ArithOp → Exact → Exact → Exact} {v v' : Valuation Exact}
    (ha : a.WellFormed) (hab : a ≤ b) (huses : ∀ s e, σ s = some e → a.Uses (.all Exact) e)
    (h : Replaces ops b v v' σ) : Replaces ops a v v' σ where
  uses := huses
  value s e u hs hu := by
    obtain ⟨u', hu', hrefines⟩ := h.value s e u hs hu
    have hagree := (Arena.agreeBelow_of_le ha hab).symm
    exact ⟨u', hagree.value (huses s e hs).lt_size hu', hrefines⟩
  keeps := h.keeps

/-- Constraints are resolved one after the other, each in the arena that the others leave. -/
theorem resolves_of_run {cs : List Constraint} {es : List ExprId}
    (h : (cs.mapM fun c => ((Build.substitute σ c.expr : Build Exact ExprId) :
      Attempt Exact TransitionError ExprId)).run.run a = (.ok es, b)) (ha : a.WellFormed)
    (hcs : ∀ c ∈ cs, a.Uses (.all Exact) c.expr)
    (huses : ∀ s e, σ s = some e → a.Uses (.all Exact) e) :
    b.WellFormed ∧ a ≤ b ∧ List.Forall₂ (Resolves b σ) cs es := by
  induction cs generalizing a es with
  | nil =>
    rw [List.mapM_nil] at h
    cases h
    exact ⟨ha, le_refl _, .nil⟩
  | cons c cs ih =>
    rw [List.mapM_cons] at h
    obtain ⟨e, a₁, he, h⟩ := Attempt.run_bind_eq_ok.1 h
    obtain ⟨es', a₂, hes, h⟩ := Attempt.run_bind_eq_ok.1 h
    cases h
    obtain ⟨rfl, rfl⟩ : ((Build.substitute σ c.expr).run a).1 = e ∧
        ((Build.substitute σ c.expr).run a).2 = a₁ :=
      ⟨Except.ok.inj (congrArg Prod.fst he), congrArg Prod.snd he⟩
    have hc := hcs c List.mem_cons_self
    obtain ⟨ha₁, hle, -⟩ := yields_substitute (C := {x | a.Uses (.all Exact) x})
      Vocabulary.closed_all (fun s e hs => huses s e hs) hc a ha fun x hx => hx
    obtain ⟨hb, hle', hrest⟩ := ih hes ha₁
      (fun c hc => (hcs c (List.mem_cons_of_mem _ hc)).mono hle)
      (fun s e hs => (huses s e hs).mono hle)
    refine ⟨hb, le_trans hle hle', .cons (fun hops b' hb' v v' hσ => ?_) hrest⟩
    -- the replacements have the same values where the constraint is resolved
    have hab' := le_trans (le_trans hle hle') hb'
    have htranslates := substitute_translates hops ha
      (replaces_of_le ha hab' huses hσ) hc
    exact (htranslates.mono ha₁ (le_trans hle' hb')).of_agreeBelow
      (Arena.agreeBelow_of_le ha hab').symm hc.lt_size

/-! ## Problems -/

/-- What is known of a problem of a domain that was read. -/
structure Resolved (p : Problem Exact) : Prop where
  made : p.MadeOf (.all Exact)
  named : p.domain.Named
  closed : ∀ t ∈ p.transitions, p.arena.Uses p.domain.current t.2
  temporal : List.Forall₂ (Resolves p.arena (nextValues p.transitions)) p.domain.temporal p.temporal

theorem Resolved.grows {p q : Problem Exact} (hp : p.Resolved) (hpq : p.Grows q) : q.Resolved := by
  have hmade := hp.made.grows hpq
  obtain ⟨a, rfl, hle, -⟩ := hpq
  exact ⟨hmade, hp.named.withArena a, fun t ht => (hp.closed t ht).mono hle,
    hp.temporal.imp fun _ _ h => h.mono hle⟩

theorem resolved_ofDomain {d : Domain Exact} {config : Config Exact} {p : Problem Exact}
    (h : ofDomain d config = .ok p) (hd : d.MadeOf (.all Exact)) (hchecked : d.Checked)
    (hnamed : d.Named) : p.Resolved := by
  obtain ⟨hmade, hdomain, hle, -⟩ :=
    ofDomain_eq_ok Vocabulary.closed_all h hd trivial fun _ _ => trivial
  unfold ofDomain at h
  split at h
  · cases h
  · next ts temporal a hrun =>
    cases h
    obtain ⟨ts', a₁, hts, htemporal⟩ := Attempt.run_bind_eq_ok.1 hrun
    obtain ⟨temporal', a₂, htemporal, hpure⟩ := Attempt.run_bind_eq_ok.1 htemporal
    cases hpure
    have hstates : ∀ s ∈ d.stateNames, d.current.symbol s := by
      intro s hs
      obtain ⟨v, hv, rfl⟩ := List.mem_map.1 hs
      exact Domain.current_of_declared? (hnamed.declared? (List.mem_of_mem_filter hv))
    have hdt : d.current.symbol d.dt := by
      obtain ⟨v, hv, -⟩ := hnamed.duration
      exact Domain.current_of_declared? hv
    obtain ⟨ha₁, hle₁, hclosed⟩ := (Transitions.yields_resolve (C := {x | d.arena.Uses d.current x})
      Domain.closed_current hdt hstates fun q hq => Domain.uses_current hd hchecked hq).of_run hts
      hd.arena fun x hx => hx
    have huses : ∀ s e, nextValues ts s = some e → a₁.Uses (.all Exact) e := by
      intro s e hs
      obtain ⟨t, ht, heq⟩ := List.mem_map.1 (mem_of_ofList hs)
      cases heq
      exact (hclosed _ ⟨t, ht, rfl⟩).all
    obtain ⟨-, hle₂, hresolves⟩ := resolves_of_run htemporal ha₁
      (fun c hc => (hd.formulas c (by simp [Domain.formulas, hc])).mono hle₁) huses
    exact ⟨hmade, hnamed.withArena _, fun t ht => (hclosed _ ⟨t, ht, rfl⟩).mono hle₂, hresolves⟩

end Problem

theorem ReadProblem.resolved (P : ReadProblem Exact) : P.problem.Resolved := by
  obtain ⟨hd, hchecked, -⟩ := Domain.read_eq_ok Vocabulary.complete_all P.read
  exact Problem.resolved_ofDomain P.derived hd hchecked (Domain.named_of_read P.read)

end HybridPlan
