import HybridPlan.Proofs.Cut
import HybridPlan.Proofs.Expr.Replacement
import HybridPlan.Proofs.Expr.Residual
import HybridPlan.Proofs.Expr.Subterms
import HybridPlan.Proofs.Simulation

set_option autoImplicit false

/-! # What cuts say

A cut says about a stage what the constraint that it comes from says about the stage at the time of
the anchor. An absolute anchor is a number, so that an absolute cut says the same whatever the
duration of the stage is; a relative anchor moves with the duration. -/

namespace HybridPlan

open Exact (real Refines)
open Build

/-! ## Constraints in larger arenas -/

section

variable {p q : Problem Exact} (hp : p.MadeOf (.all Exact)) (hpq : p.Grows q) {s : Stage Exact}
  {e : ExprId} (he : p.arena.Uses (.all Exact) e)
include hp hpq he

/-- The residual of a constraint stays as it is when the arena grows. -/
theorem Stage.residualAt_grows {offset u : Exact} (h : s.residualAt p e offset = .ok u) :
    s.residualAt q e offset = .ok u := by
  have hq := hp.grows hpq
  obtain ⟨a, rfl, hle, -⟩ := hpq
  obtain ⟨ρ, rfl, hρ⟩ := Stage.residualAt_eq_ok.1 h
  have hjudges := (Arena.residual_eq_ok hp.domain.arena he).1 hρ
  exact Stage.residualAt_eq_ok.2 ⟨ρ, rfl, (Arena.residual_eq_ok hq.domain.arena (he.mono hle)).2
    ((Arena.agreeBelow_of_le hp.domain.arena hle).judges he.lt_size hjudges)⟩

/-- A constraint that holds goes on to hold when the arena grows. -/
theorem Stage.holds_grows {offset : Exact} (h : p.arena.Holds (s.valuation p offset) e) :
    q.arena.Holds (s.valuation q offset) e := by
  obtain ⟨a, rfl, hle, -⟩ := hpq
  obtain ⟨truth, htruth, htrue⟩ := h
  exact ⟨truth, (Arena.agreeBelow_of_le hp.domain.arena hle).judges he.lt_size htruth, htrue⟩

end

/-! ## Anchors -/

namespace Violation

/-- The time of the anchor in a stage with the given duration. -/
def anchorAt {α : Type} [Scalar α] (v : Violation α) (d : α) : OffsetMode → α
  | .absolute => v.offset
  | .relative => v.anchorFraction * d

variable {ops : ArithOp → Exact → Exact → Exact} {v : Violation Exact} {mode : OffsetMode}
  {w : Valuation Exact} {a : Arena Exact} {dt : String} {d : Exact}

/-- The expression of the anchor has the time of the anchor as its value. -/
theorem valued_anchorExpr (hops : ArithOp.Lawful ops) (ha : a.WellFormed) (hdt : w dt = some d) :
    Valued ops w (v.anchorExpr dt mode) a (v.anchorAt d mode) := by
  cases mode with
  | absolute => exact valued_num ha
  | relative =>
    -- the fraction is made first, then the symbol, each in the arena of the last
    obtain ⟨ha₁, -, hx⟩ := yields_num (C := ∅) Vocabulary.closed_all
      (v := v.anchorFraction) trivial a ha fun _ h => h.elim
    obtain ⟨f, hf, hfrefines⟩ : Valued ops w (num v.anchorFraction) a v.anchorFraction :=
      valued_num ha
    have hsym : Yields (.all Exact) ∅ (sym ⟨dt, none⟩) ({·}) := yields_sym trivial
    obtain ⟨ha₂, hle, hy⟩ := hsym ((num v.anchorFraction).run a).2 ha₁ fun _ h => h.elim
    obtain ⟨d', hd', hdrefines⟩ : Valued ops w (sym ⟨dt, none⟩) ((num v.anchorFraction).run a).2 d :=
      valued_intern ha₁ (by simp [Node.operands]) hdt
    have hxlt := (hx _ rfl).lt_size
    have hf' := (Arena.agreeBelow_of_le ha₁ hle).value hxlt hf
    have hproduct := valued_arith ha₂ (Nat.lt_of_lt_of_le hxlt (Arena.size_mono hle))
      (hy _ rfl).lt_size hf' hd' hops .mul
    refine Interpreted.of_refines hproduct fun r hr => ?_
    obtain ⟨q, q', hq, hq', rfl⟩ := Exact.mul_eq_real.1 hr
    rw [hfrefines q hq, hdrefines q' hq', hops.apply]
    rfl

end Violation

/-! ## Constraints of cuts -/

/-- The problem whose arena has grown with the cut of a violation. -/
def Problem.withCut {α : Type} [Scalar α] (p : Problem α) (v : Violation α) (mode : OffsetMode) :
    Problem α :=
  p.withArena ((v.materialize p mode).run p.arena).2

/-- The constraint of the cut of a violation. -/
def Violation.cutExpr {α : Type} [Scalar α] (v : Violation α) (p : Problem α) (mode : OffsetMode) :
    ExprId :=
  ((v.materialize p mode).run p.arena).1

namespace Violation

section

variable {α : Type} [Scalar α] {p : Problem α} {v : Violation α} {mode : OffsetMode} {e : ExprId}

theorem materialize_eq (he : p.temporal[v.constraint]? = some e) :
    v.materialize p mode = v.anchorExpr p.domain.dt mode >>= fun anchor =>
      Build.substitute (.ofList [(p.domain.dt, anchor)]) e := by
  unfold materialize
  rw [he]

theorem grows_withCut (v : Violation α) (mode : OffsetMode) (hp : p.MadeOf (.all α)) :
    p.Grows (p.withCut v mode) ∧ (p.withCut v mode).arena.Uses (.all α) (v.cutExpr p mode) := by
  have hyields : Yields (.all α) {x | p.arena.Uses (.all α) x} (v.materialize p mode) ({·}) :=
    v.yields_materialize Vocabulary.closed_all trivial trivial trivial hp.temporal
  obtain ⟨ha, hle, huses⟩ := hyields p.arena hp.domain.arena fun _ hx => hx
  exact ⟨⟨_, rfl, hle, fun _ => ha⟩, huses _ rfl⟩

end

variable {ops : ArithOp → Exact → Exact → Exact} {p : Problem Exact} {v : Violation Exact}
  {mode : OffsetMode} {e : ExprId}

/-- With an absolute anchor nothing is left of the duration. -/
theorem dependsOn_cutExpr (hp : p.MadeOf (.all Exact)) (he : p.temporal[v.constraint]? = some e) :
    (p.withCut v .absolute).arena.dependsOn (v.cutExpr p .absolute) p.domain.dt = false := by
  let V : Vocabulary Exact := { literal _ := True, symbol := (· ≠ p.domain.dt) }
  have hV : V.Closed := by constructor <;> intros <;> trivial
  have ha : p.arena.WellFormed := hp.domain.arena
  obtain ⟨ha₁, hle, hx⟩ := yields_num (V := V) (C := ∅) hV (v := v.offset) trivial p.arena ha
    fun _ h => h.elim
  have hσ : ∀ s x, Substitution.ofList [(p.domain.dt, ((num v.offset).run p.arena).1)] s = some x →
      ((num v.offset).run p.arena).2.Uses V x := fun s x h => by
    obtain ⟨-, rfl⟩ : s = _ ∧ x = _ := by simpa using mem_of_ofList h
    exact hx _ rfl
  have hkeeps : ∀ s, Substitution.ofList [(p.domain.dt, ((num v.offset).run p.arena).1)] s = none →
      V.symbol s := by
    rintro _ hnone rfl
    exact not_mem_of_ofList hnone _ List.mem_cons_self
  have hleaves : Leaves (.ofList [(p.domain.dt, ((num v.offset).run p.arena).1)]) (.all Exact) V :=
    ⟨hV, fun _ _ => trivial, fun s _ hnone => hkeeps s hnone, fun _ _ _ => trivial, fun _ => trivial⟩
  have htransports := transports_uses hleaves hσ
  have huses := (hp.temporal e (List.mem_of_getElem? he)).mono hle
  obtain ⟨-, -, hstands⟩ := htransports.substitute (fun s x h => (hσ s x h).all) ha₁ huses
  have hrun : (v.materialize p .absolute).run p.arena = (Build.substitute
      (.ofList [(p.domain.dt, ((num v.offset).run p.arena).1)]) e).run
        ((num v.offset).run p.arena).2 := by
    rw [materialize_eq he]
    rfl
  unfold cutExpr Problem.withCut
  rw [hrun]
  exact Arena.Uses.dependsOn_eq_false (V := V) (hstands.related huses) fun h => h rfl

/-- The constraint of a cut says in a stage what the constraint that it comes from says at the time of
the anchor. -/
theorem translates_cutExpr (hops : ArithOp.Lawful ops) (hp : p.MadeOf (.all Exact))
    (he : p.temporal[v.constraint]? = some e) {w w' : Valuation Exact} {d : Exact}
    (hdt : w p.domain.dt = some (v.anchorAt d mode)) (hdt' : w' p.domain.dt = some d)
    (hkeeps : ∀ s u, s ≠ p.domain.dt → w s = some u → w' s = some u) :
    p.arena.Translates ops w (p.withCut v mode).arena w' e (v.cutExpr p mode) := by
  have ha : p.arena.WellFormed := hp.domain.arena
  have hyields : Yields (.all Exact) ∅ (v.anchorExpr p.domain.dt mode) ({·}) :=
    v.yields_anchorExpr Vocabulary.closed_all trivial trivial trivial
  obtain ⟨ha₁, hle, hx⟩ := hyields p.arena ha fun _ h => h.elim
  obtain ⟨m, hm, hrefines⟩ : Valued ops w' (v.anchorExpr p.domain.dt mode) p.arena
    (v.anchorAt d mode) := valued_anchorExpr hops ha hdt'
  have hrun : (v.materialize p mode).run p.arena = (Build.substitute
      (.ofList [(p.domain.dt, ((v.anchorExpr p.domain.dt mode).run p.arena).1)]) e).run
        ((v.anchorExpr p.domain.dt mode).run p.arena).2 := by
    rw [materialize_eq he]
    rfl
  unfold cutExpr Problem.withCut
  rw [hrun]
  generalize (v.anchorExpr p.domain.dt mode).run p.arena = anchor at ha₁ hle hx hm ⊢
  have hσ : Replaces ops anchor.2 w w' (.ofList [(p.domain.dt, anchor.1)]) := by
    refine ⟨fun s x h => ?_, fun s x u h hu => ?_, fun s u h hu => hkeeps s u ?_ hu⟩
    · obtain ⟨-, rfl⟩ : s = _ ∧ x = _ := by simpa using mem_of_ofList h
      exact hx _ rfl
    · obtain ⟨rfl, rfl⟩ : s = _ ∧ x = _ := by simpa using mem_of_ofList h
      obtain rfl := Option.some.inj (hdt.symm.trans hu)
      exact ⟨m, hm, hrefines⟩
    · rintro rfl
      exact not_mem_of_ofList h _ List.mem_cons_self
  have huses := hp.temporal e (List.mem_of_getElem? he)
  exact (substitute_translates hops ha₁ hσ (huses.mono hle)).of_agreeBelow
    (Arena.agreeBelow_of_le ha hle) huses.lt_size

section

variable (hp : p.MadeOf (.all Exact)) (he : p.temporal[v.constraint]? = some e) {s : Stage Exact}
  {d : Exact}
include hp he

theorem translates_valuation (hops : ArithOp.Lawful ops) :
    p.arena.Translates ops (s.valuation p (v.anchorAt d mode)) (p.withCut v mode).arena
      (s.valuation (p.withCut v mode) d) e (v.cutExpr p mode) := by
  refine translates_cutExpr hops hp he (d := d) ?_ ?_ ?_
  · exact if_pos rfl
  · exact if_pos rfl
  · intro name u hname hu
    rw [Stage.valuation, if_neg hname] at hu
    exact (if_neg hname).trans hu

/-- The residual of a cut is that of the constraint at the time of the anchor. -/
theorem residualAt_cutExpr {u : Exact} (h : s.residualAt p e (v.anchorAt d mode) = .ok u) :
    s.residualAt (p.withCut v mode) (v.cutExpr p mode) d = .ok u := by
  obtain ⟨ρ, rfl, hρ⟩ := Stage.residualAt_eq_ok.1 h
  have huses := hp.temporal e (List.mem_of_getElem? he)
  have hjudges := (Arena.residual_eq_ok hp.domain.arena huses).1 hρ
  obtain ⟨hgrows, huses'⟩ := v.grows_withCut mode hp
  exact Stage.residualAt_eq_ok.2 ⟨ρ, rfl, (Arena.residual_eq_ok (hp.grows hgrows).domain.arena
    huses').2 ((translates_valuation hp he ArithOp.lawful_apply).judges _ ρ hjudges)⟩

/-- A cut holds if the constraint holds at the time of the anchor. -/
theorem holds_cutExpr (h : p.arena.Holds (s.valuation p (v.anchorAt d mode)) e) :
    (p.withCut v mode).arena.Holds (s.valuation (p.withCut v mode) d) (v.cutExpr p mode) :=
  (translates_valuation hp he ArithOp.lawful_strictly).holdsIf h

/-- Where the constraint is decided at the time of the anchor, the cut says the same. -/
theorem holds_cutExpr_iff {truth : Prop} (h : p.arena.Judges ArithOp.strictly
    (.truth Comparison.Holds) (s.valuation p (v.anchorAt d mode)) e truth) :
    (p.withCut v mode).arena.Holds (s.valuation (p.withCut v mode) d) (v.cutExpr p mode) ↔
      truth := by
  have hcut := (translates_valuation hp he ArithOp.lawful_strictly).judges _ _ h
  refine ⟨?_, fun htrue => ⟨truth, hcut, htrue⟩⟩
  rintro ⟨truth', htruth', htrue⟩
  rwa [htruth'.unique hcut] at htrue

end

end Violation

end HybridPlan
