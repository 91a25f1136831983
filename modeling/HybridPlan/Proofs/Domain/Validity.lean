import HybridPlan.Proofs.Domain.Reader
import HybridPlan.Proofs.Expr.Shape
import HybridPlan.Proofs.Expr.Subterms

set_option autoImplicit false

/-! # What the checks establish

The formulas of a domain that has passed its checks are constraints, or arithmetic where that is
asked for, and every symbol in them refers to something that has a meaning where it stands. -/

namespace HybridPlan

variable {α : Type} [Scalar α]

namespace Domain

variable {d : Domain α} {a : Arena α} {P : String → Prop} {e : ExprId} {entry : Span}

/-! ## Symbols -/

/-- The symbol refers to something that has a meaning at the position. -/
def Has (d : Domain α) (position : Position) (s : String) : Prop :=
  ∃ r, d.resolve? s = some r ∧ ∀ v, r = .next v → position = .constraint

theorem checkSymbol_eq_ok {position : Position} {s : String} :
    d.checkSymbol position entry s = .ok () ↔ d.Has position s := by
  unfold checkSymbol Has
  cases hresolve : d.resolve? s with
  | none => simp
  | some r =>
    cases r with
    | next v => by_cases hp : position = .constraint <;> simp [hp]
    | constant | tolerance | var => simp

theorem Has.constraint {position : Position} {s : String} (h : d.Has position s) :
    d.Has .constraint s := by
  obtain ⟨r, hr, -⟩ := h
  exact ⟨r, hr, fun _ _ => rfl⟩

/-- Arithmetic at a position. -/
abbrev vocabulary (d : Domain α) (position : Position) : Vocabulary α :=
  .arithmetic α (d.Has position)

/-- What has a meaning somewhere has one in a constraint. -/
theorem allows_constraint (d : Domain α) {position : Position} (n : Node α)
    (h : (d.vocabulary position).Allows n) : (d.vocabulary .constraint).Allows n := by
  cases n with
  | sym s => exact Has.constraint h
  | num | neg | arith | call | compare | join => exact h

/-! ## Shapes -/

/-- A formula without constraints and derivatives is arithmetic. -/
theorem uses_of_checkArithmetic (ha : a.WellFormed) (he : a.Uses (.formulas α P) e)
    (h : checkArithmetic a entry e = .ok ()) : a.Uses (.arithmetic α P) e := by
  unfold checkArithmetic at h
  split at h
  · cases h
  · next hnone =>
    have hplain : ∀ x ∈ a.subterms e, isBoolean (a.node x) = false := by simpa using hnone
    refine he.of_subterms ha fun x hx hallows => ?_
    have hx := hplain x hx
    generalize a.node x = n at hx hallows
    cases n with
    | sym s => exact hallows
    | call f args =>
      cases f with
      | elementary f => exact ⟨Func.noConfusion, hallows⟩
      | dd => cases hx
    | compare | join => cases hx
    | num | neg | arith => trivial

theorem uses_of_checkSides {x y : ExprId} (ha : a.WellFormed) (hx : a.Uses (.formulas α P) x)
    (hy : a.Uses (.formulas α P) y) (h : checkSides a entry x y = .ok ()) :
    a.Uses (.arithmetic α P) x ∧ a.Uses (.arithmetic α P) y := by
  obtain ⟨⟨⟩, hcheck, hcheck'⟩ := Except.bind_eq_ok.1 h
  exact ⟨uses_of_checkArithmetic ha hx hcheck, uses_of_checkArithmetic ha hy hcheck'⟩

theorem inequality_of_checkDisjunct (ha : a.WellFormed) (he : a.Uses (.formulas α P) e)
    (h : checkDisjunct a entry e = .ok ()) : a.Inequality (.arithmetic α P) e := by
  unfold checkDisjunct at h
  split at h
  · cases h
  · next op x y hop hnode =>
    obtain ⟨hx, hy⟩ := uses_of_checkSides ha (he.operand (by simp [hnode, Node.operands]))
      (he.operand (by simp [hnode, Node.operands])) h
    exact ⟨op, x, y, hop, hnode ▸ he.getElem?, hx, hy⟩
  · cases h

theorem shaped_of_checkShapeBelow (ha : a.WellFormed) {n : Nat} (hn : e < n)
    (he : a.Uses (.formulas α P) e) (h : checkShapeBelow a entry n e = .ok ()) :
    a.Shaped (.arithmetic α P) e := by
  induction n generalizing e with
  | zero => exact absurd hn (Nat.not_lt_zero e)
  | succ n ih =>
    have hitem {x : ExprId} (hx : x ∈ (a.node e).operands) : x < n :=
      Nat.lt_of_lt_of_le (ha.lt_of_mem_operands hx) (Nat.le_of_lt_succ hn)
    unfold checkShapeBelow at h
    split at h
    · next op x y hnode =>
      obtain ⟨hx, hy⟩ := uses_of_checkSides ha (he.operand (by simp [hnode, Node.operands]))
        (he.operand (by simp [hnode, Node.operands])) h
      exact .comparison (hnode ▸ he.getElem?) hx hy
    · next items hnode =>
      refine .disjunction (hnode ▸ he.getElem?) fun i hi => ?_
      exact inequality_of_checkDisjunct ha (he.operand (by simpa [hnode, Node.operands] using hi))
        (Except.forM_eq_ok.1 h i hi)
    · next items hnode =>
      refine .conjunction (hnode ▸ he.getElem?) fun i hi => ?_
      have hi' : i ∈ (a.node e).operands := by simpa [hnode, Node.operands] using hi
      exact ih (hitem hi') (he.operand hi') (Except.forM_eq_ok.1 h i hi)
    · cases h

/-! ## Domains -/

/-- Constraints have their shape and formulas are arithmetic, over symbols that have a meaning. -/
structure Valid (d : Domain α) : Prop where
  initials : ∀ c ∈ d.initials, d.arena.Shaped (d.vocabulary .constraint) c.expr
  instantaneous : ∀ c ∈ d.instantaneous, d.arena.Shaped (d.vocabulary .constraint) c.expr
  temporal : ∀ c ∈ d.temporal, d.arena.Shaped (d.vocabulary .constraint) c.expr
  goals : ∀ c ∈ d.goals, d.arena.Shaped (d.vocabulary .goal) c.expr
  equations : ∀ q ∈ d.equations, d.arena.Uses (d.vocabulary .dynamics) q.rhs
  reward : d.arena.Uses (d.vocabulary .constraint) d.reward.expr

theorem Valid.mono (h : d.Valid) {b : Arena α} (hab : d.arena ≤ b) :
    Valid { d with arena := b } where
  initials c hc := (h.initials c hc).mono hab
  instantaneous c hc := (h.instantaneous c hc).mono hab
  temporal c hc := (h.temporal c hc).mono hab
  goals c hc := (h.goals c hc).mono hab
  equations q hq := (h.equations q hq).mono hab
  reward := h.reward.mono hab

section

variable (hd : d.MadeOf (.formulas α fun _ => True)) {position : Position}
include hd

theorem has_of_checkSymbols (he : d.arena.Uses (.formulas α fun _ => True) e)
    (h : d.checkSymbols position e entry = .ok ()) :
    d.arena.Uses (.formulas α (d.Has position)) e :=
  he.of_symbols hd.arena fun s hs => checkSymbol_eq_ok.1 (Except.forM_eq_ok.1 h s hs)

theorem shaped_of_checkConstraint {c : Constraint}
    (hc : d.arena.Uses (.formulas α fun _ => True) c.expr)
    (h : d.checkConstraint position c = .ok ()) :
    d.arena.Shaped (d.vocabulary position) c.expr := by
  obtain ⟨⟨⟩, hsymbols, hshape⟩ := Except.bind_eq_ok.1 h
  exact shaped_of_checkShapeBelow hd.arena (Nat.lt_succ_self _)
    (has_of_checkSymbols hd hc hsymbols) hshape

theorem uses_of_checkFormula (he : d.arena.Uses (.formulas α fun _ => True) e)
    (h : d.checkFormula position e entry = .ok ()) : d.arena.Uses (d.vocabulary position) e := by
  obtain ⟨⟨⟩, hsymbols, harithmetic⟩ := Except.bind_eq_ok.1 h
  exact uses_of_checkArithmetic hd.arena (has_of_checkSymbols hd he hsymbols) harithmetic

theorem valid_of_checkExpressions (h : d.checkExpressions = .ok ()) : d.Valid := by
  obtain ⟨⟨⟩, hconstraints, h⟩ := Except.bind_eq_ok.1 h
  obtain ⟨⟨⟩, hgoals, h⟩ := Except.bind_eq_ok.1 h
  obtain ⟨⟨⟩, hequations, hreward⟩ := Except.bind_eq_ok.1 h
  have hconstraint (c : Constraint) (hc : c ∈ d.initials ++ d.instantaneous ++ d.temporal) :
      d.arena.Shaped (d.vocabulary .constraint) c.expr := by
    have hformula : c ∈ d.formulas := List.mem_append_left _ (List.mem_append_left _ hc)
    exact shaped_of_checkConstraint hd (hd.formulas c hformula)
      (Except.forM_eq_ok.1 hconstraints c hc)
  refine ⟨fun c hc => hconstraint c ?_, fun c hc => hconstraint c ?_, fun c hc => hconstraint c ?_,
    fun c hc => ?_, fun q hq => ?_, ?_⟩
  · simp [hc]
  · simp [hc]
  · simp [hc]
  · exact shaped_of_checkConstraint hd (hd.formulas c (by simp [formulas, hc]))
      (Except.forM_eq_ok.1 hgoals c hc)
  · exact uses_of_checkFormula hd (hd.equations q hq) (Except.forM_eq_ok.1 hequations q hq)
  · exact uses_of_checkFormula hd (hd.formulas d.reward (by simp [formulas])) hreward

end

/-- A domain that was read is valid. -/
theorem valid_of_read {source : Source} {settings : ReadSettings α}
    (h : read source settings = .ok d) : d.Valid := by
  obtain ⟨hd, hchecked, -⟩ := read_eq_ok (Vocabulary.complete_formulas fun _ _ => trivial) h
  exact valid_of_checkExpressions hd hchecked.expressions

end Domain

end HybridPlan
