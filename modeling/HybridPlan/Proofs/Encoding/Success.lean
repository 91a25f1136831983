import HybridPlan.Proofs.Domain.Acceptance
import HybridPlan.Proofs.Encoding.Declaration

set_option autoImplicit false

/-! # Parts of an encoding that succeed

The term of an arithmetic expression is made if the variables that its symbols stand for are declared,
and a row is added if its label is new. Making terms leaves the names of variables and rows as they
are, so that one part after the other can be seen to succeed. In this way a problem without states is
seen to be encoded. -/

namespace HybridPlan

variable {α : Type} [Scalar α]

namespace Encoding

variable {p : Problem α} {scope : Scope} {label : String} {s s₁ s' : State α} {e : ExprId}

/-- The names of variables and rows stay the same. -/
structure State.KeepsNames (s s' : State α) : Prop where
  vars : s'.program.varIndex = s.program.varIndex
  rows : s'.program.rowNames = s.program.rowNames

theorem State.KeepsNames.trans (h : s.KeepsNames s₁) (h' : s₁.KeepsNames s') : s.KeepsNames s' :=
  ⟨h'.vars.trans h.vars, h'.rows.trans h.rows⟩

theorem State.keepsNames_makes (s : State α) (m : Terms.Make α TermId) : s.KeepsNames (s.makes m) :=
  ⟨rfl, rfl⟩

theorem State.keepsNames_encodes (s : State α) (e : ExprId) (scope : Scope)
    (m : Terms.Make α TermId) : s.KeepsNames (s.encodes e scope m) :=
  ⟨rfl, rfl⟩

/-- The symbol stands for a number, or for a variable that is declared. -/
def State.Knows (s : State α) (p : Problem α) (scope : Scope) (name : String) : Prop :=
  (∃ c, reading? p scope name = some (.inl c)) ∨
    ∃ x, reading? p scope name = some (.inr x) ∧ (s.program.varOf? x).isSome

theorem State.KeepsNames.knows (h : s.KeepsNames s') {name : String} (hs : s.Knows p scope name) :
    s'.Knows p scope name := by
  rcases hs with hc | ⟨x, hx, hv⟩
  · exact .inl hc
  · refine .inr ⟨x, hx, ?_⟩
    rw [Program.varOf?, h.vars]
    exact hv

/-- The expression is arithmetic over symbols that are known. -/
abbrev State.CanEncode (s : State α) (p : Problem α) (scope : Scope) (e : ExprId) : Prop :=
  p.arena.Uses (.arithmetic α (s.Knows p scope)) e

theorem State.KeepsNames.canEncode (h : s.KeepsNames s') (he : s.CanEncode p scope e) :
    s'.CanEncode p scope e := by
  refine he.imp fun n hn => ?_
  cases n with
  | sym s => exact h.knows hn
  | num | neg | arith | call | compare | join => exact hn

theorem varOf?_withVar (s : State α) (v : ProgramVar α) (name : String) :
    (s.withVar v).program.varOf? name =
      if v.name = name then some s.program.vars.size else s.program.varOf? name := by
  simp [State.withVar, Program.withVar, Program.varOf?, Std.HashMap.getElem?_insert]

/-! ## Terms -/

theorem symbol_succeeds (label : String) {name : String} (h : s.Knows p scope name) :
    ∃ t s', (symbol p scope label name).run s = .ok (t, s') ∧ s.KeepsNames s' := by
  have hvariable {x : String} (hx : (s.program.varOf? x).isSome) :
      ∃ t s', (var x >>= fun v => make (Terms.var v)).run s = .ok (t, s') ∧ s.KeepsNames s' := by
    obtain ⟨v, hv⟩ := Option.isSome_iff_exists.1 hx
    exact ⟨_, _, run_bind_eq_ok.2 ⟨v, s, var_eq_ok.2 ⟨hv, rfl⟩, make_eq_ok.2 ⟨rfl, rfl⟩⟩,
      s.keepsNames_makes _⟩
  unfold State.Knows reading? at h
  unfold symbol
  cases hresolve : p.domain.resolve? name with
  | none =>
    rw [hresolve] at h
    rcases h with ⟨_, h⟩ | ⟨_, h, -⟩ <;> cases h
  | some r =>
    rw [hresolve] at h
    cases r with
    | constant | tolerance => exact ⟨_, _, make_eq_ok.2 ⟨rfl, rfl⟩, s.keepsNames_makes _⟩
    | var v =>
      rcases h with ⟨_, h⟩ | ⟨_, h, hv⟩ <;> cases h
      exact hvariable hv
    | next v =>
      cases scope with
      | stage t =>
        rcases h with ⟨_, h⟩ | ⟨_, h, hv⟩ <;> cases h
        exact hvariable hv
      | goal horizon => rcases h with ⟨_, h⟩ | ⟨_, h, -⟩ <;> cases h

theorem termBelow_succeeds (label : String) (hp : p.arena.WellFormed) {n : Nat} (hn : e < n)
    (he : s.CanEncode p scope e) :
    ∃ t s', (termBelow p scope label n e).run s = .ok (t, s') ∧ s.KeepsNames s' := by
  induction n generalizing e s with
  | zero => exact absurd hn (Nat.not_lt_zero e)
  | succ n ih =>
    have hoperand {x : ExprId} {s : State α} (hx : x ∈ (p.arena.node e).operands)
        (he : s.CanEncode p scope e) :
        ∃ t s', (termBelow p scope label n x).run s = .ok (t, s') ∧ s.KeepsNames s' :=
      ih (Nat.lt_of_lt_of_le (hp.lt_of_mem_operands hx) (Nat.le_of_lt_succ hn)) (he.operand hx)
    have hnode := he.holds
    unfold termBelow
    rw [run_get]
    split
    · exact ⟨_, s, rfl, rfl, rfl⟩
    · -- a new term is made, and from then on it is known
      split
      · exact ⟨_, _, make_learn_eq_ok.2 ⟨rfl, rfl⟩, s.keepsNames_encodes e scope _⟩
      · next name hname =>
        rw [hname] at hnode
        obtain ⟨t, s₁, ht, hkeeps⟩ := symbol_succeeds label hnode
        exact ⟨_, _, run_bind_eq_ok.2 ⟨t, s₁, ht, learn_eq_ok.2 ⟨rfl, rfl⟩⟩, hkeeps.vars, hkeeps.rows⟩
      · next a ha =>
        obtain ⟨t, s₁, ht, hkeeps⟩ := hoperand (x := a) (by simp [ha, Node.operands]) he
        exact ⟨_, _, run_bind_eq_ok.2 ⟨t, s₁, ht, make_learn_eq_ok.2 ⟨rfl, rfl⟩⟩,
          hkeeps.trans (s₁.keepsNames_encodes e scope _)⟩
      · next op a b hab =>
        obtain ⟨t, s₁, ht, hkeeps⟩ := hoperand (x := a) (by simp [hab, Node.operands]) he
        obtain ⟨u, s₂, hu, hkeeps'⟩ := hoperand (x := b) (by simp [hab, Node.operands])
          (hkeeps.canEncode he)
        exact ⟨_, _, run_bind_eq_ok.2 ⟨t, s₁, ht, run_bind_eq_ok.2 ⟨u, s₂, hu,
          make_learn_eq_ok.2 ⟨rfl, rfl⟩⟩⟩, (hkeeps.trans hkeeps').trans (s₂.keepsNames_encodes e scope _)⟩
      · next f a ha =>
        obtain ⟨t, s₁, ht, hkeeps⟩ := hoperand (x := a) (by simp [ha, Node.operands]) he
        exact ⟨_, _, run_bind_eq_ok.2 ⟨t, s₁, ht, make_learn_eq_ok.2 ⟨rfl, rfl⟩⟩,
          hkeeps.trans (s₁.keepsNames_encodes e scope _)⟩
      -- nothing else is arithmetic
      · next args hcall hnode' =>
        rw [hnode'] at hnode
        obtain ⟨a, rfl⟩ := List.length_eq_one_iff.1 hnode.2
        exact (hcall a rfl).elim
      · next hnode' =>
        rw [hnode'] at hnode
        exact absurd rfl hnode.1
      · next hnode' =>
        rw [hnode'] at hnode
        exact hnode.elim
      · next hnode' =>
        rw [hnode'] at hnode
        exact hnode.1.elim

theorem term_succeeds (label : String) (hp : p.arena.WellFormed) (he : s.CanEncode p scope e) :
    ∃ t s', (term p scope label e).run s = .ok (t, s') ∧ s.KeepsNames s' :=
  termBelow_succeeds label hp (Nat.lt_succ_self e) he

/-! ## Rows -/

/-- One more row has a name, and no more variables. -/
structure State.AddsRow (label : String) (s s' : State α) : Prop where
  vars : s'.program.varIndex = s.program.varIndex
  rows : s'.program.rowNames = s.program.rowNames.insert label

theorem row_succeeds (hlabel : ¬s.program.rowNames.contains label) (bounds : α × α)
    (m : Terms.Make α TermId) :
    ∃ s', (make m >>= fun body =>
      extend (Program.addRow label bounds.1 body bounds.2)).run s = .ok ((), s') ∧
        s.AddsRow label s' := by
  have hrow : (extend (Program.addRow label bounds.1 (s.made m) bounds.2)).run (s.makes m) =
      .ok ((), s.makesRow label bounds m) :=
    extend_eq_ok.2 ⟨_, Program.addRow_eq_ok.2 ⟨hlabel, rfl⟩, rfl⟩
  exact ⟨_, run_bind_eq_ok.2 ⟨_, _, rfl, hrow⟩, rfl, rfl⟩

theorem State.KeepsNames.addsRow (h : s.KeepsNames s₁) (h' : s₁.AddsRow label s') :
    s.AddsRow label s' :=
  ⟨h'.vars.trans h.vars, h'.rows.trans (congrArg (·.insert label) h.rows)⟩

/-- The row of a comparison of known terms. -/
theorem constraint_succeeds (label : String) (hp : p.arena.WellFormed) {op : Comparison} {x y : ExprId}
    (he : p.arena.node e = .compare op x y) (hx : s.CanEncode p scope x)
    (hy : s.CanEncode p scope y) (hlabel : ¬s.program.rowNames.contains label) :
    ∃ s', (constraint p scope label e).run s = .ok ((), s') ∧ s.AddsRow label s' := by
  obtain ⟨t, s₁, ht, hkeeps⟩ := term_succeeds label hp hx
  obtain ⟨u, s₂, hu, hkeeps'⟩ := term_succeeds label hp (hkeeps.canEncode hy)
  have hkeeps := hkeeps.trans hkeeps'
  obtain ⟨s', hs', hadds⟩ := row_succeeds (s := s₂) (by rwa [hkeeps.rows])
    (comparisonBounds p.feastol op) (Terms.sub t u)
  refine ⟨s', ?_, hkeeps.addsRow hadds⟩
  unfold constraint constraintBelow
  rw [he]
  exact run_bind_eq_ok.2 ⟨t, s₁, ht, run_bind_eq_ok.2 ⟨u, s₂, hu, hs'⟩⟩

/-- The row that defines what a stage earns. -/
theorem reward_succeeds (hp : p.arena.WellFormed) {t : Nat}
    (hearned : (s.program.varOf? (rewardVar t)).isSome)
    (he : s.CanEncode p (.stage t) p.domain.reward.expr)
    (hlabel : ¬s.program.rowNames.contains s!"reward_{t}") :
    ∃ s', (reward p t).run s = .ok ((), s') ∧ s.AddsRow s!"reward_{t}" s' := by
  obtain ⟨v, hv⟩ := Option.isSome_iff_exists.1 hearned
  have hmakes := s.keepsNames_makes (Terms.var v)
  obtain ⟨u, s₁, hu, hkeeps⟩ := term_succeeds "reward" hp (hmakes.canEncode he)
  have hkeeps := hmakes.trans hkeeps
  obtain ⟨s', hs', hadds⟩ := row_succeeds (s := s₁) (by rwa [hkeeps.rows])
    (Scalar.zero, Scalar.zero) (Terms.sub (s.made (Terms.var v)) u)
  refine ⟨s', ?_, hkeeps.addsRow hadds⟩
  exact run_bind_eq_ok.2 ⟨v, s, var_eq_ok.2 ⟨hv, rfl⟩, run_bind_eq_ok.2 ⟨_, _, rfl,
    run_bind_eq_ok.2 ⟨u, s₁, hu, hs'⟩⟩⟩

end Encoding

/-! ## A problem without states -/

namespace Problem.Waits

open Encoding

variable {op : Comparison} {p : Problem Exact} (h : p.Waits op)
include h

/-- The variables are declared: how long to wait, and what this earns. -/
theorem declareAll_succeeds (hM : Scalar.lt p.bigM Scalar.zero = false) :
    ∃ s, (declareAll p 1).run (.begin Exact 1) = .ok ([(1, Scalar.one)], s) ∧
      (s.program.varOf? (stageVar "Dt" 0)).isSome ∧ (s.program.varOf? (rewardVar 0)).isSome ∧
      s.program.rowNames = ∅ := by
  obtain ⟨v, hvars, -, hname, hkind, hrole, hglobal⟩ := h.exists_duration
  have hglobals : p.domain.vars.filter (·.isGlobal) = [] := by simp [hvars, hglobal]
  have hstates : p.domain.states = [] := by simp [Domain.states, hvars, hrole]
  have hdecisions : p.domain.decisions.filter (!·.isGlobal) = [v] := by
    simp [Domain.decisions, hvars, hrole, hglobal]
  let s₁ := (State.begin Exact 1).withVar
    (Program.newVar (stageVar "Dt" 0) .continuous Scalar.zero p.bigM)
  have h₁ : (declare p v (stageVar v.name.text 0)).run (State.begin Exact 1) = .ok (0, s₁) := by
    unfold declare varBounds
    rw [hkind, hname, h.dt, if_pos rfl]
    exact addVar_eq_ok.2 ⟨by simp [State.begin, Program.varOf?],
      by simpa [Program.newVar, Program.bounds] using hM, rfl, rfl⟩
  let s₂ := s₁.withVar (Program.newVar (rewardVar 0) .continuous (-Scalar.infinity) Scalar.infinity)
  have hdifferent : stageVar "Dt" 0 ≠ rewardVar 0 := by decide
  have hbounds : ¬Scalar.lt (Scalar.infinity : Exact) (-Scalar.infinity) := fun hlt => by
    cases Exact.lt_iff.1 hlt
  have h₂ : (extend (Program.addVar (rewardVar 0) .continuous (-Scalar.infinity)
      Scalar.infinity)).run s₁ = .ok (1, s₂) := by
    refine addVar_eq_ok.2 ⟨?_, hbounds, rfl, rfl⟩
    rw [varOf?_withVar]
    exact (if_neg hdifferent).trans (by simp [State.begin, Program.varOf?])
  have hloop : (forIn [v] PUnit.unit fun v _ => do
      let _ ← declare p v (stageVar v.name.text 0)
      pure (ForInStep.yield PUnit.unit)).run (State.begin Exact 1) = .ok (⟨⟩, s₁) := by
    rw [List.forIn_cons]
    exact run_bind_eq_ok.2 ⟨_, _, run_bind_eq_ok.2 ⟨_, _, h₁, rfl⟩, rfl⟩
  have hdt : s₁.program.varOf? (stageVar "Dt" 0) = some 0 := by
    rw [varOf?_withVar]
    exact if_pos rfl
  refine ⟨s₂, ?_, ?_, ?_, rfl⟩
  · unfold declareAll
    dsimp only
    rw [hglobals, hstates, hdecisions]
    refine run_bind_eq_ok.2 ⟨⟨⟩, _, rfl, run_bind_eq_ok.2 ⟨⟨⟩, _, rfl, ?_⟩⟩
    rw [show List.range 1 = [0] from rfl, List.mapM_cons, List.mapM_nil]
    exact run_bind_eq_ok.2 ⟨_, _, run_bind_eq_ok.2 ⟨⟨⟩, s₁, hloop,
      run_bind_eq_ok.2 ⟨_, _, h₂, rfl⟩⟩, rfl⟩
  · rw [varOf?_withVar, hdt]
    split <;> rfl
  · rw [varOf?_withVar]
    exact congrArg Option.isSome (if_pos rfl)

/-- The rows are added: how long to wait is limited, and earned. -/
theorem rows_succeeds (hp : p.arena.WellFormed) {s : State Exact}
    (hdt : (s.program.varOf? (stageVar "Dt" 0)).isSome)
    (hearned : (s.program.varOf? (rewardVar 0)).isSome) (hrows : s.program.rowNames = ∅) :
    ∃ s', (rows p 1 {}).run s = .ok ((), s') := by
  obtain ⟨v, -, hdeclared, hname, -, hrole, hglobal⟩ := h.exists_duration
  obtain ⟨c, htemporal, x, y, he, hx, hy⟩ := h.temporal
  have hreading : reading? p (.stage 0) "Dt" = some (.inr (stageVar "Dt" 0)) := by
    rw [reading?, Domain.resolve?_eq_var.2 hdeclared]
    simp [varName, hglobal, hname, Scope.time]
  have hsymbol {s' : State Exact} (hs' : s'.program.varIndex = s.program.varIndex) {e : ExprId}
      (he : p.arena.table.items[e]? = some (.sym "Dt")) : s'.CanEncode p (.stage 0) e := by
    refine .node he (.inr ⟨_, hreading, ?_⟩) (by simp [Node.operands])
    rw [Program.varOf?, hs']
    exact hdt
  have hnumber : s.CanEncode p (.stage 0) y := .node hy trivial (by simp [Node.operands])
  obtain ⟨s₁, h₁, hadds⟩ := constraint_succeeds (s!"temporal_{0}" ++ s!"_{0}") hp
    (Arena.node_eq_of_getElem? he) (hsymbol rfl hx) hnumber (by simp [hrows])
  obtain ⟨s₂, h₂, -⟩ := reward_succeeds (s := s₁) (t := 0) hp
    (by rw [Program.varOf?, hadds.vars]; exact hearned) (hsymbol hadds.vars h.reward)
    (by rw [hadds.rows, hrows]; simp; decide)
  have htemporal : (constraints p (.stage 0) "temporal" s!"_{0}" p.domain.temporal).run s =
      .ok ((), s₁) := by
    rw [htemporal]
    exact run_bind_eq_ok.2 ⟨_, _, h₁, rfl⟩
  have hstage : (stage p 0).run s = .ok ((), s₂) := by
    unfold stage
    rw [h.instantaneous, h.transitions]
    refine run_bind_eq_ok.2 ⟨_, s, rfl, run_bind_eq_ok.2 ⟨_, s₁, htemporal, ?_⟩⟩
    exact run_bind_eq_ok.2 ⟨_, s₁, rfl, h₂⟩
  have hstages : (forIn (List.range 1) PUnit.unit fun t _ => do
      stage p t
      pure (ForInStep.yield PUnit.unit)).run s = .ok (⟨⟩, s₂) := by
    rw [show List.range 1 = [0] from rfl, List.forIn_cons]
    exact run_bind_eq_ok.2 ⟨_, s₂, run_bind_eq_ok.2 ⟨_, s₂, hstage, rfl⟩, rfl⟩
  refine ⟨s₂, ?_⟩
  unfold rows
  rw [h.initials, h.goals, if_pos Nat.one_pos]
  exact run_bind_eq_ok.2 ⟨_, s, rfl, run_bind_eq_ok.2 ⟨_, s₂, hstages,
    run_bind_eq_ok.2 ⟨_, s₂, rfl, rfl⟩⟩⟩

/-- Waiting in one stage can be encoded. -/
theorem encode_succeeds (hp : p.arena.WellFormed) (hM : Scalar.lt p.bigM Scalar.zero = false) :
    ∃ e, encode p 1 {} = .ok e := by
  obtain ⟨s, hdeclare, hdt, hearned, hnone⟩ := h.declareAll_succeeds hM
  obtain ⟨s', hrows⟩ := h.rows_succeeds (s := s.withObjective [(1, Scalar.one)]) hp hdt hearned hnone
  have hbuild : (build p 1 {}).run (.begin Exact 1) = .ok ((), s') :=
    run_bind_eq_ok.2 ⟨_, s, hdeclare, run_bind_eq_ok.2 ⟨_, _, rfl, hrows⟩⟩
  exact ⟨⟨s'.program, 1⟩, Except.bind_eq_ok.2 ⟨_, hbuild, rfl⟩⟩

end Problem.Waits

end HybridPlan
