import HybridPlan.Proofs.Encoding.Success
import HybridPlan.Proofs.Reach
import HybridPlan.Proofs.Validity

set_option autoImplicit false

/-! # What is valid can be encoded

Where a constraint of a valid problem is encoded, its symbols stand for numbers or for variables of
the plan, and all of these are declared before the first row. So nothing can go wrong in the encoding
but that the program refuses a variable or a row. -/

namespace HybridPlan

variable {α : Type} [Scalar α]

namespace Encoding

/-! ## Symbols -/

/-- The names of the variables of a plan. -/
def planNames (p : Problem α) (horizon : Nat) : Set String :=
  {x | ∃ v ∈ planVars p horizon, v.name = x}

/-- The symbol stands for a number, or for one of the variables `N`. -/
def Denotes (N : Set String) (p : Problem α) (scope : Scope) (name : String) : Prop :=
  (∃ c, reading? p scope name = some (.inl c)) ∨ ∃ x ∈ N, reading? p scope name = some (.inr x)

/-- Arithmetic over symbols that stand for numbers or variables of a plan. -/
abbrev readable (p : Problem α) (horizon : Nat) (scope : Scope) : Vocabulary α :=
  .arithmetic α (Denotes (planNames p horizon) p scope)

variable {p : Problem α} {horizon t : Nat} {v : Variable}

theorem global_mem_planNames (hv : v ∈ p.domain.vars) (hglobal : v.isGlobal) :
    v.name.text ∈ planNames p horizon := by
  have hmem : v ∈ p.domain.vars.filter (·.isGlobal) := List.mem_filter.2 ⟨hv, hglobal⟩
  exact ⟨_, List.mem_append_left _ (List.mem_append_left _ (List.mem_map_of_mem hmem)), rfl⟩

theorem state_mem_planNames (hv : v ∈ p.domain.vars) (hrole : v.role = .state)
    (ht : t ≤ horizon) : stageVar v.name.text t ∈ planNames p horizon := by
  have hmem : v ∈ p.domain.states := List.mem_filter.2 ⟨hv, by simpa using hrole⟩
  have hboundary : declared p v (stageVar v.name.text t) ∈ boundaryVars p t :=
    List.mem_map_of_mem hmem
  exact ⟨_, List.mem_append_left _ (List.mem_append_right _ (List.mem_flatMap.2
    ⟨t, List.mem_range.2 (Nat.lt_succ_of_le ht), hboundary⟩)), rfl⟩

theorem decision_mem_planNames (hv : v ∈ p.domain.vars) (hrole : v.role ≠ .state)
    (hglobal : ¬v.isGlobal) (ht : t < horizon) :
    stageVar v.name.text t ∈ planNames p horizon := by
  have hmem : v ∈ p.domain.decisions.filter (!·.isGlobal) :=
    List.mem_filter.2 ⟨List.mem_filter.2 ⟨hv, by simpa using hrole⟩, by simpa using hglobal⟩
  have hstage : declared p v (stageVar v.name.text t) ∈ stageVars p t :=
    List.mem_append_left _ (List.mem_map_of_mem hmem)
  exact ⟨_, List.mem_append_right _ (List.mem_flatMap.2 ⟨t, List.mem_range.2 ht, hstage⟩), rfl⟩

theorem reward_mem_planNames (ht : t < horizon) : rewardVar t ∈ planNames p horizon := by
  have hstage : (earned t : ProgramVar α) ∈ stageVars p t :=
    List.mem_append_right _ List.mem_cons_self
  exact ⟨_, List.mem_append_right _ (List.mem_flatMap.2 ⟨t, List.mem_range.2 ht, hstage⟩), rfl⟩

/-- A declared variable is one of the plan, at the time at which a scope takes it. -/
theorem varName_mem_planNames {scope : Scope} (hv : v ∈ p.domain.vars)
    (hstate : v.role = .state → Scope.time v scope ≤ horizon)
    (hdecision : v.role ≠ .state → Scope.time v scope < horizon) :
    varName v scope ∈ planNames p horizon := by
  unfold varName
  by_cases hglobal : v.isGlobal
  · rw [if_pos hglobal]
    exact global_mem_planNames hv hglobal
  · rw [if_neg hglobal]
    by_cases hrole : v.role = .state
    · exact state_mem_planNames hv hrole (hstate hrole)
    · exact decision_mem_planNames hv hrole hglobal (hdecision hrole)

/-- Whatever has a meaning stands for something in a stage. -/
theorem denotes_stage {name : String} (h : p.domain.Has .constraint name) (ht : t < horizon) :
    Denotes (planNames p horizon) p (.stage t) name := by
  obtain ⟨r, hr, -⟩ := h
  unfold Denotes reading?
  rw [hr]
  cases r with
  | constant c => exact .inl ⟨c, rfl⟩
  | tolerance => exact .inl ⟨p.feastol, rfl⟩
  | var v =>
    have hv := Domain.mem_of_declared? (Domain.resolve?_eq_var.1 hr)
    have hmem : varName v (.stage t) ∈ planNames p horizon :=
      varName_mem_planNames hv (fun _ => ht.le) fun _ => ht
    exact .inr ⟨_, hmem, rfl⟩
  | next v =>
    obtain ⟨-, -, hv, hrole⟩ := Domain.resolve?_eq_next hr
    exact .inr ⟨_, state_mem_planNames hv hrole ht, rfl⟩

/-- Whatever has a meaning in a goal stands for something at the end of a plan. -/
theorem denotes_goal {name : String} (h : p.domain.Has .goal name) (hpos : 0 < horizon) :
    Denotes (planNames p horizon) p (.goal horizon) name := by
  obtain ⟨r, hr, hnext⟩ := h
  unfold Denotes reading?
  rw [hr]
  cases r with
  | constant c => exact .inl ⟨c, rfl⟩
  | tolerance => exact .inl ⟨p.feastol, rfl⟩
  | var v =>
    have hv := Domain.mem_of_declared? (Domain.resolve?_eq_var.1 hr)
    refine .inr ⟨_, varName_mem_planNames hv (fun hrole => ?_) fun hrole => ?_, rfl⟩
    · exact (if_pos hrole).le
    · exact (if_neg hrole).trans_lt (Nat.sub_lt hpos Nat.one_pos)
  | next v => cases hnext v rfl

/-! ## Steps that only the program refuses -/

/-- The variables are declared. -/
def State.Has (s : State α) (N : Set String) : Prop := ∀ x ∈ N, (s.program.varOf? x).isSome

/-- Where the variables `N` are declared, the part succeeds and leaves them declared, or the program
refuses something. -/
def Sound {ι : Type} (N : Set String) (m : Encode α ι) : Prop :=
  ∀ s : State α, s.Has N →
    (∃ i s', m.run s = .ok (i, s') ∧ s'.Has N) ∨ ∃ e, m.run s = .error (.program e)

variable {ι κ : Type} {N : Set String} {m : Encode α ι} {s s' : State α}

theorem State.Has.of_varIndex (hs : s.Has N) (h : s'.program.varIndex = s.program.varIndex) :
    s'.Has N := by
  intro x hx
  rw [Program.varOf?, h]
  exact hs x hx

namespace Sound

theorem pure (i : ι) : Sound N (Pure.pure i : Encode α ι) := fun s hs => .inl ⟨i, s, rfl, hs⟩

theorem bind {f : ι → Encode α κ} (hm : Sound N m) (hf : ∀ i, Sound N (f i)) :
    Sound N (m >>= f) := by
  intro s hs
  rw [run_bind]
  rcases hm s hs with ⟨i, s', hi, hs'⟩ | ⟨e, he⟩
  · rw [hi]
    exact hf i s' hs'
  · rw [he]
    exact .inr ⟨e, rfl⟩

/-- What the program does not refuse is added to it. -/
theorem extend {m : Program.Extend α ι}
    (h : ∀ s i s', (Encoding.extend m).run s = .ok (i, s') → s.Has N → s'.Has N) :
    Sound N (Encoding.extend m) := by
  intro s hs
  cases hresult : (Encoding.extend m).run s with
  | ok r => exact .inl ⟨r.1, r.2, rfl, h s r.1 r.2 hresult hs⟩
  | error e =>
    obtain ⟨e', q, -, rfl⟩ := extend_eq_error hresult
    exact .inr ⟨e', rfl⟩

theorem addVar (name : String) (domain : VarDomain) (lower upper : α) :
    Sound N (Encoding.extend (Program.addVar name domain lower upper)) := by
  refine extend fun s i s' h hs x hx => ?_
  obtain ⟨-, -, -, rfl⟩ := addVar_eq_ok.1 h
  rw [varOf?_withVar]
  split
  · rfl
  · exact hs x hx

theorem addRow (name : String) (lower : α) (body : TermId) (upper : α) :
    Sound N (Encoding.extend (Program.addRow name lower body upper)) := by
  refine extend fun _ _ _ h hs => ?_
  obtain rfl := addRow_eq_ok h
  exact hs

theorem make (m : Terms.Make α TermId) : Sound N (Encoding.make m) :=
  fun _ hs => .inl ⟨_, _, rfl, hs⟩

theorem var {x : String} (hx : x ∈ N) : Sound N (var x : Encode α VarId) := by
  intro s hs
  obtain ⟨v, hv⟩ := Option.isSome_iff_exists.1 (hs x hx)
  exact .inl ⟨v, s, var_eq_ok.2 ⟨hv, rfl⟩, hs⟩

theorem mapM {f : ι → Encode α κ} {l : List ι} (hf : ∀ i ∈ l, Sound N (f i)) :
    Sound N (l.mapM f) := by
  induction l with
  | nil => exact pure []
  | cons i l ih =>
    rw [List.mapM_cons]
    refine bind (hf i List.mem_cons_self) fun k => ?_
    exact bind (ih fun i hi => hf i (List.mem_cons_of_mem _ hi)) fun ks => pure _

/-- A loop over parts. -/
theorem loop {f : ι → Encode α κ} {l : List ι} (hf : ∀ i ∈ l, Sound N (f i)) :
    Sound N (forIn l PUnit.unit fun i _ => do
      let _ ← f i
      Pure.pure (ForInStep.yield PUnit.unit)) := by
  induction l with
  | nil => exact pure PUnit.unit
  | cons i l ih =>
    rw [List.forIn_cons, bind_assoc]
    refine bind (hf i List.mem_cons_self) fun _ => ?_
    exact ih fun i hi => hf i (List.mem_cons_of_mem _ hi)

theorem labelled {f : String → ι → Encode α Unit} {l : List ι}
    (hf : ∀ label, ∀ i ∈ l, Sound N (f label i)) (label : String) (n : Nat) :
    Sound N (Encoding.labelled f label n l) := by
  induction l generalizing n with
  | nil => exact pure ()
  | cons i l ih =>
    exact bind (hf _ i List.mem_cons_self) fun _ =>
      ih (fun label i hi => hf label i (List.mem_cons_of_mem _ hi)) (n + 1)

/-! ## Rows -/

section

variable {scope : Scope} (hp : p.arena.WellFormed) (label : String) {e : ExprId}
include hp

/-- The term of arithmetic over variables that are declared. -/
theorem term (he : p.arena.Uses (.arithmetic α (Denotes N p scope)) e) :
    Sound N (term p scope label e) := by
  intro s hs
  have hknows : s.CanEncode p scope e := by
    refine he.imp fun n hn => ?_
    cases n with
    | sym name =>
      rcases hn with hc | ⟨x, hx, hreading⟩
      · exact .inl hc
      · exact .inr ⟨x, hreading, hs x hx⟩
    | num | neg | arith | call | compare | join => exact hn
  obtain ⟨t, s', ht, hkeeps⟩ := term_succeeds label hp hknows
  exact .inl ⟨t, s', ht, hs.of_varIndex hkeeps.vars⟩

theorem comparison {x y : ExprId} (op : Comparison)
    (hx : p.arena.Uses (.arithmetic α (Denotes N p scope)) x)
    (hy : p.arena.Uses (.arithmetic α (Denotes N p scope)) y) :
    Sound N (comparison p scope label op x y) :=
  bind (term hp label hx) fun _ => bind (term hp label hy) fun _ =>
    bind (make _) fun _ => addRow _ _ _ _

theorem disjunct (position : Nat)
    (he : p.arena.Inequality (.arithmetic α (Denotes N p scope)) e) :
    Sound N (disjunct p scope label position e) := by
  obtain ⟨op, x, y, hop, hnode, hx, hy⟩ := he
  have hrows {q : Inequality} (hlhs : p.arena.Uses (.arithmetic α (Denotes N p scope)) q.lhs)
      (hrhs : p.arena.Uses (.arithmetic α (Denotes N p scope)) q.rhs)
      (hq : Inequality.of? op x y = some q) : Sound N (Encoding.disjunct p scope label position e) := by
    unfold Encoding.disjunct
    rw [Arena.node_eq_of_getElem? hnode]
    dsimp only
    rw [hq]
    refine bind (addVar _ _ _ _) fun z => bind (make _) fun z => ?_
    refine bind (term hp label hlhs) fun lhs => bind (term hp label hrhs) fun rhs => ?_
    refine bind (make _) fun difference => bind (make _) fun bigM => ?_
    refine bind (make _) fun lift => bind (make _) fun body => ?_
    exact bind (addRow _ _ _ _) fun _ => pure z
  cases op with
  | le | lt => exact hrows hx hy rfl
  | ge | gt => exact hrows hy hx rfl
  | eq => exact absurd rfl hop

theorem disjuncts {items : List ExprId}
    (h : ∀ i ∈ items, p.arena.Inequality (.arithmetic α (Denotes N p scope)) i) (position : Nat) :
    Sound N (disjuncts p scope label position items) := by
  induction items generalizing position with
  | nil => exact pure []
  | cons i items ih =>
    refine bind (disjunct hp label position (h i List.mem_cons_self)) fun z => ?_
    exact bind (ih (fun i hi => h i (List.mem_cons_of_mem _ hi)) (position + 1)) fun zs => pure _

theorem constraintBelow (n : Nat) (he : p.arena.Shaped (.arithmetic α (Denotes N p scope)) e) :
    Sound N (constraintBelow p scope n label e) := by
  induction n generalizing label e with
  | zero => exact pure ()
  | succ n ih =>
    unfold Encoding.constraintBelow
    cases he with
    | comparison hnode hx hy =>
      rw [Arena.node_eq_of_getElem? hnode]
      exact comparison hp label _ hx hy
    | disjunction hnode hitems =>
      rw [Arena.node_eq_of_getElem? hnode]
      exact bind (disjuncts hp label hitems 0) fun switches => bind (make _) fun body =>
        addRow _ _ _ _
    | conjunction hnode hitems =>
      rw [Arena.node_eq_of_getElem? hnode]
      exact labelled (fun label i hi => ih label (hitems i hi)) label 0

theorem constraint (he : p.arena.Shaped (.arithmetic α (Denotes N p scope)) e) :
    Sound N (constraint p scope label e) :=
  constraintBelow hp label (e + 1) he

/-- The row that makes a variable equal to an expression. -/
theorem definition {x row : String} (hx : x ∈ N)
    (he : p.arena.Uses (.arithmetic α (Denotes N p scope)) e) :
    Sound N (do
      let v ← Encoding.var x
      let v ← Encoding.make (Terms.var v)
      let t ← Encoding.term p scope label e
      let body ← Encoding.make (Terms.sub v t)
      Encoding.extend (Program.addRow row Scalar.zero body Scalar.zero)) :=
  bind (var hx) fun _ => bind (make _) fun _ => bind (term hp label he) fun _ =>
    bind (make _) fun _ => addRow _ _ _ _

omit label in
theorem constraints {kind ending : String} {cs : List Constraint}
    (h : ∀ c ∈ cs, p.arena.Shaped (.arithmetic α (Denotes N p scope)) c.expr) :
    Sound N (constraints p scope kind ending cs) :=
  labelled (fun label c hc => constraint hp (label ++ ending) (h c hc)) kind 0

end

/-! ## Programs -/

theorem declare (p : Problem α) (v : Variable) (name : String) : Sound N (declare p v name) :=
  addVar _ _ _ _

theorem declareAll (p : Problem α) (horizon : Nat) : Sound N (declareAll p horizon) := by
  refine bind (loop fun v _ => declare p v _) fun _ => ?_
  refine bind (loop (f := fun t => forIn p.domain.states PUnit.unit fun v _ => do
    let _ ← Encoding.declare p v (stageVar v.name.text t)
    Pure.pure (ForInStep.yield PUnit.unit)) fun t _ => ?_) fun _ => ?_
  · exact loop fun v _ => declare p v _
  · refine mapM fun t _ => bind (loop fun v _ => declare p v _) fun _ => ?_
    exact bind (addVar _ _ _ _) fun reward => pure _

end Sound

end Encoding

/-! ## Valid problems -/

open Encoding

/-- Every constraint that is encoded has the shape of a constraint, every closed form and what a stage
earns is arithmetic, and all their symbols stand for numbers or for variables of the plan in the scope
in which they are encoded. -/
structure Problem.Encodable (p : Problem α) (store : CutStore α) (horizon : Nat) : Prop where
  initials : ∀ c ∈ p.domain.initials, p.arena.Shaped (readable p horizon (.stage 0)) c.expr
  instantaneous : ∀ t < horizon, ∀ c ∈ p.domain.instantaneous,
    p.arena.Shaped (readable p horizon (.stage t)) c.expr
  temporal : ∀ t < horizon, ∀ c ∈ p.domain.temporal,
    p.arena.Shaped (readable p horizon (.stage t)) c.expr
  transitions : ∀ t < horizon, ∀ x ∈ p.transitions,
    p.arena.Uses (readable p horizon (.stage t)) x.2
  reward : ∀ t < horizon, p.arena.Uses (readable p horizon (.stage t)) p.domain.reward.expr
  goals : ∀ c ∈ p.domain.goals, p.arena.Shaped (readable p horizon (.goal horizon)) c.expr
  cuts : ∀ c ∈ store.items.toList, c.stage < horizon →
    p.arena.Shaped (readable p horizon (.stage c.stage)) c.expr

variable {p : Problem α} {store : CutStore α} {horizon : Nat}

theorem Problem.Valid.encodable (hp : p.Valid) (hstore : store.Valid p) (hpos : 0 < horizon) :
    p.Encodable store horizon := by
  have hstage {t : Nat} (ht : t < horizon) (n : Node α)
      (h : (p.domain.vocabulary .constraint).Allows n) : (readable p horizon (.stage t)).Allows n := by
    cases n with
    | sym name => exact denotes_stage h ht
    | num | neg | arith | call | compare | join => exact h
  have hdynamics {t : Nat} (ht : t < horizon) (n : Node α)
      (h : (p.domain.vocabulary .dynamics).Allows n) : (readable p horizon (.stage t)).Allows n :=
    hstage ht n (Domain.allows_constraint p.domain n h)
  have hgoal (n : Node α) (h : (p.domain.vocabulary .goal).Allows n) :
      (readable p horizon (.goal horizon)).Allows n := by
    cases n with
    | sym name => exact denotes_goal h hpos
    | num | neg | arith | call | compare | join => exact h
  exact {
    initials := fun c hc => (hp.domain.initials c hc).imp (hstage hpos)
    instantaneous := fun t ht c hc => (hp.domain.instantaneous c hc).imp (hstage ht)
    temporal := fun t ht c hc => (hp.domain.temporal c hc).imp (hstage ht)
    transitions := fun t ht x hx => (hp.transitions x hx).imp (hdynamics ht)
    reward := fun t ht => hp.domain.reward.imp (hstage ht)
    goals := fun c hc => (hp.domain.goals c hc).imp hgoal
    cuts := fun c hc ht => (hstore c hc).imp (hdynamics ht) }

namespace Encoding.Sound

section

variable (hp : p.Valid) (h : p.Encodable store horizon)
include hp h

theorem transition {t : Nat} (ht : t < horizon) {x : String × ExprId} (hx : x ∈ p.transitions) :
    Sound (planNames p horizon) (transition p t x.1 x.2) := by
  have hstate : x.1 ∈ p.domain.stateNames := hp.made.names ▸ List.mem_map_of_mem hx
  obtain ⟨v, hv, hname⟩ := List.mem_map.1 hstate
  obtain ⟨hv, hrole⟩ := List.mem_filter.1 hv
  have hnext : stageVar x.1 (t + 1) ∈ planNames p horizon :=
    hname ▸ state_mem_planNames hv (by simpa using hrole) ht
  unfold Encoding.transition
  exact definition hp.made.domain.arena "transition" hnext (h.transitions t ht x hx)

theorem reward {t : Nat} (ht : t < horizon) : Sound (planNames p horizon) (reward p t) := by
  unfold Encoding.reward
  exact definition hp.made.domain.arena "reward" (reward_mem_planNames ht) (h.reward t ht)

theorem stage {t : Nat} (ht : t < horizon) : Sound (planNames p horizon) (stage p t) := by
  have ha := hp.made.domain.arena
  have hinstantaneous : Sound (planNames p horizon) (Encoding.constraints p (.stage t)
      "instantaneous" s!"_{t}" p.domain.instantaneous) := constraints ha (h.instantaneous t ht)
  have htemporal : Sound (planNames p horizon) (Encoding.constraints p (.stage t)
      "temporal" s!"_{t}" p.domain.temporal) := constraints ha (h.temporal t ht)
  have htransitions : Sound (planNames p horizon) (forIn p.transitions PUnit.unit fun x _ => do
      let _ ← Encoding.transition p t x.1 x.2
      Pure.pure (ForInStep.yield PUnit.unit)) := loop fun x hx => transition hp h ht hx
  unfold Encoding.stage
  refine bind hinstantaneous fun _ => bind htemporal fun _ => ?_
  exact bind htransitions fun _ => reward hp h ht

theorem cuts {cs : List (Cut α)} (hcs : ∀ c ∈ cs, c ∈ store.items.toList) (k : Nat) :
    Sound (planNames p horizon) (cuts p horizon k cs) := by
  induction cs generalizing k with
  | nil => exact pure ()
  | cons c cs ih =>
    have hrest := ih (fun c hc => hcs c (List.mem_cons_of_mem _ hc)) (k + 1)
    unfold Encoding.cuts
    split
    · next hlt =>
      exact bind (constraint hp.made.domain.arena _ (h.cuts c (hcs c List.mem_cons_self) hlt))
        fun _ => hrest
    · exact hrest

theorem rows : Sound (planNames p horizon) (rows p horizon store) := by
  have ha := hp.made.domain.arena
  unfold Encoding.rows
  refine bind (constraints ha h.initials) fun _ => ?_
  refine bind (loop fun t ht => stage hp h (List.mem_range.1 ht)) fun _ => ?_
  split
  · exact bind (constraints ha h.goals) fun _ => cuts hp h (fun _ hc => hc) 0
  · exact cuts hp h (fun _ hc => hc) 0

end

end Encoding.Sound

/-- An encoding of a valid problem fails only if the program refuses something. -/
theorem Problem.Valid.encode_error (hp : p.Valid) (hstore : store.Valid p) (hpos : 0 < horizon)
    {error : EncodingError α} (h : encode p horizon store = .error error) :
    ∃ e, error = .program e := by
  have hencodable := hp.encodable hstore hpos
  have hbegin : (State.begin α horizon).Has ∅ := fun _ h => h.elim
  have hrun : encode p horizon store = ((build p horizon store).run (.begin α horizon) >>= fun r =>
      .ok ⟨r.2.program, horizon⟩) := rfl
  have hbuild : (build p horizon store).run (.begin α horizon) =
      (declareAll p horizon).run (.begin α horizon) >>= fun r =>
        (rows p horizon store).run (r.2.withObjective r.1) := rfl
  rw [hrun, hbuild] at h
  rcases Sound.declareAll p horizon _ hbegin with ⟨objective, s, hdeclare, -⟩ | ⟨e, he⟩
  · obtain ⟨hdeclares, -⟩ := declareAll_eq_ok hdeclare (State.wellFormed_begin horizon)
    have hhas : (s.withObjective objective).Has (planNames p horizon) := by
      rintro _ ⟨v, hv, rfl⟩
      obtain ⟨k, hk⟩ := List.mem_iff_getElem?.1 hv
      have hvar : s.program.vars[k]? = some v := by
        rw [← Array.getElem?_toList, hdeclares.vars]
        exact hk
      have hindex := (hdeclares.wellFormed.program.index v.name k).2 ⟨v, hvar, rfl⟩
      exact Option.isSome_iff_exists.2 ⟨k, hindex⟩
    rw [hdeclare] at h
    rcases Sound.rows hp hencodable _ hhas with ⟨⟨⟩, s', hrows, -⟩ | ⟨e, he⟩
    · rw [show (Except.ok (objective, s) >>= fun r =>
        (rows p horizon store).run (r.2.withObjective r.1)) =
          (rows p horizon store).run (s.withObjective objective) from rfl, hrows] at h
      cases h
    · rw [show (Except.ok (objective, s) >>= fun r =>
        (rows p horizon store).run (r.2.withObjective r.1)) =
          (rows p horizon store).run (s.withObjective objective) from rfl, he] at h
      cases h
      exact ⟨e, rfl⟩
  · rw [he] at h
    cases h
    exact ⟨e, rfl⟩

/-! ## Domains that were read -/

/-- What was read can be encoded, with all cuts of violations of its temporal constraints: the only
errors are those of the program, which has a variable or a row of that name, or no value for the
variable. -/
theorem ReadProblem.validation_suffices (P : ReadProblem α)
    {vs : List (Violation α × OffsetMode × Nat)}
    (hvs : ∀ v ∈ vs, v.1.constraint < P.problem.temporal.length) (hpos : 0 < horizon) :
    (CutStore.fill P.problem vs).2.Encodable (CutStore.fill P.problem vs).1 horizon ∧
      ∀ error, encode (CutStore.fill P.problem vs).2 horizon (CutStore.fill P.problem vs).1 =
        .error error → ∃ e, error = .program e := by
  obtain ⟨hp, hstore⟩ := CutStore.fill_valid P.valid hvs
  exact ⟨hp.encodable hstore hpos, fun error h => hp.encode_error hstore hpos h⟩

/-- A wait that is too long, and the cut that excludes it. -/
theorem ReadProblem.validation_suffices_waiting : ∃ (P : ReadProblem Exact) (v : Violation Exact),
    P.source = Waiting.source .le ∧ P.config = .default ∧
      v ∈ Waiting.plan.violations P.problem Waiting.params ∧
      (∀ w ∈ [(v, OffsetMode.relative, 1)], w.1.constraint < P.problem.temporal.length) ∧ 0 < 1 ∧
      (CutStore.fill P.problem [(v, .relative, 1)]).2.Encodable
        (CutStore.fill P.problem [(v, .relative, 1)]).1 1 ∧
      ∀ error, encode (CutStore.fill P.problem [(v, .relative, 1)]).2 1
        (CutStore.fill P.problem [(v, .relative, 1)]).1 = .error error → ∃ e, error = .program e := by
  obtain ⟨P, v, hsource, hconfig, hwaits, hv, hconstraint, -⟩ := Waiting.exists_late
  obtain ⟨c, hc, -⟩ := hwaits.exists_temporal P.resolved
  have hvs : ∀ w ∈ [(v, OffsetMode.relative, 1)], w.1.constraint < P.problem.temporal.length := by
    simp [hconstraint, hc]
  obtain ⟨hencodable, herror⟩ := P.validation_suffices hvs Nat.one_pos
  exact ⟨P, v, hsource, hconfig, hv, hvs, Nat.one_pos, hencodable, herror⟩

end HybridPlan
