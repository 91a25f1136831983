import HybridPlan.Proofs.Encoding.Naming
import HybridPlan.Proofs.Encoding.Requests
import HybridPlan.Proofs.Encoding.Validation

set_option autoImplicit false

/-! # Bounds of variables

A program refuses a variable whose bounds leave it no value. The bounds that an encoding gives come from
few sources: a switch is zero or one, a number is unbounded, and the duration ends at the large
constant. If these leave room, the encoding fails for no bounds. As the names of a valid problem are
there, and are not taken twice, it does not fail at all then. -/

namespace HybridPlan

variable {α : Type} [Scalar α]

/-- The bounds of the variables of a plan leave them a value. -/
structure Problem.Roomy (p : Problem α) : Prop where
  duration : Scalar.lt p.bigM Scalar.zero = false
  unbounded : Scalar.lt (Scalar.infinity : α) (-Scalar.infinity) = false
  switch : Scalar.lt (Scalar.min Scalar.one Scalar.one : α) (Scalar.max Scalar.zero Scalar.zero) = false

theorem Problem.roomy {p : Problem Exact} (hM : Scalar.lt p.bigM Scalar.zero = false) : p.Roomy := by
  refine ⟨hM, Bool.eq_false_iff.2 fun h => (by cases Exact.lt_iff.1 h), ?_⟩
  rw [Exact.one_eq, Exact.zero_eq, Exact.max_real, Exact.min_real, max_self, min_self,
    ← Bool.not_eq_true, Exact.lt_real]
  norm_num

namespace Encoding

/-- The step does not fail for the bounds of a variable. -/
def Bounded {ι : Type} (m : Encode α ι) : Prop :=
  ∀ s x l u, m.run s ≠ .error (.program (.emptyDomain x l u))

namespace Bounded

variable {ι κ : Type} {m : Encode α ι} {f : ι → Encode α κ}

theorem of_silent (h : Silent m) : Bounded m := fun s _ _ _ => h.error s _

theorem throw {e : EncodingError α} (he : ∀ e', e ≠ .program e') :
    Bounded (throw e : Encode α ι) := by
  intro s x l u h
  cases h
  exact he _ rfl

theorem bind (hm : Bounded m) (hf : ∀ i, Bounded (f i)) : Bounded (m >>= f) := by
  intro s x l u h
  rw [run_bind] at h
  cases hresult : m.run s with
  | error e =>
    rw [hresult] at h
    cases h
    exact hm s x l u hresult
  | ok r =>
    rw [hresult] at h
    exact hf r.1 r.2 x l u h

theorem after (hm : Silent m) (hf : ∀ i, Bounded (f i)) : Bounded (m >>= f) := (of_silent hm).bind hf

theorem addRow (name : String) (lower : α) (body : TermId) (upper : α) :
    Bounded (extend (Program.addRow name lower body upper)) := by
  intro s x l u h
  obtain ⟨e, q, he, heq⟩ := extend_eq_error h
  obtain ⟨rfl, -⟩ := Program.addRow_eq_error he
  cases heq

theorem addVar {domain : VarDomain} {lower upper : α}
    (h : Scalar.lt (Program.bounds domain lower upper).2 (Program.bounds domain lower upper).1 = false)
    (name : String) : Bounded (extend (Program.addVar name domain lower upper)) := by
  intro s x l u hrun
  obtain ⟨e, q, he, heq⟩ := extend_eq_error hrun
  cases heq
  have hget (F : Program α → Program.Extend α VarId) :
      (get >>= F).run.run s.program = (F s.program).run.run s.program := rfl
  unfold Program.addVar at he
  rw [hget] at he
  dsimp only at he
  split at he
  · cases he
  · split at he
    · next hlt => exact absurd (h.symm.trans hlt) Bool.false_ne_true
    · cases he

/-! ## Loops -/

theorem loop (l : List ι) (hf : ∀ i, Bounded (f i)) : Bounded (forIn l PUnit.unit fun i _ => do
    let _ ← f i
    Pure.pure (ForInStep.yield PUnit.unit)) := by
  induction l with
  | nil => exact of_silent (Silent.pure PUnit.unit)
  | cons i l ih =>
    rw [List.forIn_cons, bind_assoc]
    exact bind (hf i) fun _ => ih

theorem mapM (l : List ι) (hf : ∀ i, Bounded (f i)) : Bounded (l.mapM f) := by
  induction l with
  | nil => exact of_silent (Silent.pure [])
  | cons i l ih =>
    rw [List.mapM_cons]
    exact bind (hf i) fun k => bind ih fun ks => of_silent (Silent.pure _)

theorem labelled {f : String → ι → Encode α Unit} (hf : ∀ label i, Bounded (f label i)) (label : String)
    (items : List ι) (n : ℕ) : Bounded (labelled f label n items) := by
  induction items generalizing n with
  | nil => exact of_silent (Silent.pure ())
  | cons item items ih => exact bind (hf _ item) fun _ => ih (n + 1)

/-! ## Rows -/

section

variable {p : Problem α} (hp : p.Roomy) {scope : Scope} (label : String)

theorem comparison (op : Comparison) (x y : ExprId) : Bounded (comparison p scope label op x y) :=
  after Silent.term fun _ => after Silent.term fun _ => after (Silent.make _) fun body =>
    addRow label _ body _

include hp

theorem disjunct (position : ℕ) (item : ExprId) : Bounded (disjunct p scope label position item) := by
  unfold Encoding.disjunct
  split
  · split
    · exact throw fun e h => by cases h
    · refine bind (addVar hp.switch _) fun z => after (Silent.make _) fun z => ?_
      refine after Silent.term fun x => after Silent.term fun y => after (Silent.make _) fun d => ?_
      refine after (Silent.make _) fun bigM => after (Silent.make _) fun lift => ?_
      exact after (Silent.make _) fun body => bind (addRow _ _ _ _) fun _ => of_silent (Silent.pure z)
  · exact throw fun e h => by cases h

theorem disjuncts (items : List ExprId) (n : ℕ) : Bounded (disjuncts p scope label n items) := by
  induction items generalizing n with
  | nil => exact of_silent (Silent.pure [])
  | cons item items ih =>
    exact bind (disjunct hp label n item) fun z => bind (ih (n + 1)) fun zs =>
      of_silent (Silent.pure _)

theorem constraintBelow (n : ℕ) (e : ExprId) : Bounded (constraintBelow p scope n label e) := by
  induction n generalizing label e with
  | zero => exact of_silent (Silent.pure ())
  | succ n ih =>
    unfold Encoding.constraintBelow
    split
    · exact labelled ih label _ 0
    · exact comparison label _ _ _
    · exact bind (disjuncts hp label _ 0) fun _ => after (Silent.make _) fun body => addRow _ _ body _
    · exact throw fun e h => by cases h

theorem constraint (e : ExprId) : Bounded (constraint p scope label e) :=
  constraintBelow hp label (e + 1) e

omit label in
theorem constraints (kind ending : String) (cs : List Constraint) :
    Bounded (constraints p scope kind ending cs) := by
  refine labelled (fun label c => ?_) kind cs 0
  exact constraint hp (label ++ ending) c.expr

end

/-! ## Programs -/

section

variable {p : Problem α}

theorem transition (t : ℕ) (x : String × ExprId) : Bounded (transition p t x.1 x.2) :=
  after (Silent.var _) fun _ => after (Silent.make _) fun _ => after Silent.term fun _ =>
    after (Silent.make _) fun body => addRow _ _ body _

theorem reward (t : ℕ) : Bounded (reward p t) :=
  after (Silent.var _) fun _ => after (Silent.make _) fun _ => after Silent.term fun _ =>
    after (Silent.make _) fun body => addRow _ _ body _

variable (hp : p.Roomy)
include hp

theorem stage (t : ℕ) : Bounded (stage p t) :=
  bind (constraints hp _ _ _) fun _ => bind (constraints hp _ _ _) fun _ =>
    bind (loop p.transitions (transition t)) fun _ => reward t

theorem cuts (horizon : ℕ) (cs : List (Cut α)) (k : ℕ) : Bounded (cuts p horizon k cs) := by
  induction cs generalizing k with
  | nil => exact of_silent (Silent.pure ())
  | cons c cs ih =>
    unfold Encoding.cuts
    split
    · exact bind (constraint hp _ _) fun _ => ih (k + 1)
    · exact ih (k + 1)

theorem rows (horizon : ℕ) (store : CutStore α) : Bounded (rows p horizon store) := by
  unfold Encoding.rows
  refine bind (constraints hp _ _ _) fun _ => bind (loop _ (stage hp)) fun _ => ?_
  split
  · exact bind (constraints hp _ _ _) fun _ => cuts hp horizon _ 0
  · exact cuts hp horizon _ 0

theorem declare (v : Variable) (name : String) : Bounded (declare p v name) := by
  refine addVar ?_ name
  split
  · exact hp.switch
  · exact hp.unbounded
  · split
    · exact hp.duration
    · exact hp.unbounded

theorem declareAll (horizon : ℕ) : Bounded (declareAll p horizon) := by
  have hstage (t : ℕ) : Bounded (declareStage p t) :=
    bind (loop _ fun v => declare hp v _) fun _ => bind (addVar hp.unbounded _) fun _ =>
      of_silent (Silent.pure _)
  exact bind (loop _ fun v => declare hp v _) fun _ =>
    bind (loop _ fun t => loop _ fun v => declare hp v _) fun _ => mapM _ hstage

theorem build (horizon : ℕ) (store : CutStore α) : Bounded (build p horizon store) :=
  bind (declareAll hp horizon) fun objective =>
    bind (fun s x l u h => by cases h) fun _ => rows hp horizon store

end

end Bounded

end Encoding

/-- A valid problem can be encoded for any number of stages and with any valid cuts, if its names are
apart and its bounds leave room. -/
theorem Problem.Valid.encode_succeeds {p : Problem α} (hp : p.Valid) (hapart : p.domain.Apart)
    (hroomy : p.Roomy) {store : CutStore α} (hstore : store.Valid p) {horizon : ℕ}
    (hpos : 0 < horizon) : ∃ e, encode p horizon store = .ok e := by
  have hnodup : (p.transitions.map (·.1)).Nodup := by
    rw [hp.made.names]
    exact hp.named.nodup.sublist (List.filter_sublist.map _)
  cases h : encode p horizon store with
  | ok e => exact ⟨e, rfl⟩
  | error error =>
    obtain ⟨e, rfl⟩ := hp.encode_error hstore hpos h
    cases e with
    | duplicateVariable x =>
      exact absurd h (Problem.encode_ne_refused (K := .var) hp.named (fun _ => hapart) hnodup _ _ x)
    | duplicateRow x =>
      exact absurd h (Problem.encode_ne_refused (K := .row) hp.named (fun h => by cases h) hnodup _ _ x)
    | emptyDomain x l u =>
      have hrun := Encoding.run_build_of_error h
      exact absurd hrun (Encoding.Bounded.build hroomy horizon store _ x l u)

end HybridPlan
