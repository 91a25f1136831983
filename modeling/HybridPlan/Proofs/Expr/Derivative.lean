import HybridPlan.Expr.Derivative
import HybridPlan.Proofs.Expr.Substitution

set_option autoImplicit false

/-! # Derivatives stay in a vocabulary

The derivative of an expression uses its subexpressions, functions of them, and numbers. -/

namespace HybridPlan.Build

variable {α : Type} [Scalar α]

/-! ## Fallible constructions with a table of results -/

/-- The entries of a table. -/
def results (table : Std.HashMap ExprId ExprId) : Set ExprId := {x | ∃ k : ExprId, table[k]? = some x}

theorem results_empty : results {} = ∅ := by
  ext x
  simp [results]

theorem results_insert (table : Std.HashMap ExprId ExprId) (k x : ExprId) :
    results (table.insert k x) ⊆ {x} ∪ results table := by
  rintro y ⟨k', hy⟩
  rw [Std.HashMap.getElem?_insert] at hy
  split at hy
  · exact .inl (Option.some.inj hy).symm
  · exact .inr ⟨k', hy⟩

/-- A construction that can fail, and keeps a table of results. -/
abbrev TabledAttempt (α : Type) [Scalar α] (ε : Type) :=
  StateT (Std.HashMap ExprId ExprId) (Attempt α ε)

/-- The construction stays in a vocabulary if the results in its table do. -/
def TabledAttempt.Yields {ε ι : Type} (V : Vocabulary α) (C : Set ExprId)
    (m : TabledAttempt α ε ι) (R : ι → Set ExprId) : Prop :=
  ∀ table, Attempt.Yields V (results table ∪ C) (m.run table) fun r => R r.1 ∪ results r.2

namespace TabledAttempt.Yields

variable {ε ι κ : Type} {V : Vocabulary α} {C D : Set ExprId} {m : TabledAttempt α ε ι}
  {R : ι → Set ExprId}

theorem pure {i : ι} (h : R i ⊆ C) : Yields V C (Pure.pure i : TabledAttempt α ε ι) R :=
  fun table => Attempt.Yields.pure (i := (i, table))
    (Set.union_subset (h.trans Set.subset_union_right) Set.subset_union_left)

theorem throw {e : ε} : Yields V C (MonadExcept.throw e : TabledAttempt α ε ι) R := by
  intro table
  refine Build.Yields.pure (i := Except.error e) ?_
  rintro x ⟨i, hi, hx⟩
  cases hi

theorem bind {f : ι → TabledAttempt α ε κ} {S : κ → Set ExprId} (hm : Yields V C m R)
    (hf : ∀ i, Yields V (R i ∪ C) (f i) S) : Yields V C (m >>= f) S := by
  intro table
  rw [StateT.run_bind]
  refine Attempt.Yields.bind (hm table) fun r => (hf r.1 r.2).weaken ?_
  rintro x (hx | hx | hx)
  · exact .inl (.inr hx)
  · exact .inl (.inl hx)
  · exact .inr (.inr hx)

theorem lift {b : Build α ι} (hb : Build.Yields V C b R) :
    Yields V C (b : TabledAttempt α ε ι) R := by
  intro table
  change Attempt.Yields V _ ((b : Attempt α ε ι) >>= fun i => Pure.pure (i, table)) _
  refine Attempt.Yields.bind (.lift (hb.weaken Set.subset_union_right)) fun i => .pure ?_
  exact Set.union_subset_union (le_refl _) Set.subset_union_left

theorem lookup {f : Std.HashMap ExprId ExprId → TabledAttempt α ε κ} {S : κ → Set ExprId}
    (h : ∀ table, Yields V (results table ∪ C) (f table) S) :
    Yields V C (MonadState.get >>= f) S :=
  fun table => (h table table).weaken (Set.union_subset Set.subset_union_left (le_refl _))

theorem get {f : Arena α → TabledAttempt α ε κ} {S : κ → Set ExprId}
    (h : ∀ a : Arena α, (∀ x ∈ C, a.Uses V x) →
      ∃ D, (∀ x ∈ D, a.Uses V x) ∧ Yields V (D ∪ C) (f a) S) :
    Yields V C (getThe (Arena α) >>= f) S := by
  intro table
  change Attempt.Yields V _ (getThe (Arena α) >>= fun a => (f a).run table) _
  refine Attempt.Yields.get fun a _ hC => ?_
  obtain ⟨D, hD, hf⟩ := h a fun x hx => hC x (.inr hx)
  refine ⟨D, hD, (hf table).weaken ?_⟩
  rintro x (hx | hx | hx)
  · exact .inr (.inl hx)
  · exact .inl hx
  · exact .inr (.inr hx)

theorem record {m : TabledAttempt α ε ExprId} {e : ExprId} (hm : Yields V C m ({·})) :
    Yields V C (do let r ← m; modify (·.insert e r); return r) ({·}) := by
  refine bind hm fun r table => Attempt.Yields.pure (i := (r, table.insert e r)) ?_
  refine Set.union_subset ?_ ((results_insert table e r).trans ?_)
  · exact Set.subset_union_of_subset_right Set.subset_union_left _
  · refine Set.union_subset ?_ Set.subset_union_left
    exact Set.subset_union_of_subset_right Set.subset_union_left _

end TabledAttempt.Yields

/-! ## The rules of differentiation -/

variable {V : Vocabulary α} (hV : V.Closed) {C : Set ExprId} {e x y dx dy : ExprId}
include hV

theorem yields_derivePow (he : e ∈ C) (hx : x ∈ C) (hy : y ∈ C) (hdx : dx ∈ C) (hdy : dy ∈ C) :
    Yields V C (derivePow e x y dx dy) ({·}) := by
  refine .look fun a => .ite ?_ ?_
  · refine .bind (yields_one hV) fun one => ?_
    refine .bind (yields_sub hV (.inr hy) (.inl rfl)) fun lower => ?_
    refine .bind (yields_pow hV (.inr (.inr hx)) (.inl rfl)) fun p => ?_
    refine .bind (yields_mul hV (.inr (.inr (.inr hy))) (.inl rfl)) fun c => ?_
    exact yields_mul hV (.inl rfl) (.inr (.inr (.inr (.inr hdx))))
  · refine .bind (yields_call₁ hV hx) fun log => ?_
    refine .bind (yields_mul hV (.inr hdy) (.inl rfl)) fun l => ?_
    refine .bind (yields_mul hV (.inr (.inr hy)) (.inr (.inr hdx))) fun scaled => ?_
    refine .bind (yields_div hV (.inl rfl) (.inr (.inr (.inr hx)))) fun r => ?_
    refine .bind (yields_add hV (.inr (.inr (.inl rfl))) (.inl rfl)) fun sum => ?_
    exact yields_mul hV (.inr (.inr (.inr (.inr (.inr he))))) (.inl rfl)

theorem yields_deriveArith (op : ArithOp) (he : e ∈ C) (hx : x ∈ C) (hy : y ∈ C) (hdx : dx ∈ C)
    (hdy : dy ∈ C) : Yields V C (deriveArith op e x y dx dy) ({·}) := by
  cases op with
  | add => exact yields_add hV hdx hdy
  | sub => exact yields_sub hV hdx hdy
  | mul =>
    refine .bind (yields_mul hV hdx hy) fun l => ?_
    refine .bind (yields_mul hV (.inr hx) (.inr hdy)) fun r => ?_
    exact yields_add hV (.inr (.inl rfl)) (.inl rfl)
  | div =>
    refine .bind (yields_mul hV hdx hy) fun l => ?_
    refine .bind (yields_mul hV (.inr hx) (.inr hdy)) fun r => ?_
    refine .bind (yields_sub hV (.inr (.inl rfl)) (.inl rfl)) fun numerator => ?_
    refine .bind (yields_powInt hV (.inr (.inr (.inr hy)))) fun denominator => ?_
    exact yields_div hV (.inr (.inl rfl)) (.inl rfl)
  | pow => exact yields_derivePow hV he hx hy hdx hdy

theorem yields_deriveOuter (f : Elementary) (he : e ∈ C) (hx : x ∈ C) :
    Yields V C (deriveOuter f e x) ({·}) := by
  cases f with
  | exp => exact .pure (Set.singleton_subset_iff.2 he)
  | log => exact .bind (yields_one hV) fun one => yields_div hV (.inl rfl) (.inr hx)
  | sqrt =>
    refine .bind (yields_num hV (hV.nat 2)) fun two => ?_
    refine .bind (yields_mul hV (.inl rfl) (.inr he)) fun denominator => ?_
    exact .bind (yields_one hV) fun one => yields_div hV (.inl rfl) (.inr (.inl rfl))
  | sin => exact yields_call₁ hV hx
  | cos => exact .bind (yields_call₁ hV hx) fun s => yields_neg hV (.inl rfl)
  | abs => exact yields_div hV hx he

/-! ## Derivatives -/

theorem yields_deriveBelow (t : String) (n : Nat) (he : e ∈ C) :
    TabledAttempt.Yields V C (deriveBelow t n e) ({·}) := by
  induction n generalizing e C with
  | zero => exact .lift (yields_zero hV)
  | succ n ih =>
    unfold deriveBelow
    refine .lookup fun table => ?_
    dsimp only
    split
    · next r hr => exact .pure (Set.singleton_subset_iff.2 (.inl ⟨e, hr⟩))
    · refine .get fun a hC =>
        ⟨{x | x ∈ (a.node e).operands}, fun x hx => (hC e (.inr he)).operand hx, ?_⟩
      have hself : e ∈ {x | x ∈ (a.node e).operands} ∪ (results table ∪ C) := .inr (.inr he)
      split
      · exact .record (.lift (yields_zero hV))
      · exact .record (.lift (.ite (yields_one hV) (yields_zero hV)))
      · next x hnode =>
        have hx : x ∈ (a.node e).operands := by simp [hnode, Node.operands]
        exact .bind (ih (.inl hx)) fun dx => .record (.lift (yields_neg hV (.inl rfl)))
      · next op x y hnode =>
        have hx : x ∈ (a.node e).operands := by simp [hnode, Node.operands]
        have hy : y ∈ (a.node e).operands := by simp [hnode, Node.operands]
        refine .bind (ih (.inl hx)) fun dx => .bind (ih (.inr (.inl hy))) fun dy => ?_
        exact .record (.lift (yields_deriveArith hV op (.inr (.inr hself)) (.inr (.inr (.inl hx)))
          (.inr (.inr (.inl hy))) (.inr (.inl rfl)) (.inl rfl)))
      · next f x hnode =>
        have hx : x ∈ (a.node e).operands := by simp [hnode, Node.operands]
        refine .bind (ih (.inl hx)) fun dx => ?_
        split
        · next f =>
          refine .bind (.lift (yields_deriveOuter hV f (.inr hself) (.inr (.inl hx)))) fun outer => ?_
          exact .record (.lift (yields_mul hV (.inl rfl) (.inr (.inl rfl))))
        · exact .record .throw
      all_goals exact .record .throw

theorem yields_derive (t : String) (he : e ∈ C) : Attempt.Yields V C (derive t e) ({·}) := by
  have h := yields_deriveBelow hV t (e + 1) he {}
  rw [results_empty, Set.empty_union] at h
  exact .bind h fun r => .pure (Set.subset_union_of_subset_left Set.subset_union_left _)

end HybridPlan.Build
