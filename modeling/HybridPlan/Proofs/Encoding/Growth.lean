import HybridPlan.Proofs.Encoding.Step
import HybridPlan.Proofs.Expr.Vocabulary

set_option autoImplicit false

/-! # Growth of a program while it is encoded

Terms are made without variables and rows. The rows of a constraint have names that begin with its
label, and the only new variables are switches, named after it too. -/

namespace HybridPlan

variable {α : Type} [Scalar α]

namespace Encoding

/-! ## Names -/

/-- The names that begin with a label. -/
def named (label : String) : Set String := {name | label.toList <+: name.toList}

/-- The names of the switches of a label. -/
def switches (label : String) : Set String := named ("Aux_" ++ label)

theorem mem_named_append (label ending : String) : label ++ ending ∈ named label := by
  change label.toList <+: (label ++ ending).toList
  rw [String.toList_append]
  exact List.prefix_append _ _

theorem mem_named (label : String) : label ∈ named label := List.prefix_refl _

theorem named_subset {label label' : String} (h : label' ∈ named label) :
    named label' ⊆ named label :=
  fun _ hname => List.IsPrefix.trans h hname

theorem switches_subset {label label' : String} (h : label' ∈ named label) :
    switches label' ⊆ switches label := by
  refine named_subset ?_
  change ("Aux_" ++ label).toList <+: ("Aux_" ++ label').toList
  rw [String.toList_append, String.toList_append]
  exact (List.prefix_append_right_inj _).2 h

theorem mem_named_numbered (label : String) (i : Nat) : s!"{label}_{i}" ∈ named label := by
  change label ++ "_" ++ toString i ∈ named label
  rw [String.append_assoc]
  exact mem_named_append _ _

theorem mem_named_numbered_or (label : String) (i : Nat) : s!"{label}_or_{i}" ∈ named label := by
  change label ++ "_or_" ++ toString i ∈ named label
  rw [String.append_assoc]
  exact mem_named_append _ _

theorem switchName_mem (label : String) (i : Nat) : switchName label i ∈ switches label := by
  change "Aux_" ++ label ++ "_" ++ toString i ∈ named ("Aux_" ++ label)
  rw [String.append_assoc]
  exact mem_named_append _ _

/-! ## Larger states -/

/-- The program is well-formed, and has the terms that are known. -/
structure State.WellFormed (s : State α) : Prop where
  program : s.program.WellFormed
  known : ∀ ⦃k : ExprId × Scope⦄ ⦃t : TermId⦄, s.known[k]? = some t → t < s.program.terms.size

/-- By additions alone the encoding comes to a well-formed state. -/
structure State.Grows (N M : Set String) (s s' : State α) : Prop where
  wellFormed : s'.WellFormed
  adds : s.program.Adds N M s'.program

namespace State

variable {N N' M M' : Set String} {s s₁ s' : State α}

theorem Grows.refl (hs : s.WellFormed) : s.Grows N M s := ⟨hs, .refl s.program⟩

theorem Grows.trans (h : s.Grows N M s₁) (h' : s₁.Grows N M s') : s.Grows N M s' :=
  ⟨h'.wellFormed, h.adds.trans h'.adds⟩

theorem Grows.mono (h : s.Grows N M s') (hN : N ⊆ N') (hM : M ⊆ M') : s.Grows N' M' s' :=
  ⟨h.wellFormed, h.adds.mono hN hM⟩

theorem Grows.terms_size (h : s.Grows N M s') :
    s.program.terms.size ≤ s'.program.terms.size :=
  Interner.size_mono h.adds.terms

/-- Steps grow the state if each of them does. -/
theorem Grows.steps {ι : Type} {Q : ι → State α → State α → Prop} {l : List ι}
    (hs : s.WellFormed) (h : Steps Q l s s')
    (hQ : ∀ i ∈ l, ∀ s s', Q i s s' → s.WellFormed → s.Grows N M s') : s.Grows N M s' := by
  induction h with
  | nil => exact .refl hs
  | cons h _ ih =>
    have h := hQ _ List.mem_cons_self _ _ h hs
    exact h.trans (ih h.wellFormed fun i hi => hQ i (List.mem_cons_of_mem _ hi))

variable {C : Set TermId} {m : Terms.Make α TermId}

theorem grows_makes (hs : s.WellFormed) (hm : Terms.Make.Yields s.program.vars.size C m ({·}))
    (hC : ∀ t ∈ C, t < s.program.terms.size) :
    s.Grows N M (s.makes m) ∧ s.made m < (s.makes m).program.terms.size := by
  obtain ⟨hterms, hle, hnew⟩ := hm s.program.terms hs.program.terms hC
  have hknown : ∀ ⦃k : ExprId × Scope⦄ ⦃t : TermId⦄, s.known[k]? = some t →
      t < (s.makes m).program.terms.size :=
    fun k t hk => Nat.lt_of_lt_of_le (hs.known hk) (Interner.size_mono hle)
  exact ⟨⟨⟨hs.program.withTerms hterms hle, hknown⟩, Program.adds_withTerms s.program hle⟩,
    hnew _ rfl⟩

theorem WellFormed.learns (hs : s.WellFormed) {e : ExprId} {scope : Scope} {t : TermId}
    (ht : t < s.program.terms.size) : (s.learns e scope t).WellFormed where
  program := hs.program
  known k u hu := by
    rw [State.learns, Std.HashMap.getElem?_insert] at hu
    split at hu
    · cases hu
      exact ht
    · exact hs.known hu

theorem grows_encodes (hs : s.WellFormed) (e : ExprId) (scope : Scope)
    (hm : Terms.Make.Yields s.program.vars.size C m ({·}))
    (hC : ∀ t ∈ C, t < s.program.terms.size) :
    s.Grows N M (s.encodes e scope m) ∧
      s.made m < (s.encodes e scope m).program.terms.size := by
  obtain ⟨hgrows, hnew⟩ := grows_makes (N := N) (M := M) hs hm hC
  exact ⟨⟨hgrows.wellFormed.learns hnew, hgrows.adds⟩, hnew⟩

theorem grows_makesRow (hs : s.WellFormed) {name : String} (hname : name ∈ M) (bounds : α × α)
    (hm : Terms.Make.Yields s.program.vars.size C m ({·}))
    (hC : ∀ t ∈ C, t < s.program.terms.size) : s.Grows N M (s.makesRow name bounds m) := by
  obtain ⟨hgrows, hnew⟩ := grows_makes (N := N) (M := M) hs hm hC
  refine hgrows.trans ⟨⟨hgrows.wellFormed.program.withRow hnew, hgrows.wellFormed.known⟩, ?_⟩
  exact Program.adds_withRow _ hname

theorem grows_withVar (hs : s.WellFormed) {v : ProgramVar α}
    (hname : s.program.varOf? v.name = none) (hv : v.name ∈ N) : s.Grows N M (s.withVar v) :=
  ⟨⟨hs.program.withVar hname, hs.known⟩, Program.adds_withVar _ hv⟩

end State

/-! ## Terms and rows -/

variable {p : Problem α} {scope : Scope} {label : String} {s s' : State α}
  {N M : Set String} {C : Set TermId} {n : Nat}

theorem yields_arith (op : ArithOp) {t u : TermId} (ht : t ∈ C) (hu : u ∈ C) :
    Terms.Make.Yields (α := α) n C (arith op t u) ({·}) := by
  cases op with
  | add => exact Terms.yields_add ht hu
  | sub => exact Terms.yields_sub ht hu
  | mul => exact Terms.yields_mul ht hu
  | div => exact Terms.yields_div ht hu
  | pow => exact Terms.yields_pow ht hu

theorem yields_lifted (bigM : α) {t u z : TermId} (ht : t ∈ C) (hu : u ∈ C) (hz : z ∈ C) :
    Terms.Make.Yields n C (lifted bigM t u z) ({·}) := by
  refine .bind (Terms.yields_sub ht hu) fun difference => ?_
  refine .bind (Terms.yields_const bigM) fun bigM => ?_
  refine .bind (Terms.yields_mul (.inr (.inr hz)) (.inl rfl)) fun lift => ?_
  exact Terms.yields_sub (.inr (.inr (.inl rfl))) (.inl rfl)

theorem TermFor.grows {e : ExprId} {t : TermId} (h : TermFor p scope e s t s')
    (hs : s.WellFormed) : s.Grows N M s' ∧ t < s'.program.terms.size := by
  induction h with
  | known h => exact ⟨.refl hs, hs.known h⟩
  | constant he =>
    exact State.grows_encodes (C := ∅) hs _ scope (Terms.yields_const _) fun _ h => h.elim
  | var he hx hv =>
    exact State.grows_encodes (C := ∅) hs _ scope (Terms.yields_var (hs.program.lt_size hv))
      fun _ h => h.elim
  | neg he ha iha =>
    obtain ⟨hgrows, ht⟩ := iha hs
    obtain ⟨hgrows', ht'⟩ := State.grows_encodes (C := {_}) hgrows.wellFormed _ scope
      (Terms.yields_neg rfl) (by rintro _ rfl; exact ht)
    exact ⟨hgrows.trans hgrows', ht'⟩
  | @arith op e a b s s₁ s₂ t u he ha hb iha ihb =>
    obtain ⟨hgrows, ht⟩ := iha hs
    obtain ⟨hgrows', hu⟩ := ihb hgrows.wellFormed
    have ht := Nat.lt_of_lt_of_le ht hgrows'.terms_size
    obtain ⟨hgrows'', hnew⟩ := State.grows_encodes (C := {t, u}) hgrows'.wellFormed e scope
      (yields_arith op (.inl rfl) (.inr rfl)) (by rintro _ (rfl | rfl); exacts [ht, hu])
    exact ⟨(hgrows.trans hgrows').trans hgrows'', hnew⟩
  | call he ha iha =>
    obtain ⟨hgrows, ht⟩ := iha hs
    obtain ⟨hgrows', ht'⟩ := State.grows_encodes (C := {_}) hgrows.wellFormed _ scope
      (Terms.yields_call _ rfl) (by rintro _ rfl; exact ht)
    exact ⟨hgrows.trans hgrows', ht'⟩

/-- Two terms and a row over their difference. -/
theorem grows_differenceRow {s₁ s₂ : State α} {x y : ExprId} {t u : TermId}
    (ht : TermFor p scope x s t s₁) (hu : TermFor p scope y s₁ u s₂) (hs : s.WellFormed)
    {name : String} (hname : name ∈ M) (bounds : α × α) :
    s.Grows N M (s₂.makesRow name bounds (Terms.sub t u)) := by
  obtain ⟨hgrows, ht⟩ := ht.grows (N := N) (M := M) hs
  obtain ⟨hgrows', hu⟩ := hu.grows (N := N) (M := M) hgrows.wellFormed
  have ht := Nat.lt_of_lt_of_le ht hgrows'.terms_size
  have hrow := State.grows_makesRow (N := N) (C := {t, u}) hgrows'.wellFormed hname bounds
    (Terms.yields_sub (.inl rfl) (.inr rfl)) (by rintro _ (rfl | rfl); exacts [ht, hu])
  exact (hgrows.trans hgrows').trans hrow

theorem size_withSwitch (s : State α) (label : String) (i : Nat) :
    s.program.vars.size < (s.withVar (switch label i)).program.vars.size := by
  simp [State.withVar, Program.withVar]

/-- A new switch, and its term. -/
theorem State.grows_switch (hs : s.WellFormed) {i : Nat}
    (hname : s.program.varOf? (switchName label i) = none) (hN : switchName label i ∈ N) :
    s.Grows N M (s.withVar (switch label i)) ∧
      (s.withVar (switch label i)).Grows N M
        ((s.withVar (switch label i)).makes (Terms.var s.program.vars.size)) ∧
      (s.withVar (switch label i)).made (Terms.var s.program.vars.size) <
        ((s.withVar (switch label i)).makes (Terms.var s.program.vars.size)).program.terms.size := by
  have hvar := State.grows_withVar (N := N) (M := M) hs (v := switch label i) hname hN
  exact ⟨hvar, State.grows_makes (C := ∅) hvar.wellFormed (Terms.yields_var (size_withSwitch s label i))
    fun _ h => h.elim⟩

theorem DisjunctFor.grows {i : Nat} {item : ExprId} {z : TermId}
    (h : DisjunctFor p scope label i item s z s') (hs : s.WellFormed) :
    s.Grows (switches label) (named label) s' ∧ z < s'.program.terms.size := by
  obtain @⟨op, x, y, q, s₀, s₁, s₂, _, z, t, u, he, hq, hname, rfl, rfl, ht, hu, rfl⟩ := h
  obtain ⟨hvar, hmakes, hz⟩ :=
    State.grows_switch (M := named label) hs hname (switchName_mem label i)
  obtain ⟨hgrows, ht⟩ := ht.grows (N := switches label) (M := named label) hmakes.wellFormed
  obtain ⟨hgrows', hu⟩ := hu.grows (N := switches label) (M := named label) hgrows.wellFormed
  have ht := Nat.lt_of_lt_of_le ht hgrows'.terms_size
  have hz := Nat.lt_of_lt_of_le hz (hgrows.trans hgrows').terms_size
  have hrow := State.grows_makesRow (N := switches label) (C := {t, u, _}) hgrows'.wellFormed
    (mem_named_numbered_or label i) (switchBounds p.bigM p.feastol q.strict)
    (yields_lifted p.bigM (.inl rfl) (.inr (.inl rfl)) (.inr (.inr rfl)))
    (by rintro _ (rfl | rfl | rfl); exacts [ht, hu, hz])
  have hgrows := ((hvar.trans hmakes).trans hgrows).trans hgrows'
  exact ⟨hgrows.trans hrow, Nat.lt_of_lt_of_le hz hrow.terms_size⟩

theorem DisjunctsFor.grows {i : Nat} {items : List ExprId} {zs : List TermId}
    (h : DisjunctsFor p scope label i items s zs s') (hs : s.WellFormed) :
    s.Grows (switches label) (named label) s' ∧ ∀ z ∈ zs, z < s'.program.terms.size := by
  induction h with
  | nil => exact ⟨.refl hs, fun _ h => absurd h List.not_mem_nil⟩
  | cons h _ ih =>
    obtain ⟨hgrows, hz⟩ := h.grows hs
    obtain ⟨hgrows', hzs⟩ := ih hgrows.wellFormed
    have hz := Nat.lt_of_lt_of_le hz hgrows'.terms_size
    exact ⟨hgrows.trans hgrows', List.forall_mem_cons.2 ⟨hz, hzs⟩⟩

theorem grows_disjunction {items : List ExprId} {zs : List TermId} {s₁ : State α}
    (h : DisjunctsFor p scope label 0 items s zs s₁) (hs : s.WellFormed) (bounds : α × α) :
    s.Grows (switches label) (named label)
      (s₁.makesRow s!"{label}_or" bounds (Terms.sum zs)) := by
  obtain ⟨hgrows, hzs⟩ := h.grows hs
  exact hgrows.trans (State.grows_makesRow (C := {z | z ∈ zs}) hgrows.wellFormed
    (mem_named_append label "_or") bounds (Terms.yields_sum fun _ hz => hz) hzs)

/-! ## Constraints -/

/-- The rows of a constraint and their switches are named by its label. -/
theorem constraint_grows (hp : p.arena.WellFormed) {e : ExprId}
    (h : (constraint p scope label e).run s = .ok ((), s')) (hs : s.WellFormed) :
    s.Grows (switches label) (named label) s' := by
  revert hs
  refine constraint_induction hp (Q := fun label _ s s' => s.WellFormed →
    s.Grows (switches label) (named label) s') ?_ ?_ ?_ h
  · intro label op e x y s s₁ s₂ t u _ ht hu hs
    exact grows_differenceRow ht hu hs (mem_named label) _
  · intro label e items s s₁ zs _ hzs hs
    exact grows_disjunction hzs hs _
  · intro label e items s s' _ hsteps hs
    refine .steps hs hsteps fun x _ s s' hx hs => (hx hs).mono ?_ ?_
    · exact switches_subset (mem_named_numbered label x.2)
    · exact named_subset (mem_named_numbered label x.2)

theorem size_makesRow (s : State α) (name : String) (bounds : α × α) (m : Terms.Make α TermId) :
    (s.makesRow name bounds m).program.rows.size = s.program.rows.size + 1 :=
  Array.size_push _

theorem State.Grows.rows_size (h : s.Grows N M s') :
    s.program.rows.size ≤ s'.program.rows.size :=
  h.adds.isPrefix_rows.length_le

/-- Steps that add rows add rows, if there are any. -/
theorem State.grows_of_steps {ι : Type} {Q : ι → State α → State α → Prop} {l : List ι}
    (hl : l ≠ []) (hs : s.WellFormed) (h : Steps Q l s s')
    (hQ : ∀ i ∈ l, ∀ s s', Q i s s' → s.WellFormed →
      s.Grows N M s' ∧ s.program.rows.size < s'.program.rows.size) :
    s.Grows N M s' ∧ s.program.rows.size < s'.program.rows.size := by
  cases h with
  | nil => exact absurd rfl hl
  | cons hfirst hrest =>
    obtain ⟨hgrows, hlt⟩ := hQ _ List.mem_cons_self _ _ hfirst hs
    have hgrows' := State.Grows.steps hgrows.wellFormed hrest fun i hi s s' h hs =>
      (hQ i (List.mem_cons_of_mem _ hi) s s' h hs).1
    exact ⟨hgrows.trans hgrows', Nat.lt_of_lt_of_le hlt hgrows'.rows_size⟩

/-- A constraint that joins no empty list has a row. -/
theorem constraint_adds_row (hp : p.arena.WellFormed) {V : Vocabulary α} {e : ExprId}
    (he : p.arena.Uses V e) (h : (constraint p scope label e).run s = .ok ((), s'))
    (hs : s.WellFormed) : s.program.rows.size < s'.program.rows.size := by
  suffices p.arena.Uses V e → s.WellFormed → s.Grows (switches label) (named label) s' ∧
    s.program.rows.size < s'.program.rows.size from (this he hs).2
  clear he hs
  refine constraint_induction hp (Q := fun label e s s' => p.arena.Uses V e → s.WellFormed →
    s.Grows (switches label) (named label) s' ∧
      s.program.rows.size < s'.program.rows.size) ?_ ?_ ?_ h
  · intro label op e x y s s₁ s₂ t u _ ht hu _ hs
    refine ⟨grows_differenceRow ht hu hs (mem_named label) _, ?_⟩
    have hgrows := (ht.grows (N := ∅) (M := ∅) hs).1
    have hgrows' := hgrows.trans (hu.grows hgrows.wellFormed).1
    rw [size_makesRow]
    exact Nat.lt_succ_of_le hgrows'.rows_size
  · intro label e items s s₁ zs _ hzs _ hs
    refine ⟨grows_disjunction hzs hs _, ?_⟩
    rw [size_makesRow]
    exact Nat.lt_succ_of_le (hzs.grows hs).1.rows_size
  · intro label e items s s' hnode hsteps he hs
    have hitems : ∀ x ∈ items, p.arena.Uses V x := fun x hx =>
      he.operand (by simpa [hnode, Node.operands] using hx)
    have hne : items.zipIdx 0 ≠ [] := by
      have hallows := he.holds
      rw [hnode] at hallows
      simpa using hallows.2
    refine State.grows_of_steps hne hs hsteps fun x hx s s' h hs => ?_
    obtain ⟨hgrows, hlt⟩ := h (hitems _ (List.fst_mem_of_mem_zipIdx hx)) hs
    exact ⟨hgrows.mono (switches_subset (mem_named_numbered label x.2))
      (named_subset (mem_named_numbered label x.2)), hlt⟩

/-! ## Programs -/

theorem mem_named_empty (name : String) : name ∈ named "" := List.nil_prefix

theorem ConstraintsFor.grows (hp : p.arena.WellFormed) {kind ending : String}
    {cs : List Constraint} (h : ConstraintsFor p scope kind ending cs s s') (hs : s.WellFormed) :
    s.Grows (switches "") (named "") s' :=
  .steps hs h fun _ _ _ _ hx hs => (constraint_grows hp hx hs).mono
    (switches_subset (mem_named_empty _)) (named_subset (mem_named_empty _))

theorem DefinitionFor.grows {x row : String} {e : ExprId}
    (h : DefinitionFor p scope x e row s s') (hs : s.WellFormed) (hrow : row ∈ M) :
    s.Grows N M s' := by
  obtain @⟨v, t, s₁, _, hv, ht, rfl⟩ := h
  obtain ⟨hmakes, hz⟩ := State.grows_makes (N := N) (M := M) (C := ∅) hs
    (Terms.yields_var (hs.program.lt_size hv)) fun _ h => h.elim
  obtain ⟨hgrows, ht⟩ := ht.grows (N := N) (M := M) hmakes.wellFormed
  have hz := Nat.lt_of_lt_of_le hz hgrows.terms_size
  refine (hmakes.trans hgrows).trans (State.grows_makesRow (C := {s.made (Terms.var v), t})
    hgrows.wellFormed hrow _ (Terms.yields_sub (.inl rfl) (.inr rfl)) ?_)
  rintro _ (rfl | rfl)
  · exact hz
  · exact ht

theorem StageFor.grows (hp : p.arena.WellFormed) {t : Nat} (h : StageFor p t s s')
    (hs : s.WellFormed) : s.Grows (switches "") (named "") s' := by
  obtain ⟨hinstantaneous, htemporal, htransitions, hreward⟩ := h
  have h₁ := hinstantaneous.grows hp hs
  have h₂ := htemporal.grows hp h₁.wellFormed
  have h₃ := State.Grows.steps h₂.wellFormed htransitions fun _ _ _ _ hx hs =>
    hx.grows (N := switches "") hs (mem_named_empty _)
  exact ((h₁.trans h₂).trans h₃).trans (hreward.grows h₃.wellFormed (mem_named_empty _))

/-- A cut adds rows and switches with its label only. -/
theorem CutFor.grows (hp : p.arena.WellFormed) {horizon : Nat} {c : Cut α × Nat}
    (h : CutFor p horizon c s s') (hs : s.WellFormed) :
    s.Grows (switches (cutLabel c.2 c.1)) (named (cutLabel c.2 c.1)) s' := by
  unfold CutFor at h
  split at h
  · exact constraint_grows hp h hs
  · subst h
    exact .refl hs

theorem RowsFor.grows (hp : p.arena.WellFormed) {horizon : Nat} {cs : List (Cut α)}
    (h : RowsFor p horizon cs s s') (hs : s.WellFormed) :
    s.Grows (switches "") (named "") s' := by
  obtain @⟨s₁, s₂, s₃, _, hinitials, hstages, hgoals, hcuts⟩ := h
  have h₁ := hinitials.grows hp hs
  have h₂ := State.Grows.steps h₁.wellFormed hstages fun _ _ _ _ ht hs => ht.grows hp hs
  have h₃ : s₂.Grows (switches "") (named "") s₃ := by
    split at hgoals
    · exact hgoals.grows hp h₂.wellFormed
    · subst hgoals
      exact .refl h₂.wellFormed
  refine ((h₁.trans h₂).trans h₃).trans (.steps h₃.wellFormed hcuts fun c _ _ _ hc hs => ?_)
  exact (hc.grows hp hs).mono (switches_subset (mem_named_empty _))
    (named_subset (mem_named_empty _))

end Encoding

end HybridPlan
