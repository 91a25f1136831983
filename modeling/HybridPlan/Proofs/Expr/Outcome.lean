import HybridPlan.Proofs.Expr.Vocabulary

set_option autoImplicit false

/-! # What constructions lead to

From a well-formed arena a construction leads to a larger well-formed arena. What holds of its result
there is put together from what holds of the results of its steps. -/

namespace HybridPlan.Build

/-- From a well-formed arena the construction leads to a larger well-formed arena, and this holds of
its result there. -/
structure Leads {α ι : Type} [Scalar α] (m : Build α ι) (a : Arena α) (Q : Arena α → ι → Prop) :
    Prop where
  wellFormed : (m.run a).2.WellFormed
  le : a ≤ (m.run a).2
  holds : Q (m.run a).2 (m.run a).1

namespace Leads

variable {α ι κ : Type} [Scalar α] {m : Build α ι} {f : ι → Build α κ} {a : Arena α}
  {P P' : Arena α → ι → Prop} {Q : Arena α → κ → Prop}

theorem of_run (h : Leads m a P) {b : Arena α} {i : ι} (hrun : m.run a = (i, b)) :
    b.WellFormed ∧ a ≤ b ∧ P b i := by
  obtain ⟨hb, hab, hi⟩ := h
  rw [hrun] at hb hab hi
  exact ⟨hb, hab, hi⟩

theorem pure {i : ι} (ha : a.WellFormed) (h : P a i) : Leads (Pure.pure i) a P :=
  ⟨ha, le_refl a, h⟩

theorem bind (hm : Leads m a P)
    (hf : ∀ i b, b.WellFormed → a ≤ b → P b i → Leads (f i) b Q) : Leads (m >>= f) a Q := by
  have hrest := hf _ _ hm.wellFormed hm.le hm.holds
  exact ⟨hrest.wellFormed, le_trans hm.le hrest.le, hrest.holds⟩

theorem get {f : Arena α → Build α κ} (h : Leads (f a) a Q) :
    Leads (MonadState.get >>= f) a Q :=
  ⟨h.wellFormed, h.le, h.holds⟩

/-- A construction leads to what another one does that does the same in the arena. -/
theorem congr {m' : Build α ι} (hrun : m.run a = m'.run a) (h : Leads m' a P) : Leads m a P := by
  refine ⟨?_, ?_, ?_⟩ <;> rw [hrun]
  · exact h.wellFormed
  · exact h.le
  · exact h.holds

theorem imp (h : Leads m a P) (hP : ∀ b i, P b i → P' b i) : Leads m a P' :=
  ⟨h.wellFormed, h.le, hP _ _ h.holds⟩

theorem and (h : Leads m a P) (h' : Leads m a P') : Leads m a fun b i => P b i ∧ P' b i :=
  ⟨h.wellFormed, h.le, h.holds, h'.holds⟩

/-- A new node refers to what is in the arena. -/
theorem intern {n : Node α} {origin : Option (String × Span)} {R : Arena α → ExprId → Prop}
    (ha : a.WellFormed) (hn : ∀ x ∈ n.operands, x < a.size)
    (h : ∀ b e, a ≤ b → b.table.items[e]? = some n → R b e) :
    Leads (Build.intern n origin) a R :=
  ⟨wellFormed_intern n origin ha hn, le_intern a n origin,
    h _ _ (le_intern a n origin) (getElem?_intern n origin ha)⟩

/-- What holds of the result for each item holds of all results. -/
theorem mapM {f : ι → Build α κ} {R : Arena α → κ → Prop}
    (hmono : ∀ {b c k}, b ≤ c → R b k → R c k) {l : List ι} (ha : a.WellFormed)
    (hf : ∀ i ∈ l, ∀ b, b.WellFormed → a ≤ b → Leads (f i) b R) :
    Leads (l.mapM f) a fun b ks => ∀ k ∈ ks, R b k := by
  induction l generalizing a with
  | nil =>
    rw [List.mapM_nil]
    exact pure ha fun k hk => absurd hk List.not_mem_nil
  | cons i l ih =>
    rw [List.mapM_cons]
    refine bind (hf i List.mem_cons_self a ha (le_refl a)) fun k b hb hab hk => ?_
    refine bind (ih hb fun i hi c hc hbc =>
      hf i (List.mem_cons_of_mem _ hi) c hc (le_trans hab hbc)) fun ks c hc hbc hks => ?_
    refine pure hc fun k' hk' => ?_
    rcases List.mem_cons.1 hk' with rfl | hk'
    · exact hmono hbc hk
    · exact hks k' hk'

end Leads

/-- What a construction yields from expressions of the arena, it leads to. -/
theorem Yields.leads {α : Type} [Scalar α] {V : Vocabulary α} {a : Arena α} {C : Set ExprId}
    {m : Build α ExprId} (h : Yields V C m ({·})) (ha : a.WellFormed) (hC : ∀ x ∈ C, a.Uses V x) :
    Leads m a fun b e => b.Uses V e := by
  obtain ⟨hb, hab, huses⟩ := h a ha hC
  exact ⟨hb, hab, huses _ rfl⟩

/-- From a well-formed arena the attempt succeeds and leads to a larger well-formed arena, and this
holds of its result there. -/
def Attempt.Leads {α ε ι : Type} [Scalar α] (m : Attempt α ε ι) (a : Arena α)
    (Q : Arena α → ι → Prop) : Prop :=
  ∃ i b, m.run.run a = (.ok i, b) ∧ b.WellFormed ∧ a ≤ b ∧ Q b i

namespace Attempt.Leads

variable {α ε ι κ : Type} [Scalar α] {m : Attempt α ε ι} {f : ι → Attempt α ε κ} {a b : Arena α}
  {P : Arena α → ι → Prop} {Q : Arena α → κ → Prop}

theorem pure {i : ι} (ha : a.WellFormed) (h : P a i) : Leads (Pure.pure i : Attempt α ε ι) a P :=
  ⟨i, a, rfl, ha, le_refl a, h⟩

theorem bind (hm : m.Leads a P)
    (hf : ∀ i b, b.WellFormed → a ≤ b → P b i → (f i).Leads b Q) : (m >>= f).Leads a Q := by
  obtain ⟨i, b, hrun, hb, hab, hi⟩ := hm
  obtain ⟨k, c, hrun', hc, hbc, hk⟩ := hf i b hb hab hi
  exact ⟨k, c, run_bind_eq_ok.2 ⟨i, b, hrun, hrun'⟩, hc, le_trans hab hbc, hk⟩

theorem lift {m : Build α ι} (h : Build.Leads m a P) : Leads (m : Attempt α ε ι) a P :=
  ⟨_, _, rfl, h.wellFormed, h.le, h.holds⟩

/-- An attempt without errors does what a construction does. -/
theorem of_build {t : Build α ι} (hm : m.run.run a = (t >>= fun i => Pure.pure (.ok i)).run a)
    (h : Build.Leads t a P) : m.Leads a P :=
  ⟨_, _, hm, h.wellFormed, h.le, h.holds⟩

/-- An attempt that leaves the arena as it is. -/
theorem of_run_eq {i : ι} (ha : a.WellFormed) (h : m.run.run a = (.ok i, a)) :
    m.Leads a fun b j => b = a ∧ j = i :=
  ⟨i, a, h, ha, le_refl a, rfl, rfl⟩

theorem imp {P' : Arena α → ι → Prop} (hm : m.Leads a P)
    (h : ∀ b i, b.WellFormed → P b i → P' b i) : m.Leads a P' := by
  obtain ⟨i, b, hrun, hb, hab, hi⟩ := hm
  exact ⟨i, b, hrun, hb, hab, h b i hb hi⟩

theorem adapt {ε' : Type} {g : ε → ε'} (hm : m.Leads a P) :
    Leads (ExceptT.adapt g m : Attempt α ε' ι) a P := by
  obtain ⟨i, b, hrun, hb⟩ := hm
  exact ⟨i, b, run_adapt_eq_ok.2 hrun, hb⟩

/-- The arena may be looked at. -/
theorem look {f : Arena α → Attempt α ε κ} (h : (f a).Leads a Q) :
    Leads (getThe (Arena α) >>= f) a Q :=
  h

/-- What an attempt leads to is where it ends. -/
theorem of_run (hm : m.Leads a P) {i : ι} (h : m.run.run a = (.ok i, b)) :
    b.WellFormed ∧ a ≤ b ∧ P b i := by
  obtain ⟨j, c, hrun, hc, hac, hj⟩ := hm
  rw [h] at hrun
  cases hrun
  exact ⟨hc, hac, hj⟩

theorem mapM {f : ι → Attempt α ε κ} {R : ι → Arena α → κ → Prop}
    (hmono : ∀ i b c k, b ≤ c → R i b k → R i c k) {l : List ι} (ha : a.WellFormed)
    (hf : ∀ i ∈ l, ∀ b, b.WellFormed → a ≤ b → (f i).Leads b (R i)) :
    Leads (l.mapM f) a fun b ks => List.Forall₂ (fun i k => R i b k) l ks := by
  induction l generalizing a with
  | nil =>
    rw [List.mapM_nil]
    exact pure ha .nil
  | cons i l ih =>
    rw [List.mapM_cons]
    refine bind (hf i List.mem_cons_self a ha (le_refl a)) fun k b hb hab hk => ?_
    refine bind (ih hb fun i hi c hc hbc =>
      hf i (List.mem_cons_of_mem _ hi) c hc (le_trans hab hbc)) fun ks c hc hbc hks => ?_
    exact pure hc (.cons (hmono i b c k hbc hk) hks)

end Attempt.Leads

end HybridPlan.Build
