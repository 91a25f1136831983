import Mathlib.Data.List.Forall2

set_option autoImplicit false

/-! # Computations that succeed

A computation with errors succeeds if all of its steps do. -/

namespace HybridPlan

variable {ε ι κ : Type}

theorem Except.bind_eq_ok {m : Except ε ι} {f : ι → Except ε κ} {k : κ} :
    m >>= f = .ok k ↔ ∃ i, m = .ok i ∧ f i = .ok k := by
  cases m with
  | error e => simp [bind, Except.bind]
  | ok i => simp [bind, Except.bind]

/-- A computation fails at its first step or at a later one. -/
theorem Except.bind_eq_error {m : Except ε ι} {f : ι → Except ε κ} {e : ε} :
    m >>= f = .error e ↔ m = .error e ∨ ∃ i, m = .ok i ∧ f i = .error e := by
  cases m with
  | error e' => simp [bind, Except.bind]
  | ok i => simp [bind, Except.bind]

/-- A list of computations gives the list of their results. -/
theorem Except.mapM_eq_ok {f : ι → Except ε κ} {l : List ι} {ks : List κ} :
    l.mapM f = .ok ks ↔ List.Forall₂ (fun i k => f i = .ok k) l ks := by
  induction l generalizing ks with
  | nil =>
    rw [List.mapM_nil, List.forall₂_nil_left_iff]
    exact ⟨fun h => (Except.ok.inj h).symm, fun h => h ▸ rfl⟩
  | cons i l ih =>
    rw [List.mapM_cons, List.forall₂_cons_left_iff, Except.bind_eq_ok]
    constructor
    · rintro ⟨k, hk, h⟩
      obtain ⟨rest, hrest, h⟩ := Except.bind_eq_ok.1 h
      exact ⟨k, rest, hk, ih.1 hrest, (Except.ok.inj h).symm⟩
    · rintro ⟨k, rest, hk, hrest, rfl⟩
      exact ⟨k, hk, Except.bind_eq_ok.2 ⟨rest, ih.2 hrest, rfl⟩⟩

/-- A list of computations fails at the first item that fails. -/
theorem Except.exists_of_mapM_eq_error {f : ι → Except ε κ} {l : List ι} {e : ε} (h : l.mapM f = .error e) :
    ∃ front i back, l = front ++ i :: back ∧ (∀ j ∈ front, ∃ k, f j = .ok k) ∧ f i = .error e := by
  induction l with
  | nil => cases h
  | cons i l ih =>
    rw [List.mapM_cons] at h
    rcases Except.bind_eq_error.1 h with h | ⟨k, hk, h⟩
    · exact ⟨[], i, l, rfl, fun _ hj => absurd hj List.not_mem_nil, h⟩
    · rcases Except.bind_eq_error.1 h with h | ⟨ks, -, h⟩
      · obtain ⟨front, j, back, rfl, hfront, hj⟩ := ih h
        exact ⟨i :: front, j, back, rfl, List.forall_mem_cons.2 ⟨⟨k, hk⟩, hfront⟩, hj⟩
      · cases h

/-- In related lists every item on the right has its partner on the left. -/
theorem exists_of_forall₂ {R : ι → κ → Prop} {l : List ι} {ks : List κ} (h : List.Forall₂ R l ks)
    {k : κ} (hk : k ∈ ks) : ∃ i ∈ l, R i k := by
  induction h with
  | nil => exact absurd hk List.not_mem_nil
  | cons hi _ ih =>
    rcases List.mem_cons.1 hk with rfl | hk
    · exact ⟨_, List.mem_cons_self, hi⟩
    · obtain ⟨i, hl, hi⟩ := ih hk
      exact ⟨i, List.mem_cons_of_mem _ hl, hi⟩

/-- Functions that agree on related elements give the same list. -/
theorem map_eq_of_forall₂ {ν : Type} {R : ι → κ → Prop} {f : ι → ν} {g : κ → ν} {l : List ι}
    {ks : List κ} (h : List.Forall₂ R l ks) (hfg : ∀ i ∈ l, ∀ k ∈ ks, R i k → f i = g k) :
    l.map f = ks.map g := by
  induction h with
  | nil => rfl
  | @cons i k l ks hi _ ih =>
    rw [List.map_cons, List.map_cons, hfg i List.mem_cons_self k List.mem_cons_self hi,
      ih fun i hi k hk => hfg i (List.mem_cons_of_mem _ hi) k (List.mem_cons_of_mem _ hk)]

theorem Except.exists_of_mem_mapM {f : ι → Except ε κ} {l : List ι} {ks : List κ}
    (h : l.mapM f = .ok ks) {k : κ} (hk : k ∈ ks) : ∃ i ∈ l, f i = .ok k :=
  exists_of_forall₂ (Except.mapM_eq_ok.1 h) hk

theorem Except.forM_eq_ok {f : ι → Except ε Unit} {l : List ι} :
    l.forM f = .ok () ↔ ∀ i ∈ l, f i = .ok () := by
  induction l with
  | nil => simp [pure, Except.pure]
  | cons i l ih =>
    change (f i >>= fun _ => l.forM f) = .ok () ↔ _
    rw [Except.bind_eq_ok, List.forall_mem_cons]
    exact ⟨fun ⟨_, hi, hl⟩ => ⟨hi, ih.1 hl⟩, fun ⟨hi, hl⟩ => ⟨(), hi, ih.2 hl⟩⟩

/-- A check that passes for a list passes for related items, if it passes from each item to the related
one. -/
theorem Except.forM_of_forall₂ {ι' ε' : Type} {R : ι → ι' → Prop} {f : ι → Except ε Unit}
    {g : ι' → Except ε' Unit} {l : List ι} {l' : List ι'} (h : List.Forall₂ R l l')
    (hfg : ∀ i i', R i i' → f i = .ok () → g i' = .ok ()) (hf : l.forM f = .ok ()) : l'.forM g = .ok () :=
  Except.forM_eq_ok.2 fun i' hi' => by
    obtain ⟨i, hi, hrelated⟩ := exists_of_forall₂ h hi'
    exact hfg i i' hrelated (Except.forM_eq_ok.1 hf i hi)

/-- Computations that succeed item by item succeed for a list, and what relates their results to something
else relates the lists. -/
theorem Except.exists_mapM {ν : Type} {R : ν → ι → Prop} {S : ν → κ → Prop} {f : ι → Except ε κ} {ns : List ν}
    {l : List ι} (h : List.Forall₂ R ns l) (hf : ∀ n i, R n i → ∃ k, f i = .ok k ∧ S n k) :
    ∃ ks, l.mapM f = .ok ks ∧ List.Forall₂ S ns ks := by
  simp only [Except.mapM_eq_ok]
  induction h with
  | nil => exact ⟨[], .nil, .nil⟩
  | cons hi _ ih =>
    obtain ⟨k, hk, hrelated⟩ := hf _ _ hi
    obtain ⟨ks, hks, hrest⟩ := ih
    exact ⟨k :: ks, .cons hk hks, .cons hrelated hrest⟩

/-- Computations that succeed for a list succeed for related items. -/
theorem Except.mapM_of_forall₂ {ι' κ' ε' : Type} {R : ι → ι' → Prop} {S : κ → κ' → Prop}
    {f : ι → Except ε κ} {g : ι' → Except ε' κ'} {l : List ι} {l' : List ι'} {ks : List κ}
    (h : List.Forall₂ R l l')
    (hfg : ∀ i i' k, R i i' → f i = .ok k → ∃ k', g i' = .ok k' ∧ S k k') (hf : l.mapM f = .ok ks) :
    ∃ ks', l'.mapM g = .ok ks' ∧ List.Forall₂ S ks ks' := by
  have hboth : List.Forall₂ (fun k i' => ∃ i, f i = .ok k ∧ R i i') ks l' := by
    have hresults := Except.mapM_eq_ok.1 hf
    clear hf
    induction h generalizing ks with
    | nil =>
      cases hresults
      exact .nil
    | cons hi _ ih =>
      cases hresults with
      | cons hk hks => exact .cons ⟨_, hk, hi⟩ (ih hks)
  refine Except.exists_mapM hboth fun k i' => ?_
  rintro ⟨i, hk, hi⟩
  exact hfg i i' k hi hk

/-- What every step of a fold preserves holds at its end. -/
theorem Except.foldlM_invariant {f : κ → ι → Except ε κ} {P : κ → Prop} {l : List ι} {k k' : κ}
    (h : l.foldlM f k = .ok k') (hk : P k) (hf : ∀ k, ∀ i ∈ l, ∀ k', P k → f k i = .ok k' → P k') :
    P k' := by
  induction l generalizing k with
  | nil =>
    cases h
    exact hk
  | cons i l ih =>
    rw [List.foldlM_cons] at h
    obtain ⟨k₁, hstep, h⟩ := Except.bind_eq_ok.1 h
    exact ih h (hf k i List.mem_cons_self k₁ hk hstep) fun k j hj => hf k j (List.mem_cons_of_mem _ hj)

/-- What a step makes of the items before it and of its own holds at the end of a fold for all items. -/
theorem Except.foldlM_prefix {f : κ → ι → Except ε κ} {P : List ι → κ → Prop} {l done : List ι} {k k' : κ}
    (h : l.foldlM f k = .ok k') (hk : P done k)
    (hf : ∀ done i k k', P done k → f k i = .ok k' → P (done ++ [i]) k') : P (done ++ l) k' := by
  induction l generalizing done k with
  | nil =>
    cases h
    rwa [List.append_nil]
  | cons i l ih =>
    rw [List.foldlM_cons] at h
    obtain ⟨k₁, hstep, h⟩ := Except.bind_eq_ok.1 h
    rw [List.append_cons done i l]
    exact ih h (hf done i k k₁ hk hstep)

theorem Except.mapError_eq_ok {ε' : Type} {f : ε → ε'} {m : Except ε ι} {i : ι} :
    m.mapError f = .ok i ↔ m = .ok i := by
  cases m with
  | error e => simp [Except.mapError]
  | ok j => simp [Except.mapError]

end HybridPlan
