import HybridPlan.Cut
import HybridPlan.Proofs.Problem

set_option autoImplicit false

/-! # Cuts and their store

A violation becomes a cut unless the store holds a cut with its key. The constraint of a cut is an
expression of the problem, whose arena grows with it. -/

namespace HybridPlan

variable {α : Type} [Scalar α]

/-! ## Keys -/

/-- What the store tells the violation by. -/
def Violation.key (v : Violation α) (mode : OffsetMode) : CutKey :=
  CutKey.of v.stage v.constraint mode (v.anchor mode)

def Cut.key (c : Cut α) : CutKey := CutKey.of c.stage c.constraint c.mode c.anchor

/-- The cut of a violation, made in the arena of a problem. -/
def Violation.cut (v : Violation α) (p : Problem α) (mode : OffsetMode) (iteration : Nat) :
    Cut α where
  stage := v.stage
  constraint := v.constraint
  mode := mode
  offset := v.anchorOffset mode
  duration := v.duration
  expr := ((v.materialize p mode).run p.arena).1
  iteration := iteration

/-- A violation and its cut have the same key, so the store need not look at the cut. -/
theorem Violation.key_cut (v : Violation α) (p : Problem α) (mode : OffsetMode) (i : Nat) :
    (v.cut p mode i).key = v.key mode := by
  cases mode <;> rfl

/-- The violations that become cuts: those without an earlier key. -/
def newViolations (mode : OffsetMode) : List CutKey → List (Violation α) → List (Violation α)
  | _, [] => []
  | keys, v :: vs =>
    if v.key mode ∈ keys then newViolations mode keys vs
    else v :: newViolations mode (keys ++ [v.key mode]) vs

theorem newViolations_eq_nil {mode : OffsetMode} {keys : List CutKey} {vs : List (Violation α)} :
    newViolations mode keys vs = [] ↔ ∀ v ∈ vs, v.key mode ∈ keys := by
  induction vs with
  | nil => simp [newViolations]
  | cons v vs ih =>
    unfold newViolations
    split
    · next h => simp [ih, h]
    · next h => simp [h]

theorem mem_of_mem_newViolations {mode : OffsetMode} {keys : List CutKey} {vs : List (Violation α)}
    {v : Violation α} (h : v ∈ newViolations mode keys vs) : v ∈ vs := by
  induction vs generalizing keys with
  | nil => exact h
  | cons w vs ih =>
    unfold newViolations at h
    split at h
    · exact List.mem_cons_of_mem _ (ih h)
    · rcases List.mem_cons.1 h with rfl | h
      · exact List.mem_cons_self
      · exact List.mem_cons_of_mem _ (ih h)

/-- A violation with a new key becomes a cut, or an earlier one with the same key does. -/
theorem exists_mem_newViolations {mode : OffsetMode} {keys : List CutKey} {vs : List (Violation α)}
    {v : Violation α} (hv : v ∈ vs) (hkey : v.key mode ∉ keys) :
    ∃ w ∈ newViolations mode keys vs, w.key mode = v.key mode := by
  induction vs generalizing keys with
  | nil => cases hv
  | cons w vs ih =>
    unfold newViolations
    rcases List.mem_cons.1 hv with rfl | hv
    · rw [if_neg hkey]
      exact ⟨v, List.mem_cons_self, rfl⟩
    · split
      · exact ih hv hkey
      · by_cases hsame : v.key mode = w.key mode
        · exact ⟨w, List.mem_cons_self, hsame.symm⟩
        · have hkey' : v.key mode ∉ keys ++ [w.key mode] := by simp [hkey, hsame]
          obtain ⟨u, hu, hukey⟩ := ih hv hkey'
          exact ⟨u, List.mem_cons_of_mem _ hu, hukey⟩

/-- Keys that are pairwise distinct stay so with those of the violations that become cuts. -/
theorem nodup_append_newViolations {mode : OffsetMode} {keys : List CutKey} (hkeys : keys.Nodup)
    (vs : List (Violation α)) :
    (keys ++ (newViolations mode keys vs).map (·.key mode)).Nodup := by
  induction vs generalizing keys with
  | nil => simpa [newViolations] using hkeys
  | cons v vs ih =>
    unfold newViolations
    split
    · exact ih hkeys
    · next hv =>
      have hv' : (keys ++ [v.key mode]).Nodup :=
        List.nodup_append.2 ⟨hkeys, List.pairwise_singleton _ _, fun k hk k' hk' hkk => by
          rw [List.mem_singleton.1 hk'] at hkk
          exact hv (hkk ▸ hk)⟩
      simpa using ih hv'

/-! ## The store -/

namespace CutStore

/-- The keys of the stored cuts. -/
def cutKeys (s : CutStore α) : List CutKey := s.items.toList.map Cut.key

/-- The set of keys holds the keys of the stored cuts. -/
def Consistent (s : CutStore α) : Prop := ∀ k, s.keys.contains k ↔ k ∈ s.cutKeys

theorem consistent_empty : Consistent ({} : CutStore α) := by
  intro k
  simp [cutKeys]

variable (s : CutStore α) (p : Problem α) {v : Violation α} {mode : OffsetMode} (i : Nat)

theorem insert_of_stored {c : Cut α} (h : s.keys.contains c.key) : s.insert c = (false, s) :=
  if_pos h

/-- A cut with a new key comes last. -/
theorem insert_of_new {c : Cut α} (h : ¬s.keys.contains c.key) :
    s.insert c = (true, ⟨s.items.push c, s.keys.insert c.key⟩) :=
  if_neg h

theorem add_of_stored (h : s.keys.contains (v.key mode)) : s.add p v mode i = (false, s, p) :=
  if_pos h

/-- The cut of a violation with a new key comes last. -/
theorem add_of_new (h : ¬s.keys.contains (v.key mode)) :
    s.add p v mode i = (true, ⟨s.items.push (v.cut p mode i), s.keys.insert (v.key mode)⟩,
      p.withArena ((v.materialize p mode).run p.arena).2) := by
  have hinsert : s.insert (v.cut p mode i) =
      (true, ⟨s.items.push (v.cut p mode i), s.keys.insert (v.key mode)⟩) := by
    rw [← v.key_cut p mode i] at h ⊢
    exact s.insert_of_new h
  refine (if_neg h).trans ?_
  exact congrArg (fun r => (r.1, r.2, p.withArena ((v.materialize p mode).run p.arena).2)) hinsert

variable {s}

theorem cutKeys_push (c : Cut α) (keys : Std.HashSet CutKey) :
    cutKeys ⟨s.items.push c, keys⟩ = s.cutKeys ++ [c.key] := by
  simp [cutKeys]

theorem Consistent.push (hs : s.Consistent) (c : Cut α) :
    Consistent ⟨s.items.push c, s.keys.insert c.key⟩ := by
  intro k
  rw [cutKeys_push, Std.HashSet.contains_insert, List.mem_append, List.mem_singleton,
    Bool.or_eq_true, hs k, beq_iff_eq]
  constructor
  · rintro (h | h)
    · exact .inr h.symm
    · exact .inl h
  · rintro (h | h)
    · exact .inr h
    · exact .inl h.symm

theorem Consistent.push_cut (hs : s.Consistent) (v : Violation α) (mode : OffsetMode) :
    Consistent ⟨s.items.push (v.cut p mode i), s.keys.insert (v.key mode)⟩ := by
  rw [← v.key_cut p mode i]
  exact hs.push _

end CutStore

/-! ## Constraints of cuts -/

open Build

section

variable {V : Vocabulary α} (hV : V.Closed) {C : Set ExprId} (v : Violation α) {mode : OffsetMode}
  (hoffset : V.literal v.offset) (hfraction : V.literal v.anchorFraction)
include hV hoffset hfraction

theorem Violation.yields_anchorExpr {dt : String} (hdt : V.symbol dt) :
    Build.Yields V C (v.anchorExpr dt mode) ({·}) := by
  cases mode with
  | absolute => exact yields_num hV hoffset
  | relative =>
    refine .bind (yields_num hV hfraction) fun fraction => ?_
    exact .bind (yields_sym hdt) fun duration => yields_mul hV (.inr (.inl rfl)) (.inl rfl)

theorem Violation.yields_materialize {p : Problem α} (hdt : V.symbol p.domain.dt)
    (htemporal : ∀ e ∈ p.temporal, e ∈ C) : Build.Yields V C (v.materialize p mode) ({·}) := by
  refine .bind (v.yields_anchorExpr hV hoffset hfraction hdt) fun anchor => ?_
  split
  · next e he =>
    refine yields_substitute hV (fun s x h => ?_) (.inr (htemporal e (List.mem_of_getElem? he)))
    obtain ⟨rfl, rfl⟩ : s = p.domain.dt ∧ x = anchor := by simpa using mem_of_ofList h
    exact .inl rfl
  · exact yields_zero hV

end

namespace CutStore

/-- The stored constraints are expressions of a problem. -/
def Within (s : CutStore α) (p : Problem α) : Prop :=
  ∀ c ∈ s.items.toList, p.arena.Uses (.all α) c.expr

theorem within_empty (p : Problem α) : Within {} p := fun _ h => absurd h List.not_mem_nil

/-- A generated constraint is one of the problem that has grown with it. -/
theorem within_add {s : CutStore α} {p : Problem α} (hp : p.MadeOf (.all α)) (hs : s.Within p)
    (v : Violation α) (mode : OffsetMode) (iteration : Nat) :
    p.Grows (s.add p v mode iteration).2.2 ∧
      (s.add p v mode iteration).2.1.Within (s.add p v mode iteration).2.2 := by
  by_cases h : s.keys.contains (v.key mode)
  · rw [s.add_of_stored p iteration h]
    exact ⟨.refl p, hs⟩
  · rw [s.add_of_new p iteration h]
    have hyields : Build.Yields (.all α) {x | p.arena.Uses (.all α) x} (v.materialize p mode)
        ({·}) :=
      v.yields_materialize Vocabulary.closed_all trivial trivial trivial hp.temporal
    obtain ⟨ha, hle, huses⟩ := hyields p.arena hp.domain.arena fun x hx => hx
    refine ⟨⟨_, rfl, hle, fun _ => ha⟩, fun c hc => ?_⟩
    rw [Array.toList_push, List.mem_append, List.mem_singleton] at hc
    rcases hc with hc | rfl
    · exact (hs c hc).mono hle
    · exact huses _ rfl

/-- The store that violations fill, with the problem that grows with it. -/
def fill (p : Problem α) (vs : List (Violation α × OffsetMode × Nat)) : CutStore α × Problem α :=
  vs.foldl (fun r v => (r.1.add r.2 v.1 v.2.1 v.2.2).2) ({}, p)

/-- What holds of the empty store and goes on to hold with each violation holds in the end. -/
theorem fill_induction {Q : CutStore α → Problem α → Prop} {p : Problem α}
    {vs : List (Violation α × OffsetMode × Nat)} (hempty : Q {} p)
    (hadd : ∀ v ∈ vs, ∀ s q, Q s q →
      Q (s.add q v.1 v.2.1 v.2.2).2.1 (s.add q v.1 v.2.1 v.2.2).2.2) :
    Q (fill p vs).1 (fill p vs).2 := by
  unfold fill
  generalize ({} : CutStore α) = s at hempty
  induction vs generalizing s p with
  | nil => exact hempty
  | cons v vs ih =>
    exact ih (fun w hw => hadd w (List.mem_cons_of_mem _ hw)) _
      (hadd v List.mem_cons_self s p hempty)

theorem fill_grows {p : Problem α} (hp : p.MadeOf (.all α))
    (vs : List (Violation α × OffsetMode × Nat)) :
    p.Grows (fill p vs).2 ∧ (fill p vs).1.Within (fill p vs).2 := by
  refine fill_induction (Q := fun s q => p.Grows q ∧ s.Within q) ⟨.refl p, within_empty p⟩ ?_
  rintro v - s q ⟨hpq, hs⟩
  obtain ⟨hgrows, hwithin⟩ := within_add (hp.grows hpq) hs v.1 v.2.1 v.2.2
  exact ⟨hpq.trans hgrows, hwithin⟩

end CutStore

end HybridPlan
