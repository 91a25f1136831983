import HybridPlan.Proofs.Cut

set_option autoImplicit false

/-! # Calls of a store

A store is changed in three ways: the cut of a violation is added, a cut is inserted, and all cuts are
forgotten. Whatever is done, in whatever order, the set of keys is that of the stored cuts, and no two of
them have the same key. So a call can tell from the set alone whether its cut is new. -/

namespace HybridPlan

variable {α : Type} [Scalar α]

/-- A call that changes a store. -/
inductive StoreCall (α : Type) [Scalar α] where
  | add (p : Problem α) (v : Violation α) (mode : OffsetMode) (iteration : Nat)
  | insert (c : Cut α)
  | clear

/-- The store after a call. -/
def StoreCall.apply (s : CutStore α) : StoreCall α → CutStore α
  | add p v mode iteration => (s.add p v mode iteration).2.1
  | insert c => (s.insert c).2
  | clear => {}

namespace CutStore

/-- The store that calls leave, one after the other. -/
def after (calls : List (StoreCall α)) : CutStore α := calls.foldl StoreCall.apply {}

/-! ## What calls keep -/

/-- The set of keys is that of the stored cuts, which have different keys. -/
structure Distinct (s : CutStore α) : Prop where
  consistent : s.Consistent
  nodup : s.cutKeys.Nodup

theorem distinct_empty : Distinct ({} : CutStore α) := ⟨consistent_empty, List.nodup_nil⟩

namespace Distinct

variable {s : CutStore α} (hs : s.Distinct)
include hs

theorem push {c : Cut α} (hc : ¬s.keys.contains c.key) :
    Distinct ⟨s.items.push c, s.keys.insert c.key⟩ where
  consistent := hs.consistent.push c
  nodup := by
    rw [cutKeys_push, List.nodup_append]
    refine ⟨hs.nodup, List.pairwise_singleton _ _, fun k hk k' hk' hkk => ?_⟩
    rw [List.mem_singleton.1 hk'] at hkk
    exact hc ((hs.consistent _).2 (hkk ▸ hk))

theorem insert (c : Cut α) : (s.insert c).2.Distinct := by
  by_cases hc : s.keys.contains c.key
  · rw [s.insert_of_stored hc]
    exact hs
  · rw [s.insert_of_new hc]
    exact hs.push hc

theorem add (p : Problem α) (v : Violation α) (mode : OffsetMode) (i : Nat) :
    (s.add p v mode i).2.1.Distinct := by
  by_cases hv : s.keys.contains (v.key mode)
  · rw [s.add_of_stored p i hv]
    exact hs
  · rw [s.add_of_new p i hv]
    rw [← v.key_cut p mode i] at hv ⊢
    exact hs.push hv

theorem apply (call : StoreCall α) : (StoreCall.apply s call).Distinct := by
  cases call with
  | add p v mode i => exact hs.add p v mode i
  | insert c => exact hs.insert c
  | clear => exact distinct_empty

end Distinct

theorem distinct_after (calls : List (StoreCall α)) : (after calls).Distinct :=
  List.foldlRecOn calls StoreCall.apply distinct_empty fun _ hs call _ => hs.apply call

/-! ## What calls answer -/

theorem insert_answer (s : CutStore α) (c : Cut α) : (s.insert c).1 = !s.keys.contains c.key := by
  by_cases hc : s.keys.contains c.key
  · rw [s.insert_of_stored hc, hc]
    rfl
  · rw [s.insert_of_new hc, Bool.eq_false_iff.2 hc]
    rfl

theorem add_answer (s : CutStore α) (p : Problem α) (v : Violation α) (mode : OffsetMode) (i : Nat) :
    (s.add p v mode i).1 = !s.keys.contains (v.key mode) := by
  by_cases hv : s.keys.contains (v.key mode)
  · rw [s.add_of_stored p i hv, hv]
    rfl
  · rw [s.add_of_new p i hv, Bool.eq_false_iff.2 hv]
    rfl

namespace Distinct

variable {s : CutStore α} (hs : s.Distinct) {k : CutKey}
include hs

theorem contains_iff : s.keys.contains k = true ↔ ∃ c ∈ s.items.toList, c.key = k :=
  (hs.consistent k).trans List.mem_map

theorem not_contains_iff : (!s.keys.contains k) = true ↔ ∀ c ∈ s.items.toList, c.key ≠ k := by
  rw [Bool.not_eq_true', Bool.eq_false_iff, Ne, hs.contains_iff]
  simp

end Distinct

/-- The answer of a call tells whether the store has got a cut behind those that it had; if it has not,
these are all that it has. -/
def Appends (s : CutStore α) (isNew : Bool) (s' : CutStore α) (c : Cut α) : Prop :=
  s'.items.toList = s.items.toList ++ if isNew then [c] else []

theorem appends_insert (s : CutStore α) (c : Cut α) :
    s.Appends (s.insert c).1 (s.insert c).2 c := by
  unfold Appends
  rw [items_insert]
  cases (s.insert c).1 with
  | false => simp
  | true => simp

theorem appends_add (s : CutStore α) (p : Problem α) (v : Violation α) (mode : OffsetMode) (i : Nat) :
    s.Appends (s.add p v mode i).1 (s.add p v mode i).2.1 (v.cut p mode i) := by
  by_cases hv : s.keys.contains (v.key mode)
  · rw [s.add_of_stored p i hv]
    simp [Appends]
  · rw [s.add_of_new p i hv]
    simp [Appends]

/-- A refused violation leaves everything as it was, the arena of the problem included. -/
theorem add_eq_of_refused {s : CutStore α} {p : Problem α} {v : Violation α} {mode : OffsetMode}
    {i : Nat} (h : (s.add p v mode i).1 = false) : s.add p v mode i = (false, s, p) := by
  by_cases hv : s.keys.contains (v.key mode)
  · exact s.add_of_stored p i hv
  · rw [s.add_of_new p i hv] at h
    cases h

/-- After any calls, the set of keys is exactly that of the stored cuts, which have pairwise different
keys. The next call stores its cut, behind all others, if and only if no stored cut has its key, and
says so; a violation and its cut have the same key. A refused violation leaves the store and the problem
as they were. -/
theorem after_keys_exact (calls : List (StoreCall α)) :
    (∀ k, (after calls).keys.contains k = true ↔ ∃ c ∈ (after calls).items.toList, c.key = k) ∧
      (after calls).items.toList.Pairwise (fun c d => c.key ≠ d.key) ∧
      (∀ c, ((after calls).Appends ((after calls).insert c).1 ((after calls).insert c).2 c) ∧
        (((after calls).insert c).1 = true ↔
          ∀ d ∈ (after calls).items.toList, d.key ≠ c.key)) ∧
      ∀ p v mode i,
        (after calls).Appends ((after calls).add p v mode i).1 ((after calls).add p v mode i).2.1
            (v.cut p mode i) ∧
          (v.cut p mode i).key = v.key mode ∧
          (((after calls).add p v mode i).1 = true ↔
            ∀ d ∈ (after calls).items.toList, d.key ≠ v.key mode) ∧
          (((after calls).add p v mode i).1 = false →
            (after calls).add p v mode i = (false, after calls, p)) := by
  have hdistinct := distinct_after calls
  refine ⟨fun k => hdistinct.contains_iff, List.pairwise_map.1 hdistinct.nodup, fun c => ?_,
    fun p v mode i => ?_⟩
  · refine ⟨appends_insert _ c, ?_⟩
    rw [insert_answer]
    exact hdistinct.not_contains_iff
  · refine ⟨appends_add _ p v mode i, v.key_cut p mode i, ?_, add_eq_of_refused⟩
    rw [add_answer]
    exact hdistinct.not_contains_iff

end CutStore

end HybridPlan
