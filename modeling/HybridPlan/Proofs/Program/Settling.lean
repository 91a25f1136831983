import HybridPlan.Proofs.Program.Term
import Mathlib.Data.List.Basic

set_option autoImplicit false

/-! # Terms that are made again

A term that is made once more is found: its constructor gives the same number again, and adds nothing, as
long as terms are only added in between. -/

namespace HybridPlan.Terms

variable {α : Type} [Scalar α] {ι κ : Type} {ts us : Terms α} {t u : TermId}

/-- Run again, on this or a larger table, the construction gives the same result and adds nothing. -/
structure Make.Settles (m : Make α ι) (ts : Terms α) : Prop where
  table : Interner.WellFormed (m.run ts).2
  le : ts ≤ (m.run ts).2
  again : ∀ us : Terms α, Interner.WellFormed us → (m.run ts).2 ≤ us → m.run us = ((m.run ts).1, us)

namespace Make.Settles

variable {m : Make α ι} {f : ι → Make α κ}

theorem pure (h : Interner.WellFormed ts) (i : ι) : Settles (Pure.pure i : Make α ι) ts where
  table := h
  le := le_refl ts
  again _ _ _ := rfl

theorem bind (hm : m.Settles ts) (hf : (f (m.run ts).1).Settles (m.run ts).2) : Settles (m >>= f) ts where
  table := hf.table
  le := le_trans hm.le hf.le
  again us hus hle := by
    have hfirst := hm.again us hus (le_trans hf.le hle)
    have hsecond := hf.again us hus hle
    change (f (m.run us).1).run (m.run us).2 = _
    rw [hfirst]
    exact hsecond

/-- What a construction reads of the table is the same in larger tables. -/
theorem look {f : Terms α → Make α ι} (hf : ∀ us, ts ≤ us → f us = f ts) (h : (f ts).Settles ts) :
    Settles (get >>= f) ts where
  table := h.table
  le := h.le
  again us hus hle := by
    change (f us).run us = _
    rw [hf us (le_trans h.le hle)]
    exact h.again us hus hle

end Make.Settles

/-! ## Constructors -/

theorem settles_intern (h : Interner.WellFormed ts) (m : TermNode α) : (intern m).Settles ts where
  table := h.intern m
  le := Interner.le_intern ts m
  again us hus hle := by
    have hfound : us.index[m]? = some (Interner.intern ts m).1 :=
      (hus m _).2 (Interner.getElem?_mono hle (h.getElem?_intern m))
    change Interner.intern us m = ((Interner.intern ts m).1, us)
    rw [Interner.intern, hfound]

theorem settles_const (h : Interner.WellFormed ts) (c : α) : (const c).Settles ts := settles_intern h _

theorem settles_var (h : Interner.WellFormed ts) (v : VarId) : (var (α := α) v).Settles ts := settles_intern h _

theorem const?_mono (h : ts ≤ us) (ht : t < ts.size) : const? us t = const? ts t := by
  rw [const?, const?, node_mono h ht]

theorem flatItems_mono {items : List TermId} (h : ts ≤ us) (hitems : ∀ t ∈ items, t < ts.size) :
    us.flatItems items = ts.flatItems items := by
  refine List.flatMap_congr fun t ht => ?_
  rw [node_mono h (hitems t ht)]

theorem constantPart_mono {items : List TermId} (h : ts ≤ us) (hitems : ∀ t ∈ items, t < ts.size) :
    us.constantPart items = ts.constantPart items := by
  rw [constantPart, constantPart, List.filterMap_congr fun t ht => const?_mono h (hitems t ht)]

theorem settles_neg (h : Interner.WellFormed ts) (ht : t < ts.size) : (neg t).Settles ts := by
  refine .look (fun us hle => by simp only [const?_mono hle ht]) ?_
  cases const? ts t with
  | none => exact settles_intern h _
  | some c => exact settles_const h _

theorem settles_sub (h : Interner.WellFormed ts) (ht : t < ts.size) (hu : u < ts.size) :
    (sub t u).Settles ts := by
  refine .look (fun us hle => by simp only [const?_mono hle ht, const?_mono hle hu]) ?_
  split
  · exact settles_const h _
  · split
    · exact .pure h _
    · exact settles_intern h _

theorem settles_mul (h : Interner.WellFormed ts) (ht : t < ts.size) (hu : u < ts.size) :
    (mul t u).Settles ts := by
  refine .look (fun us hle => by simp only [const?_mono hle ht, const?_mono hle hu]) ?_
  split
  · exact settles_const h _
  · split
    · exact .pure h _
    · split
      · exact .pure h _
      · exact settles_intern h _

theorem settles_div (h : Interner.WellFormed ts) (ht : t < ts.size) (hu : u < ts.size) :
    (div t u).Settles ts := by
  refine .look (fun us hle => by simp only [const?_mono hle ht, const?_mono hle hu]) ?_
  dsimp only
  split
  · split
    · exact settles_intern h _
    · exact settles_const h _
  · split
    · exact .pure h _
    · exact settles_intern h _

theorem settles_pow (h : Interner.WellFormed ts) (ht : t < ts.size) (hu : u < ts.size) :
    (pow t u).Settles ts := by
  refine .look (fun us hle => by simp only [const?_mono hle ht, const?_mono hle hu]) ?_
  have hgeneral : Make.Settles
      (if isNum Scalar.one (const? ts u) then return t else intern (.binary .pow t u)) ts := by
    split
    · exact .pure h _
    · exact settles_intern h _
  dsimp only
  split
  · split
    · exact settles_const h _
    · exact hgeneral
  · exact hgeneral

theorem settles_call (h : Interner.WellFormed ts) (f : Elementary) (ht : t < ts.size) :
    (call f t).Settles ts := by
  refine .look (fun us hle => by simp only [const?_mono hle ht]) ?_
  cases const? ts t with
  | none => exact settles_intern h _
  | some c =>
    dsimp only
    split
    · exact settles_const h _
    · exact settles_intern h _

theorem settles_summands (h : Interner.WellFormed ts) {items : List TermId}
    (hitems : ∀ t ∈ items, t < ts.size) : (summands items).Settles ts := by
  refine .look (fun us hle => by rw [flatItems_mono hle hitems, constantPart_mono hle hitems]) ?_
  dsimp only
  split
  · exact .bind (settles_const h _) (.pure (settles_const h _).table _)
  · exact .pure h _

theorem settles_joined (h : Interner.WellFormed ts) (all : List TermId) : (joined all).Settles ts := by
  unfold joined
  split
  · exact .pure h _
  · exact settles_intern h _

theorem settles_sum (h : Interner.WellFormed ts) {items : List TermId} (hitems : ∀ t ∈ items, t < ts.size) :
    (sum items).Settles ts := by
  have hsummands := settles_summands h hitems
  rw [sum_eq]
  exact hsummands.bind (settles_joined hsummands.table _)

theorem settles_add (h : Interner.WellFormed ts) (ht : t < ts.size) (hu : u < ts.size) :
    (add t u).Settles ts :=
  settles_sum h (by simp [ht, hu])

end HybridPlan.Terms
