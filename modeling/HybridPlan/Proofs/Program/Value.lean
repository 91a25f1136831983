import HybridPlan.Proofs.Numbers.Exact
import HybridPlan.Proofs.Program.Term

set_option autoImplicit false

/-! # Values of terms over exact numbers

A term that is made has the value of the operation that it is made for, as far as real numbers are
concerned. What a constructor simplifies does not change whether the value is real. -/

namespace HybridPlan

open Exact (real part)

/-! ## Neutral operands -/

namespace Exact

variable (u : Exact)

theorem part_sub_zero : part (u - real 0) = part u := by
  cases u with
  | real x => rw [real_sub_real, sub_zero]
  | infinite | undefined => rfl

theorem part_one_mul : part (real 1 * u) = part u := by
  cases u with
  | real x => rw [real_mul_real, one_mul]
  | infinite | undefined => rfl

theorem part_mul_one : part (u * real 1) = part u := by
  cases u with
  | real x => rw [real_mul_real, mul_one]
  | infinite | undefined => rfl

theorem part_div_one : part (u / real 1) = part u := by
  cases u with
  | real x => rw [real_div_real one_ne_zero, div_one]
  | infinite | undefined => rfl

theorem part_pow_one : part (Scalar.pow u (real 1)) = part u := by
  cases u with
  | real x => rw [pow_one]
  | infinite | undefined => rfl

end Exact

namespace Terms

/-! ## Constructors -/

/-- The value of the term that a construction makes. -/
noncomputable def Make.value (m : Make Exact TermId) (ts : Terms Exact) (x : VarId → Exact) :
    Exact :=
  eval (m.run ts).2 x (m.run ts).1

variable {ts : Terms Exact} {n : Nat} {x : VarId → Exact} {a b : TermId}

theorem value_get (f : Terms Exact → Make Exact TermId) :
    Make.value (MonadState.get >>= f) ts x = (f ts).value ts x := rfl

theorem value_bind {ι : Type} (m : Make Exact ι) (f : ι → Make Exact TermId) :
    Make.value (m >>= f) ts x = (f (m.run ts).1).value (m.run ts).2 x := rfl

theorem value_old : Make.value (pure a) ts x = ts.eval x a := rfl

theorem value_intern (hts : ts.WellFormed n) {m : TermNode Exact}
    (hoperands : ∀ t ∈ m.operands, t < ts.size) (hvars : m.VarsBelow n) :
    (intern m).value ts x = m.value x (ts.eval x) :=
  eval_intern hts hoperands hvars x

theorem value_const (hts : ts.WellFormed n) (c : Exact) : (const c).value ts x = c := by
  unfold const
  rw [Exact.unsignedZero_eq]
  exact value_intern hts (fun _ h => absurd h List.not_mem_nil) trivial

theorem value_var (hts : ts.WellFormed n) {v : VarId} (hv : v < n) : (var v).value ts x = x v :=
  value_intern hts (fun _ h => absurd h List.not_mem_nil) hv

theorem eval_of_const? (hts : ts.WellFormed n) {c : Exact} (h : const? ts a = some c) :
    ts.eval x a = c := by
  unfold const? at h
  split at h
  · next c' hnode =>
    rw [hts.eval_eq, hnode]
    exact Option.some.inj h
  · cases h

theorem eval_of_isNum (hts : ts.WellFormed n) {c : Exact} {r : ℝ} (hc : c = real r)
    (h : isNum c (const? ts a)) : ts.eval x a = real r := by
  obtain ⟨u, hu, heq⟩ := (Option.any_eq_true _ _).1 h
  rw [hc, Exact.eq_real] at heq
  rw [eval_of_const? hts hu, heq]

variable (hts : ts.WellFormed n) (ha : a < ts.size) (hb : b < ts.size)
include hts ha

theorem value_neg : (neg a).value ts x = -ts.eval x a := by
  unfold neg
  rw [value_get]
  split
  · next c hc => rw [value_const hts, eval_of_const? hts hc]
  · exact value_intern (m := .neg a) hts (by simpa [TermNode.operands]) trivial

theorem value_call (f : Elementary) : (call f a).value ts x = f.value (ts.eval x a) := by
  have hcall : (intern (.call f a)).value ts x = f.value (ts.eval x a) :=
    value_intern hts (by simpa [TermNode.operands]) trivial
  unfold call
  rw [value_get]
  split
  · next c hc =>
    dsimp only
    split
    · rw [value_const hts, eval_of_const? hts hc]
    · exact hcall
  · exact hcall

include hb

theorem value_binary (op : TermOp) :
    (intern (.binary op a b)).value ts x = op.value (ts.eval x a) (ts.eval x b) :=
  value_intern hts (by simp [TermNode.operands, ha, hb]) trivial

theorem part_value_sub : part ((sub a b).value ts x) = part (ts.eval x a - ts.eval x b) := by
  unfold sub
  rw [value_get]
  split
  · next c d hc hd => rw [value_const hts, eval_of_const? hts hc, eval_of_const? hts hd]
  · split
    · next hzero =>
      rw [value_old, eval_of_isNum hts Exact.zero_eq hzero, Exact.part_sub_zero]
    · rw [value_binary hts ha hb]
      rfl

theorem part_value_mul : part ((mul a b).value ts x) = part (ts.eval x a * ts.eval x b) := by
  unfold mul
  rw [value_get]
  split
  · next c d hc hd => rw [value_const hts, eval_of_const? hts hc, eval_of_const? hts hd]
  · split
    · next hone =>
      rw [value_old, eval_of_isNum hts Exact.one_eq hone, Exact.part_one_mul]
    · split
      · next hone =>
        rw [value_old, eval_of_isNum hts Exact.one_eq hone, Exact.part_mul_one]
      · rw [value_binary hts ha hb]
        rfl

theorem part_value_div : part ((div a b).value ts x) = part (ts.eval x a / ts.eval x b) := by
  have hbinary : part ((intern (.binary .div a b)).value ts x) =
      part (ts.eval x a / ts.eval x b) := by
    rw [value_binary hts ha hb]
    rfl
  unfold div
  rw [value_get]
  dsimp only
  split
  · next c d hc hd =>
    split
    · exact hbinary
    · rw [value_const hts, eval_of_const? hts hc, eval_of_const? hts hd]
  · split
    · next hone =>
      rw [value_old, eval_of_isNum hts Exact.one_eq hone, Exact.part_div_one]
    · exact hbinary

theorem part_value_pow : part ((pow a b).value ts x) =
    part (Scalar.pow (ts.eval x a) (ts.eval x b)) := by
  have hgeneral : part (Make.value (if isNum Scalar.one (ts.const? b) then pure a
      else intern (.binary .pow a b)) ts x) = part (Scalar.pow (ts.eval x a) (ts.eval x b)) := by
    split
    · next hone =>
      rw [value_old, eval_of_isNum hts Exact.one_eq hone, Exact.part_pow_one]
    · rw [value_binary hts ha hb]
      rfl
  unfold pow
  rw [value_get]
  dsimp only
  split
  · next c d hc hd =>
    split
    · rw [value_const hts, eval_of_const? hts hc, eval_of_const? hts hd]
    · exact hgeneral
  · exact hgeneral

/-! ## Sums -/

omit ha hb

theorem part_eval_sum {items : List TermId} (h : ts.node a = .sum items) :
    part (ts.eval x a) = (items.map fun t => part (ts.eval x t)).sum := by
  rw [hts.eval_eq, h]
  exact (Exact.part_sum _).trans (congrArg List.sum (List.map_map ..))

/-- The items of a flat sum and its constant add up to the items. -/
theorem part_flat (items : List TermId) :
    ((flatItems ts items).map fun t => part (ts.eval x t)).sum + part (constantPart ts items) =
      (items.map fun t => part (ts.eval x t)).sum := by
  have hconstant : part (constantPart ts items) =
      ((items.filterMap (const? ts)).map part).sum := by
    rw [constantPart, Exact.part_foldl, Exact.part_zero, zero_add]
  rw [hconstant]
  clear hconstant
  induction items with
  | nil => simp [flatItems]
  | cons t items ih =>
    have hcons : flatItems ts (t :: items) = flatItems ts [t] ++ flatItems ts items := by
      simp [flatItems]
    rw [hcons, List.map_append, List.sum_append, List.map_cons, List.sum_cons, ← ih,
      List.filterMap_cons]
    cases hnode : ts.node t with
    | const c =>
      have hflat : flatItems ts [t] = [] := by simp [flatItems, hnode]
      have hc : const? ts t = some c := by simp [const?, hnode]
      rw [hflat, hc, List.map_nil, List.sum_nil, zero_add, List.map_cons, List.sum_cons,
        eval_of_const? hts hc, add_left_comm]
    | sum inner =>
      have hflat : flatItems ts [t] = inner := by simp [flatItems, hnode]
      have hc : const? ts t = none := by simp [const?, hnode]
      rw [hflat, hc, part_eval_sum hts hnode, add_assoc]
    | var | neg | binary | call =>
      have hflat : flatItems ts [t] = [t] := by simp [flatItems, hnode]
      have hc : const? ts t = none := by simp [const?, hnode]
      rw [hflat, hc, List.map_singleton, List.sum_singleton, add_assoc]

theorem part_value_joined (items : List TermId) (hitems : ∀ t ∈ items, t < ts.size) :
    part ((joined items).value ts x) = (items.map fun t => part (ts.eval x t)).sum := by
  unfold joined
  split
  · rw [value_old, List.map_singleton, List.sum_singleton]
  · rw [value_intern (m := .sum _) hts hitems trivial]
    exact (Exact.part_sum _).trans (congrArg List.sum (List.map_map ..))

theorem part_value_sum (items : List TermId) (hitems : ∀ t ∈ items, t < ts.size) :
    part ((sum items).value ts x) = (items.map fun t => part (ts.eval x t)).sum := by
  have hmem := mem_flatItems hts hitems
  rw [← part_flat hts (x := x) items, sum_eq, value_bind]
  by_cases h : !Scalar.isZero (ts.constantPart items) || (ts.flatItems items).isEmpty
  · -- the constant is made first, and the items keep their values
    obtain ⟨hus, hle, hnew⟩ := yields_const (C := ∅) (constantPart ts items) ts hts fun _ h => h.elim
    have hsize := Interner.size_mono hle
    have hconst : (const (constantPart ts items)).value ts x = constantPart ts items :=
      value_const hts _
    have hold : ∀ t ∈ flatItems ts items,
        eval ((const (constantPart ts items)).run ts).2 x t = ts.eval x t := fun t ht =>
      eval_mono hts hus hle (fun _ _ => rfl) (hmem t ht)
    rw [run_summands_const h]
    have hvalue := part_value_joined (x := x) hus
      (flatItems ts items ++ [((const (constantPart ts items)).run ts).1])
      (List.forall_mem_append.2 ⟨fun t ht => Nat.lt_of_lt_of_le (hmem t ht) hsize,
        by simpa using hnew _ rfl⟩)
    refine hvalue.trans ?_
    rw [List.map_append, List.sum_append, List.map_singleton, List.sum_singleton]
    exact congrArg₂ (· + ·) (congrArg List.sum (List.map_congr_left fun t ht =>
      congrArg part (hold t ht))) (congrArg part hconst)
  · rw [run_summands_flat h]
    simp only [Bool.or_eq_true, Bool.not_eq_true', not_or, Bool.not_eq_false] at h
    have hzero : part (constantPart ts items) = 0 := by
      rw [Exact.isZero_iff.1 h.1]
      exact Exact.part_eq.2 rfl
    rw [hzero, add_zero]
    exact part_value_joined hts _ hmem

end Terms

end HybridPlan
