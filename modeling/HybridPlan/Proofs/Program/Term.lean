import HybridPlan.Program.Term
import Mathlib.Data.Set.Insert
import Mathlib.Order.Basic

set_option autoImplicit false

/-! # Growth of terms

Terms are only ever added. A term keeps its value when further terms are added, and depends on the
variables that were there when it was made. -/

namespace HybridPlan

variable {α : Type} [Scalar α]

/-! ## Larger tables -/

namespace Interner

variable {κ : Type} [BEq κ] [Hashable κ]

/-- `t ≤ u` if `u` has the values of `t` under their numbers, and further ones behind them. -/
instance : LE (Interner κ) where
  le t u := t.items.toList <+: u.items.toList

instance : Preorder (Interner κ) where
  le_refl t := List.prefix_refl t.items.toList
  le_trans _ _ _ htu huv := List.IsPrefix.trans htu huv

variable {t u : Interner κ}

theorem getElem?_mono (h : t ≤ u) {i : Nat} {k : κ} (hi : t.items[i]? = some k) :
    u.items[i]? = some k := by
  rw [← Array.getElem?_toList] at hi ⊢
  obtain ⟨rest, hrest⟩ : t.items.toList <+: u.items.toList := h
  have hlt : i < t.items.toList.length := (List.getElem?_eq_some_iff.1 hi).1
  rw [← hrest, List.getElem?_append_left hlt, hi]

theorem size_mono (h : t ≤ u) : t.size ≤ u.size := List.IsPrefix.length_le h

theorem le_intern (t : Interner κ) (k : κ) : t ≤ (t.intern k).2 := by
  change t.items.toList <+: (t.intern k).2.items.toList
  rw [items_intern]
  split
  · exact List.prefix_refl _
  · rw [Array.toList_push]
    exact List.prefix_append _ _

theorem fst_intern_lt (t : Interner κ) (k : κ) (h : t.WellFormed) :
    (t.intern k).1 < (t.intern k).2.size :=
  (Array.getElem?_eq_some_iff.1 (h.getElem?_intern k)).1

/-- The only value that interning can add is the given one. -/
theorem eq_of_getElem?_intern {k k' : κ} {i : Nat} (h : (t.intern k).2.items[i]? = some k') :
    t.items[i]? = some k' ∨ k' = k ∧ t.size ≤ i := by
  rw [items_intern] at h
  split at h
  · exact .inl h
  · rw [Array.getElem?_push] at h
    split at h
    · next hi =>
      exact .inr ⟨(Option.some.inj h).symm, Nat.le_of_eq hi.symm⟩
    · exact .inl h

end Interner

/-! ## Well-formed terms -/

/-- The operands, from left to right. -/
def TermNode.operands : TermNode α → List TermId
  | const _ | var _ => []
  | neg a | call _ a => [a]
  | sum items => items
  | binary _ a b => [a, b]

/-- The variables of a node itself are among the first `n`. -/
def TermNode.VarsBelow (n : Nat) : TermNode α → Prop
  | var v => v < n
  | const _ | neg _ | sum _ | binary _ _ _ | call _ _ => True

/-- The value of a node whose operands have the given values. -/
def TermNode.value (values : VarId → α) (operand : TermId → α) : TermNode α → α
  | const c => c
  | var v => values v
  | neg a => -operand a
  | sum items => Scalar.sum (items.map operand)
  | binary op a b => op.value (operand a) (operand b)
  | call f a => f.value (operand a)

theorem TermNode.value_congr {values values' : VarId → α} {operand operand' : TermId → α} {n : Nat}
    {m : TermNode α} (hm : m.VarsBelow n) (hvalues : ∀ v < n, values' v = values v)
    (h : ∀ x ∈ m.operands, operand' x = operand x) :
    m.value values' operand' = m.value values operand := by
  cases m with
  | const c => rfl
  | var v => exact hvalues v hm
  | neg a => exact congrArg Neg.neg (h a (by simp [operands]))
  | sum items => exact congrArg Scalar.sum (List.map_congr_left h)
  | binary op a b =>
    exact congrArg₂ op.value (h a (by simp [operands])) (h b (by simp [operands]))
  | call f a => exact congrArg f.value (h a (by simp [operands]))

namespace Terms

/-- Every node has one number, which is larger than the numbers of its operands, and the variables
are among the first `n`. -/
structure WellFormed (ts : Terms α) (n : Nat) : Prop where
  table : Interner.WellFormed ts
  operands_lt : ∀ ⦃t : TermId⦄ ⦃m : TermNode α⦄, ts.items[t]? = some m → ∀ x ∈ m.operands, x < t
  vars_lt : ∀ ⦃t : TermId⦄ ⦃m : TermNode α⦄, ts.items[t]? = some m → m.VarsBelow n

variable {ts us : Terms α} {n k : Nat} {t : TermId} {m : TermNode α}

theorem wellFormed_empty : WellFormed ({} : Terms α) n where
  table := Interner.wellFormed_empty
  operands_lt t m h := by simp at h
  vars_lt t m h := by simp at h

theorem WellFormed.mono (h : ts.WellFormed n) (hnk : n ≤ k) : ts.WellFormed k where
  table := h.table
  operands_lt := h.operands_lt
  vars_lt t m ht := by
    have hm := h.vars_lt ht
    cases m with
    | var v => exact Nat.lt_of_lt_of_le hm hnk
    | const | neg | sum | binary | call => trivial

theorem node_eq_of_getElem? (h : ts.items[t]? = some m) : ts.node t = m := by
  simp [node, Array.getD_eq_getD_getElem?, h]

theorem getElem?_of_lt_size (h : t < ts.size) : ts.items[t]? = some (ts.node t) := by
  have h : ts.items[t]? = some ts.items[t] := Array.getElem?_eq_getElem h
  rw [node_eq_of_getElem? h, h]

/-- Outside the table there are only zeros. -/
theorem node_of_size_le (h : ts.size ≤ t) : ts.node t = .const Scalar.zero := by
  have h : ts.items[t]? = none := Array.getElem?_eq_none h
  simp [node, Array.getD_eq_getD_getElem?, h]

theorem node_mono (h : ts ≤ us) (ht : t < ts.size) : us.node t = ts.node t :=
  node_eq_of_getElem? (Interner.getElem?_mono h (getElem?_of_lt_size ht))

theorem WellFormed.operand_lt (h : ts.WellFormed n) {x : TermId} (hx : x ∈ (ts.node t).operands) :
    x < t := by
  by_cases ht : t < ts.size
  · exact h.operands_lt (getElem?_of_lt_size ht) x hx
  · rw [node_of_size_le (Nat.le_of_not_lt ht)] at hx
    exact absurd hx List.not_mem_nil

theorem WellFormed.varsBelow (h : ts.WellFormed n) (t : TermId) : (ts.node t).VarsBelow n := by
  by_cases ht : t < ts.size
  · exact h.vars_lt (getElem?_of_lt_size ht)
  · rw [node_of_size_le (Nat.le_of_not_lt ht)]
    trivial

/-! ## Values -/

/-- The levels that are looked at do not matter once they are more than the number of the term. -/
theorem WellFormed.treeBelow_eq (h : ts.WellFormed n) {i j : Nat} (hi : t < i) (hj : t < j) :
    ts.treeBelow i t = ts.treeBelow j t := by
  induction i generalizing t j with
  | zero => exact absurd hi (Nat.not_lt_zero t)
  | succ i ih =>
    obtain ⟨j, rfl⟩ := Nat.exists_eq_succ_of_ne_zero (Nat.ne_of_gt (Nat.zero_lt_of_lt hj))
    have hoperand : ∀ x ∈ (ts.node t).operands, ts.treeBelow i x = ts.treeBelow j x :=
      fun x hx => by
        have hlt := h.operand_lt hx
        exact ih (Nat.lt_of_lt_of_le hlt (Nat.le_of_lt_succ hi))
          (Nat.lt_of_lt_of_le hlt (Nat.le_of_lt_succ hj))
    unfold treeBelow
    cases hnode : ts.node t with
    | const c => rfl
    | var v => rfl
    | neg a => exact congrArg Term.neg (hoperand a (by simp [hnode, TermNode.operands]))
    | sum items =>
      rw [hnode] at hoperand
      exact congrArg Term.sum (List.map_congr_left hoperand)
    | binary op a b =>
      exact congrArg₂ (Term.binary op) (hoperand a (by simp [hnode, TermNode.operands]))
        (hoperand b (by simp [hnode, TermNode.operands]))
    | call f a => exact congrArg (Term.call f) (hoperand a (by simp [hnode, TermNode.operands]))

theorem evalAll_eq_map (values : VarId → α) (l : List (Term α)) :
    Term.evalAll values l = l.map (Term.eval values) := by
  induction l with
  | nil => rfl
  | cons t l ih => rw [Term.evalAll, ih, List.map_cons]

/-- The value of a term is the value of its node over the values of its operands. -/
theorem WellFormed.eval_eq (h : ts.WellFormed n) (values : VarId → α) (t : TermId) :
    ts.eval values t = (ts.node t).value values (ts.eval values) := by
  have hoperand : ∀ x ∈ (ts.node t).operands,
      (ts.treeBelow t x).eval values = ts.eval values x := fun x hx => by
    rw [h.treeBelow_eq (h.operand_lt hx) (Nat.lt_succ_self x)]
    rfl
  have htree : ts.eval values t =
      (ts.node t).value values fun x => (ts.treeBelow t x).eval values := by
    change (ts.treeBelow (t + 1) t).eval values = _
    rw [treeBelow]
    cases ts.node t with
    | sum items =>
      simp only [Term.eval, TermNode.value, evalAll_eq_map, List.map_map]
      rfl
    | const | var | neg | binary | call => rfl
  rw [htree]
  exact (ts.node t).value_congr (h.varsBelow t) (fun _ _ => rfl) hoperand

/-- A term keeps its value in a larger table, and under values that agree on the variables that were
there when it was made. -/
theorem eval_mono (hts : ts.WellFormed n) (hus : us.WellFormed k) (hle : ts ≤ us)
    {values values' : VarId → α} (hvalues : ∀ v < n, values' v = values v) (ht : t < ts.size) :
    us.eval values' t = ts.eval values t := by
  induction t using Nat.strong_induction_on with
  | _ t ih =>
    rw [hus.eval_eq, hts.eval_eq, node_mono hle ht]
    refine TermNode.value_congr (hts.varsBelow t) hvalues fun x hx => ?_
    have hlt := hts.operand_lt hx
    exact ih x hlt (Nat.lt_trans hlt ht)

/-! ## Interning -/

theorem wellFormed_intern (h : ts.WellFormed n) (hoperands : ∀ x ∈ m.operands, x < ts.size)
    (hvars : m.VarsBelow n) : WellFormed ((intern m).run ts).2 n where
  table := h.table.intern m
  operands_lt t m' ht x hx := by
    rcases Interner.eq_of_getElem?_intern ht with ht | ⟨rfl, hle⟩
    · exact h.operands_lt ht x hx
    · exact Nat.lt_of_lt_of_le (hoperands x hx) hle
  vars_lt t m' ht := by
    rcases Interner.eq_of_getElem?_intern ht with ht | ⟨rfl, -⟩
    · exact h.vars_lt ht
    · exact hvars

/-- The value of a new term. -/
theorem eval_intern (h : ts.WellFormed n) (hoperands : ∀ x ∈ m.operands, x < ts.size)
    (hvars : m.VarsBelow n) (values : VarId → α) :
    eval ((intern m).run ts).2 values ((intern m).run ts).1 = m.value values (ts.eval values) := by
  have hus := wellFormed_intern h hoperands hvars
  have hnode : node ((intern m).run ts).2 ((intern m).run ts).1 = m :=
    node_eq_of_getElem? (h.table.getElem?_intern m)
  rw [hus.eval_eq, hnode]
  refine TermNode.value_congr hvars (fun _ _ => rfl) fun x hx => ?_
  exact eval_mono h hus (Interner.le_intern ts m) (fun _ _ => rfl) (hoperands x hx)

/-! ## Sums in two steps -/

/-- The items that a sum gets: the given ones without inner sums, and their constants added up unless
these vanish. -/
def summands (items : List TermId) : Make α (List TermId) := do
  let ts ← get
  let flat := flatItems ts items
  let c := constantPart ts items
  if !Scalar.isZero c || flat.isEmpty then do
    let c ← const c
    pure (flat ++ [c])
  else pure flat

/-- The sum of given items as they are; one item alone is itself. -/
def joined (all : List TermId) : Make α TermId :=
  match all with
  | [t] => pure t
  | _ => intern (.sum all)

theorem sum_eq (items : List TermId) : sum items = (summands items >>= joined : Make α TermId) := by
  funext ts
  change StateT.run (sum items) ts = StateT.run (summands items >>= joined) ts
  unfold sum summands
  simp only [StateT.run_bind, StateT.run_get, pure_bind]
  split
  · rfl
  · rfl

theorem run_sum (ts : Terms α) (items : List TermId) :
    (sum items).run ts = (joined ((summands items).run ts).1).run ((summands items).run ts).2 := by
  rw [sum_eq]
  rfl

/-- Constants that do not vanish are put behind the other items, and a sum is never empty. -/
theorem run_summands_const {ts : Terms α} {items : List TermId}
    (h : !Scalar.isZero (ts.constantPart items) || (ts.flatItems items).isEmpty) :
    (summands items).run ts =
      (ts.flatItems items ++ [((const (ts.constantPart items)).run ts).1],
        ((const (ts.constantPart items)).run ts).2) := by
  simp only [summands, StateT.run_bind, StateT.run_get, pure_bind, if_pos h]
  rfl

theorem run_summands_flat {ts : Terms α} {items : List TermId}
    (h : ¬(!Scalar.isZero (ts.constantPart items) || (ts.flatItems items).isEmpty)) :
    (summands items).run ts = (ts.flatItems items, ts) := by
  simp only [summands, StateT.run_bind, StateT.run_get, pure_bind, if_neg h]
  rfl

/-! ## Constructions -/

/-- From well-formed terms with the terms `C` a construction comes to a larger well-formed table that
has the terms `R` of its result. -/
def Make.Yields {ι : Type} (n : Nat) (C : Set TermId) (m : Make α ι) (R : ι → Set TermId) : Prop :=
  ∀ ts : Terms α, ts.WellFormed n → (∀ x ∈ C, x < ts.size) →
    WellFormed (m.run ts).2 n ∧ ts ≤ (m.run ts).2 ∧ ∀ x ∈ R (m.run ts).1, x < (m.run ts).2.size

namespace Make.Yields

variable {ι κ : Type} {C D : Set TermId} {f : Make α ι} {R : ι → Set TermId}

theorem pure {i : ι} (h : R i ⊆ C) : Yields n C (Pure.pure i : Make α ι) R :=
  fun ts hts hC => ⟨hts, le_refl ts, fun x hx => hC x (h hx)⟩

theorem bind {g : ι → Make α κ} {S : κ → Set TermId} (hf : Yields n C f R)
    (hg : ∀ i, Yields n (R i ∪ C) (g i) S) : Yields n C (f >>= g) S := by
  intro ts hts hC
  obtain ⟨hus, hle, hR⟩ := hf ts hts hC
  have hsize := Interner.size_mono hle
  obtain ⟨hvs, hle', hS⟩ := hg (f.run ts).1 (f.run ts).2 hus
    (fun x hx => hx.elim (hR x) fun hx => Nat.lt_of_lt_of_le (hC x hx) hsize)
  exact ⟨hvs, le_trans hle hle', hS⟩

/-- A construction may look at the terms. What it finds there is there. -/
theorem get {g : Terms α → Make α κ} {S : κ → Set TermId}
    (h : ∀ ts : Terms α, ts.WellFormed n → (∀ x ∈ C, x < ts.size) →
      ∃ D, (∀ x ∈ D, x < ts.size) ∧ Yields n (D ∪ C) (g ts) S) :
    Yields n C (MonadState.get >>= g) S := by
  intro ts hts hC
  obtain ⟨D, hD, hg⟩ := h ts hts hC
  exact hg ts hts fun x hx => hx.elim (hD x) (hC x)

/-- A construction that looks at the terms only to decide how to go on. -/
theorem look {g : Terms α → Make α κ} {S : κ → Set TermId} (h : ∀ ts, Yields n C (g ts) S) :
    Yields n C (MonadState.get >>= g) S :=
  fun ts => h ts ts

end Make.Yields

variable {C : Set TermId} {a b : TermId}

theorem yields_intern (hoperands : ∀ x ∈ m.operands, x ∈ C) (hvars : m.VarsBelow n) :
    Make.Yields n C (intern m) ({·}) := by
  intro ts hts hC
  have hus := wellFormed_intern hts (fun x hx => hC x (hoperands x hx)) hvars
  refine ⟨hus, Interner.le_intern ts m, ?_⟩
  rintro x rfl
  exact Interner.fst_intern_lt ts m hts.table

theorem yields_const (c : α) : Make.Yields n C (const c) ({·}) :=
  yields_intern (fun _ hx => absurd hx List.not_mem_nil) trivial

theorem yields_var {v : VarId} (hv : v < n) : Make.Yields (α := α) n C (var v) ({·}) :=
  yields_intern (fun _ hx => absurd hx List.not_mem_nil) hv

theorem yields_old (ha : a ∈ C) : Make.Yields (α := α) n C (pure a) ({·}) := .pure (by simpa)

theorem yields_neg (ha : a ∈ C) : Make.Yields (α := α) n C (neg a) ({·}) := by
  refine .look fun ts => ?_
  split
  · exact yields_const _
  · exact yields_intern (by simpa [TermNode.operands]) trivial

theorem yields_binary (op : TermOp) (ha : a ∈ C) (hb : b ∈ C) :
    Make.Yields (α := α) n C (intern (.binary op a b)) ({·}) :=
  yields_intern (by simp [TermNode.operands, ha, hb]) trivial

theorem mem_flatItems (hts : ts.WellFormed n) {items : List TermId}
    (hitems : ∀ x ∈ items, x < ts.size) : ∀ x ∈ ts.flatItems items, x < ts.size := by
  intro x hx
  obtain ⟨t, ht, hx⟩ := List.mem_flatMap.1 hx
  split at hx
  · exact absurd hx List.not_mem_nil
  · next inner hnode =>
    have hlt : x < t := hts.operand_lt (by simpa [hnode, TermNode.operands] using hx)
    exact Nat.lt_trans hlt (hitems t ht)
  · rw [List.mem_singleton.1 hx]
    exact hitems t ht

theorem yields_joined {all : List TermId} (hall : ∀ x ∈ all, x ∈ C) :
    Make.Yields (α := α) n C (joined all) ({·}) := by
  unfold joined
  split
  · exact yields_old (hall _ List.mem_cons_self)
  · exact yields_intern hall trivial

theorem yields_summands {items : List TermId} (hitems : ∀ x ∈ items, x ∈ C) :
    Make.Yields (α := α) n C (summands items) ({x | x ∈ ·}) := by
  refine .get fun ts hts hC => ⟨{x | x ∈ ts.flatItems items},
    mem_flatItems hts fun x hx => hC x (hitems x hx), ?_⟩
  dsimp only
  split
  · refine .bind (yields_const _) fun c => .pure fun x hx => ?_
    rcases List.mem_append.1 hx with hx | hx
    · exact .inr (.inl hx)
    · exact .inl (List.mem_singleton.1 hx)
  · exact .pure fun x hx => .inl hx

theorem yields_sum {items : List TermId} (hitems : ∀ x ∈ items, x ∈ C) :
    Make.Yields (α := α) n C (sum items) ({·}) := by
  rw [sum_eq]
  exact .bind (yields_summands hitems) fun all => yields_joined fun x hx => .inl hx

theorem yields_add (ha : a ∈ C) (hb : b ∈ C) : Make.Yields (α := α) n C (add a b) ({·}) :=
  yields_sum (by simp [ha, hb])

theorem yields_sub (ha : a ∈ C) (hb : b ∈ C) : Make.Yields (α := α) n C (sub a b) ({·}) := by
  refine .look fun ts => ?_
  split
  · exact yields_const _
  · split
    · exact yields_old ha
    · exact yields_binary .sub ha hb

theorem yields_mul (ha : a ∈ C) (hb : b ∈ C) : Make.Yields (α := α) n C (mul a b) ({·}) := by
  refine .look fun ts => ?_
  split
  · exact yields_const _
  · split
    · exact yields_old hb
    · split
      · exact yields_old ha
      · exact yields_binary .mul ha hb

theorem yields_div (ha : a ∈ C) (hb : b ∈ C) : Make.Yields (α := α) n C (div a b) ({·}) := by
  refine .look fun ts => ?_
  dsimp only
  split
  · split
    · exact yields_binary .div ha hb
    · exact yields_const _
  · split
    · exact yields_old ha
    · exact yields_binary .div ha hb

theorem yields_pow (ha : a ∈ C) (hb : b ∈ C) : Make.Yields (α := α) n C (pow a b) ({·}) := by
  refine .look fun ts => ?_
  have hgeneral : Make.Yields (α := α) n C (if isNum Scalar.one (ts.const? b) then pure a
      else intern (.binary .pow a b)) ({·}) := by
    split
    · exact yields_old ha
    · exact yields_binary .pow ha hb
  dsimp only
  split
  · split
    · exact yields_const _
    · exact hgeneral
  · exact hgeneral

theorem yields_call (f : Elementary) (ha : a ∈ C) :
    Make.Yields (α := α) n C (call f a) ({·}) := by
  have hcall : Make.Yields (α := α) n C (intern (.call f a)) ({·}) :=
    yields_intern (by simpa [TermNode.operands]) trivial
  refine .look fun ts => ?_
  split
  · dsimp only
    split
    · exact yields_const _
    · exact hcall
  · exact hcall

end Terms

end HybridPlan
