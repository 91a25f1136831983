import HybridPlan.Proofs.Program.Construction
import HybridPlan.Proofs.Program.Value

set_option autoImplicit false

/-! # Sums in a table of terms

Whatever constructors are called, one after another, equal terms have one number, operands stand
before the terms that use them, and a sum has at least two items, none of which is a sum. Its
constants are a different matter. A sum takes over the items of the sums among its items as they
are, so that it can have several constants: its own one and those that it takes over. It has at most
one constant exactly if no call takes over too many. -/

namespace HybridPlan

open Exact (real part)

variable {α : Type} [Scalar α]

namespace Terms

/-! ## Calls one after another -/

/-- The table after some calls. -/
def after (ts : Terms α) : List (Construction α) → Terms α
  | [] => ts
  | c :: calls => after (c.make.run ts).2 calls

/-- Each call has the property when its turn comes. -/
def Each (P : Terms α → Construction α → Prop) (ts : Terms α) : List (Construction α) → Prop
  | [] => True
  | c :: calls => P ts c ∧ Each P (c.make.run ts).2 calls

theorem each_append {P : Terms α → Construction α → Prop} {ts : Terms α}
    {calls calls' : List (Construction α)} :
    Each P ts (calls ++ calls') ↔ Each P ts calls ∧ Each P (ts.after calls) calls' := by
  induction calls generalizing ts with
  | nil => simp [Each, after]
  | cons c calls ih => rw [List.cons_append, Each, Each, ih, after, and_assoc]

/-- A call is for terms that are there. -/
def Construction.Fits (ts : Terms α) (c : Construction α) : Prop := ∀ x ∈ c.operands, x < ts.size

omit [Scalar α] in
/-- Finitely many calls are for finitely many variables. -/
theorem exists_varsBelow (calls : List (Construction α)) :
    ∃ n, ∀ c ∈ calls, c.VarsBelow n := by
  induction calls with
  | nil => exact ⟨0, by simp⟩
  | cons c calls ih =>
    obtain ⟨n, hn⟩ := ih
    have hmono (c : Construction α) {k l : Nat} (hkl : k ≤ l) (h : c.VarsBelow k) :
        c.VarsBelow l := by
      cases c with
      | var v => exact Nat.lt_of_lt_of_le h hkl
      | _ => trivial
    have hc : ∃ k, c.VarsBelow k := by
      cases c with
      | var v => exact ⟨v + 1, Nat.lt_succ_self v⟩
      | _ => exact ⟨0, trivial⟩
    obtain ⟨k, hk⟩ := hc
    refine ⟨max n k, ?_⟩
    intro d hd
    rcases List.mem_cons.1 hd with rfl | hd
    · exact hmono d (Nat.le_max_right n k) hk
    · exact hmono d (Nat.le_max_left n k) (hn d hd)

variable {ts us : Terms α} {n : Nat} {t : TermId} {items : List TermId}

theorem Built.after {calls : List (Construction α)} (h : ts.Built n)
    (hvars : ∀ c ∈ calls, c.VarsBelow n) (hfits : Each Construction.Fits ts calls) :
    (ts.after calls).Built n := by
  induction calls generalizing ts with
  | nil => exact h
  | cons c calls ih =>
    obtain ⟨hc, hcalls⟩ := hfits
    have hstep := h.step c (hvars c List.mem_cons_self) hc
    exact ih hstep (fun d hd => hvars d (List.mem_cons_of_mem c hd)) hcalls

/-! ## What is said of every sum -/

/-- Every sum of a table has items of a kind. -/
def AllSums (P : Terms α → List TermId → Prop) (ts : Terms α) : Prop :=
  ∀ ⦃t : TermId⦄ ⦃items : List TermId⦄, ts.items[t]? = some (.sum items) → P ts items

/-- Items are of a kind whatever is added to the table. -/
def Lasting (P : Terms α → List TermId → Prop) : Prop :=
  ∀ ⦃ts us : Terms α⦄ ⦃items : List TermId⦄, ts ≤ us → (∀ x ∈ items, x < ts.size) →
    (P us items ↔ P ts items)

variable {P : Terms α → List TermId → Prop}

/-- A new node matters if it is a sum. -/
theorem allSums_intern (hP : Lasting P) (hts : ts.WellFormed n) {m : TermNode α}
    (hm : ∀ x ∈ m.operands, x < ts.size) :
    AllSums P (Interner.intern ts m).2 ↔ AllSums P ts ∧ ∀ items, m = .sum items → P ts items := by
  have hle := Interner.le_intern ts m
  have hold {t : TermId} {items : List TermId} (ht : ts.items[t]? = some (.sum items)) :
      ∀ x ∈ items, x < ts.size := by
    intro x hx
    exact Nat.lt_trans (hts.operands_lt ht x hx) (Array.getElem?_eq_some_iff.1 ht).1
  constructor
  · intro h
    constructor
    · intro t items ht
      exact (hP hle (hold ht)).1 (h (Interner.getElem?_mono hle ht))
    · rintro items rfl
      exact (hP hle hm).1 (h (hts.table.getElem?_intern _))
  · rintro ⟨hall, hnew⟩ t items ht
    rcases Interner.eq_of_getElem?_intern ht with ht | ⟨rfl, -⟩
    · exact (hP hle (hold ht)).2 (hall ht)
    · exact (hP hle hm).2 (hnew items rfl)

theorem allSums_intern_plain (hP : Lasting P) (hts : ts.WellFormed n) {m : TermNode α}
    (hm : m.Plain) (hoperands : ∀ x ∈ m.operands, x < ts.size) :
    AllSums P (Interner.intern ts m).2 ↔ AllSums P ts := by
  rw [allSums_intern hP hts hoperands, and_iff_left]
  rintro items rfl
  exact hm.elim

/-! ## New sums -/

theorem allSums_joined (hP : Lasting P) (hts : ts.WellFormed n)
    (hitems : ∀ x ∈ items, x < ts.size) :
    AllSums P ((joined items).run ts).2 ↔ AllSums P ts ∧ (items.length ≠ 1 → P ts items) := by
  -- a single item is returned as it is, and no sum is made
  by_cases hone : ∃ t, items = [t]
  · obtain ⟨t, rfl⟩ := hone
    have hrun : (joined [t]).run ts = (t, ts) := rfl
    rw [hrun]
    simp
  · have hrun : (joined items).run ts = Interner.intern ts (.sum items) := by
      unfold joined
      split
      · exact absurd ⟨_, rfl⟩ hone
      · rfl
    have hlength : items.length ≠ 1 := by
      intro h
      exact hone (List.length_eq_one_iff.1 h)
    rw [hrun, allSums_intern (m := .sum items) hP hts hitems]
    refine and_congr_right fun _ => ?_
    constructor
    · intro h _
      exact h items rfl
    · rintro h items' ⟨⟩
      exact h hlength

theorem allSums_summands (hP : Lasting P) (hts : ts.WellFormed n) :
    AllSums P ((summands items).run ts).2 ↔ AllSums P ts := by
  by_cases h : !Scalar.isZero (ts.constantPart items) || (ts.flatItems items).isEmpty
  · rw [run_summands_const h]
    refine allSums_intern_plain hP hts ?_ fun _ h => absurd h List.not_mem_nil
    exact Build.unsignedZero_unsignedZero _
  · rw [run_summands_flat h]

/-- The items that a call gives to a sum are of a kind. -/
def Joins (P : Terms α → List TermId → Prop) (ts : Terms α) (c : Construction α) : Prop :=
  ∀ items, c.summands? = some items →
    ((summands items).run ts).1.length ≠ 1 →
      P ((summands items).run ts).2 ((summands items).run ts).1

/-- Every sum of a table stays of a kind as long as the calls make sums of that kind. -/
theorem allSums_make (hP : Lasting P) (hts : ts.WellFormed n) {c : Construction α}
    (hc : c.Fits ts) : AllSums P (c.make.run ts).2 ↔ AllSums P ts ∧ Joins P ts c := by
  cases hsum : c.summands? with
  | none =>
    have hjoins : Joins P ts c := by simp [Joins, hsum]
    rw [and_iff_left hjoins]
    rcases Construction.plain_make hsum ts with ⟨a, -, hrun⟩ | ⟨m, hm, hoperands, hrun⟩
    · rw [hrun]
    · rw [hrun]
      exact allSums_intern_plain hP hts hm fun x hx => hc x (hoperands x hx)
  | some items =>
    -- the items are put together first, which makes no sum, and then joined to one
    obtain ⟨hmake, hitems⟩ := Construction.make_eq_sum hsum
    have hfits : ∀ x ∈ items, x < ts.size := hitems ▸ hc
    obtain ⟨hus, -, hnew⟩ := yields_summands (fun x hx => hx) ts hts hfits
    rw [hmake, run_sum, allSums_joined hP hus hnew, allSums_summands hP hts]
    simp [Joins, hsum]

theorem node_const (hts : ts.WellFormed n) (c : α) :
    node ((const c).run ts).2 ((const c).run ts).1 = .const (Scalar.unsignedZero c) :=
  node_eq_of_getElem? (hts.table.getElem?_intern _)

/-! ## Flat sums -/

/-- No item is a sum. -/
def Flat (ts : Terms α) (items : List TermId) : Prop :=
  ∀ x ∈ items, ∀ inner, ts.node x ≠ .sum inner

theorem lasting_flat : Lasting (Flat (α := α)) := by
  intro ts us items hle hitems
  refine forall₂_congr fun x hx => ?_
  rw [node_mono hle (hitems x hx)]

theorem flat_flatItems (hflat : AllSums Flat ts) (hitems : ∀ x ∈ items, x < ts.size) :
    Flat ts (ts.flatItems items) := by
  intro x hx
  obtain ⟨t, ht, hx⟩ := List.mem_flatMap.1 hx
  have hnode := getElem?_of_lt_size (hitems t ht)
  split at hx
  · exact absurd hx List.not_mem_nil
  · next inner hinner =>
    rw [hinner] at hnode
    exact hflat hnode x hx
  · next hconst hsum =>
    rw [List.mem_singleton.1 hx]
    exact hsum

/-- A table without nested sums gets none. -/
theorem joins_flat (hts : ts.WellFormed n) (hflat : AllSums Flat ts) {c : Construction α}
    (hc : c.Fits ts) : Joins Flat ts c := by
  intro items hsum _
  have hitems : ∀ x ∈ items, x < ts.size := (Construction.make_eq_sum hsum).2 ▸ hc
  have hold := flat_flatItems hflat hitems
  by_cases h : !Scalar.isZero (ts.constantPart items) || (ts.flatItems items).isEmpty
  · -- the only new item is a constant
    rw [run_summands_const h]
    intro x hx
    rcases List.mem_append.1 hx with hx | hx
    · refine (lasting_flat (Interner.le_intern ts _) ?_).2 hold x hx
      exact mem_flatItems hts hitems
    · intro inner
      rw [List.mem_singleton.1 hx, node_const hts]
      simp
  · rw [run_summands_flat h]
    exact hold

theorem Built.flat (h : ts.Built n) : AllSums Flat ts := by
  induction h with
  | empty => exact fun t items ht => by simp at ht
  | step h c _ hc ih =>
    exact (allSums_make lasting_flat h.wellFormed hc).2 ⟨ih, joins_flat h.wellFormed ih hc⟩

/-! ## Constants in sums -/

/-- The number of constants among some items. -/
def constants (ts : Terms α) (items : List TermId) : Nat :=
  items.countP fun t => (ts.const? t).isSome

/-- At most one item is a constant. -/
def Folded (ts : Terms α) (items : List TermId) : Prop := ts.constants items ≤ 1

/-- The constants of inner sums and of the sum itself are at most one. -/
def Folds (ts : Terms α) (c : Construction α) : Prop :=
  ∀ items, c.summands? = some items →
    ts.constants (ts.flatItems items) + (if Scalar.isZero (ts.constantPart items) then 0 else 1) ≤ 1

theorem constants_mono (hle : ts ≤ us) (hitems : ∀ x ∈ items, x < ts.size) :
    us.constants items = ts.constants items := by
  refine List.countP_congr fun x hx => ?_
  rw [const?, const?, node_mono hle (hitems x hx)]

theorem lasting_folded : Lasting (Folded (α := α)) := by
  intro ts us items hle hitems
  rw [Folded, Folded, constants_mono hle hitems]

theorem joins_folded_iff (hts : ts.WellFormed n) {c : Construction α} (hc : c.Fits ts) :
    Joins Folded ts c ↔ Folds ts c := by
  refine forall₂_congr fun items hsum => ?_
  have hitems : ∀ x ∈ items, x < ts.size := (Construction.make_eq_sum hsum).2 ▸ hc
  have hmem := mem_flatItems hts hitems
  have hlength : ts.constants (ts.flatItems items) ≤ (ts.flatItems items).length :=
    List.countP_le_length
  by_cases h : !Scalar.isZero (ts.constantPart items) || (ts.flatItems items).isEmpty
  · -- the constant of the sum comes on top of those that are taken over
    have hnew : Terms.constants ((const (ts.constantPart items)).run ts).2
        [((const (ts.constantPart items)).run ts).1] = 1 := by
      simp [constants, const?, node_const hts]
    have hcount : Terms.constants ((const (ts.constantPart items)).run ts).2
        (ts.flatItems items ++ [((const (ts.constantPart items)).run ts).1]) =
          ts.constants (ts.flatItems items) + 1 := by
      rw [← constants_mono (Interner.le_intern ts _) hmem, ← hnew]
      exact List.countP_append
    rw [run_summands_const h, Folded, hcount, List.length_append, List.length_singleton]
    by_cases hzero : Scalar.isZero (ts.constantPart items)
    · -- without other items the vanishing constant is no sum
      have hempty : ts.flatItems items = [] := by simpa [hzero] using h
      simp [hempty, hzero, constants]
    · rw [if_neg hzero]
      omega
  · rw [run_summands_flat h, Folded]
    simp only [Bool.or_eq_true, Bool.not_eq_true', not_or, Bool.not_eq_false] at h
    rw [if_pos h.1]
    dsimp only
    omega

theorem folded_make (hts : ts.WellFormed n) {c : Construction α} (hc : c.Fits ts) :
    AllSums Folded (c.make.run ts).2 ↔ AllSums Folded ts ∧ Folds ts c := by
  rw [allSums_make lasting_folded hts hc, joins_folded_iff hts hc]

theorem folded_after {calls : List (Construction α)} (h : ts.Built n)
    (hvars : ∀ c ∈ calls, c.VarsBelow n) (hfits : Each Construction.Fits ts calls) :
    AllSums Folded (ts.after calls) ↔ AllSums Folded ts ∧ Each Folds ts calls := by
  induction calls generalizing ts with
  | nil => simp [after, Each]
  | cons c calls ih =>
    obtain ⟨hc, hcalls⟩ := hfits
    have hstep := h.step c (hvars c List.mem_cons_self) hc
    have hrest := ih hstep (fun d hd => hvars d (List.mem_cons_of_mem c hd)) hcalls
    rw [after, hrest, folded_make h.wellFormed hc, Each, and_assoc]

/-! ## Tables that are built -/

/-- Equal terms have one number, operands have smaller ones, and sums have at least two items, none
of which is a sum. -/
structure Canonical (ts : Terms α) : Prop where
  distinct : ∀ ⦃t u : TermId⦄ ⦃m : TermNode α⦄, ts.items[t]? = some m → ts.items[u]? = some m → t = u
  descending : ∀ ⦃t : TermId⦄ ⦃m : TermNode α⦄, ts.items[t]? = some m → ∀ x ∈ m.operands, x < t
  several : AllSums (fun _ items => 2 ≤ items.length) ts
  flat : AllSums Flat ts

theorem Built.canonical (h : ts.Built n) : ts.Canonical where
  distinct t u m ht hu := by
    have ht := (h.wellFormed.table m t).2 ht
    have hu := (h.wellFormed.table m u).2 hu
    exact Option.some.inj (ht.symm.trans hu)
  descending := h.wellFormed.operands_lt
  several t items ht := h.proper ht
  flat := h.flat

/-- Whatever constructors are called, the table is canonical. Its sums have at most one constant each
exactly if no call is for items whose inner sums have constants that leave no room for another one.
Over exact numbers a new sum has the value of its items added up. -/
theorem after_canonical :
    (∀ calls : List (Construction α), Each Construction.Fits {} calls →
      (after {} calls).Canonical ∧
        (AllSums Folded (after {} calls) ↔ Each Folds ({} : Terms α) calls)) ∧
    ∀ calls : List (Construction Exact), Each Construction.Fits {} calls →
      ∀ items : List TermId, (∀ t ∈ items, t < (after {} calls).size) → ∀ x : VarId → Exact,
        part ((sum items).value (after {} calls) x) =
          (items.map fun t => part ((after {} calls).eval x t)).sum := by
  constructor
  · intro calls hfits
    obtain ⟨n, hvars⟩ := exists_varsBelow calls
    refine ⟨(Built.empty.after hvars hfits).canonical, ?_⟩
    rw [folded_after .empty hvars hfits, and_iff_right]
    intro t items ht
    simp at ht
  · intro calls hfits items hitems x
    obtain ⟨n, hvars⟩ := exists_varsBelow calls
    exact part_value_sum (Built.empty.after hvars hfits).wellFormed items hitems

/-! ## A sum with two constants -/

theorem run_const_old (hts : ts.WellFormed n) {c : α} (hc : Scalar.unsignedZero c = c)
    (ht : ts.items[t]? = some (.const c)) : (const c).run ts = (t, ts) := by
  have hindex : ts.index[TermNode.const c]? = some t := (hts.table _ t).2 ht
  change Interner.intern ts (.const (Scalar.unsignedZero c)) = (t, ts)
  rw [hc, Interner.intern, hindex]

theorem run_const_real (ts : Terms Exact) (r : ℝ) :
    (const (real r)).run ts = Interner.intern ts (.const (real r)) := by
  change Interner.intern ts (.const (Scalar.unsignedZero (real r))) = _
  rw [Exact.unsignedZero_eq]

/-- A constant that is added to a term is the last item of the sum. -/
theorem run_add_const {ts : Terms Exact} (hts : ts.WellFormed n) {a b : TermId} {r : ℝ}
    {flat : List TermId} (hr : r ≠ 0) (hflat : flat ≠ []) (ha : ts.flatItems [a, b] = flat)
    (hconst : ts.constantPart [a, b] = real r) (hb : ts.items[b]? = some (.const (real r))) :
    (add a b).run ts = Interner.intern ts (.sum (flat ++ [b])) := by
  have hzero : Scalar.isZero (real r) = false := by
    rw [Bool.eq_false_iff]
    intro h
    cases Exact.isZero_iff.1 h
    exact hr rfl
  have hput : !Scalar.isZero (ts.constantPart [a, b]) || (ts.flatItems [a, b]).isEmpty := by
    simp [hconst, hzero]
  have hone : ∀ t, flat ++ [b] ≠ [t] := by
    intro t h
    have hlength := congrArg List.length h
    simp only [List.length_append, List.length_singleton] at hlength
    exact hflat (List.length_eq_zero_iff.1 (Nat.add_right_cancel hlength))
  unfold add
  rw [run_sum, run_summands_const hput, hconst, run_const_old hts Exact.unsignedZero_eq hb, ha]
  unfold joined
  split
  · next h => exact absurd h (hone _)
  · rfl

/-- The terms `x + r` and `s`. -/
noncomputable def shifted (r s : ℝ) : List (Construction Exact) :=
  [.var 0, .const (real r), .add 0 1, .const (real s)]

theorem items_shifted {r s : ℝ} (hr : r ≠ 0) (hs : s ≠ r) :
    Each Construction.Fits {} (shifted r s) ∧ (after {} (shifted r s)).Built 1 ∧
      (after {} (shifted r s)).items = #[.var 0, .const (real r), .sum [0, 1], .const (real s)] := by
  have hempty : Built 1 ({} : Terms Exact) ∧ ({} : Terms Exact).items = #[] := ⟨.empty, rfl⟩
  have hx := Built.extend (c := .var 0) hempty Nat.zero_lt_one (by simp [Construction.operands]) rfl
    (by simp)
  have hfirst := Built.extend (c := .const (real r)) hx trivial (by simp [Construction.operands])
    (run_const_real _ r) (by simp)
  have hrun := run_add_const (a := 0) (b := 1) hfirst.1.wellFormed hr
    (List.cons_ne_nil 0 []) (by simp [flatItems, node, hfirst.2])
    (by simp [constantPart, const?, node, hfirst.2]) (by simp [hfirst.2])
  have hsum := Built.extend (c := .add 0 1) hfirst trivial (by simp [Construction.operands]) hrun
    (by simp)
  have hsecond := Built.extend (c := .const (real s)) hsum trivial
    (by simp [Construction.operands]) (run_const_real _ s) (by simp [hs])
  refine ⟨?_, hsecond⟩
  simp [Each, shifted, Construction.Fits, Construction.operands, Interner.size, hfirst.2]

/-- Adding `3` to `x + 2` takes over the `2`. -/
theorem after_canonical_shifted :
    Each Construction.Fits {} (shifted 2 3 ++ [.add 2 3]) ∧
      (after {} (shifted 2 3 ++ [.add 2 3])).Canonical ∧
      ¬AllSums Folded (after {} (shifted 2 3 ++ [.add 2 3])) ∧
      ∀ x : VarId → Exact, part ((sum [2, 3]).value (after {} (shifted 2 3)) x) =
        part ((after {} (shifted 2 3)).eval x 2) + part ((after {} (shifted 2 3)).eval x 3) := by
  obtain ⟨hfits, -, hitems⟩ := items_shifted (r := 2) (s := 3) two_ne_zero (by norm_num)
  have hsize : ∀ t ∈ [2, 3], t < (after {} (shifted 2 3)).size := by
    simp [Interner.size, hitems]
  have hall : Each Construction.Fits {} (shifted 2 3 ++ [.add 2 3]) :=
    each_append.2 ⟨hfits, hsize, trivial⟩
  obtain ⟨hcanonical, hfolded⟩ := after_canonical.1 _ hall
  refine ⟨hall, hcanonical, ?_, ?_⟩
  · rw [hfolded, each_append]
    rintro ⟨-, hfolds, -⟩
    -- the `2` of the inner sum and the `3` of the call
    have hconst : Scalar.isZero (constantPart (after {} (shifted 2 3)) [2, 3]) = false := by
      rw [Bool.eq_false_iff]
      simp [constantPart, const?, node, hitems, Exact.isZero_iff]
    have hcount := hfolds [2, 3] rfl
    simp [hconst, constants, flatItems, const?, node, hitems] at hcount
  · intro x
    have hvalue := (after_canonical (α := Exact)).2 (shifted 2 3) hfits [2, 3] hsize x
    simpa using hvalue

end Terms

end HybridPlan
