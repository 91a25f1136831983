import HybridPlan.Expr.Subterms
import HybridPlan.Proofs.Expr.Vocabulary
import HybridPlan.Proofs.Expr.Walk

set_option autoImplicit false

/-! # What the subterms of an expression are

The walk over an expression, as a recursion over its operands, finishes all nodes that are reachable
from it. A node that was met before is either finished or still being walked through, and operands have
smaller numbers, so the walk never comes back to a node that it is walking through. -/

namespace HybridPlan

variable {α : Type} [Scalar α]

namespace Arena

variable {a : Arena α} {w w' w₁ w₂ : Walk} {m n : Nat} {e : ExprId}

/-! ## Operands first -/

/-- The operands of a listed node are listed before it. -/
def OperandsFirst (a : Arena α) (l : List ExprId) : Prop :=
  ∀ before x after, l = before ++ x :: after → ∀ y ∈ (a.node x).operands, y ∈ before

theorem OperandsFirst.nil : a.OperandsFirst [] := by
  intro before x after h
  simp at h

theorem OperandsFirst.concat {l : List ExprId} (hl : a.OperandsFirst l)
    (he : ∀ y ∈ (a.node e).operands, y ∈ l) : a.OperandsFirst (l ++ [e]) := by
  intro before x after h
  rcases List.eq_nil_or_concat after with rfl | ⟨after, z, rfl⟩
  · obtain ⟨rfl, hx⟩ := List.append_inj' h rfl
    obtain rfl : e = x := List.singleton_inj.1 hx
    exact he
  · have h : l ++ [e] = (before ++ x :: after) ++ [z] := by simpa using h
    exact hl before x after (List.append_inj' h rfl).1

theorem OperandsFirst.mem {l : List ExprId} (hl : a.OperandsFirst l) {x y : ExprId} (hx : x ∈ l)
    (hy : y ∈ (a.node x).operands) : y ∈ l := by
  obtain ⟨before, after, h⟩ := List.append_of_mem hx
  rw [h]
  exact List.mem_append_left _ (hl before x after h y hy)

/-! ## Walks -/

/-- Operands are finished before the nodes that use them, and what was met below `m` is finished. -/
structure Walk.Sound (a : Arena α) (m : Nat) (w : Walk) : Prop where
  ordered : a.OperandsFirst w.finished.toList
  met : ∀ x, w.met.contains x → x ∈ w.finished ∨ m ≤ x

/-- A walk that goes on finishes what it meets. -/
structure Walk.Continues (w w' : Walk) : Prop where
  finished : ∀ x ∈ w.finished, x ∈ w'.finished
  met : ∀ x, w'.met.contains x → x ∈ w'.finished ∨ w.met.contains x

theorem Walk.Continues.refl (w : Walk) : w.Continues w := ⟨fun _ hx => hx, fun _ hx => .inr hx⟩

theorem Walk.Continues.trans (h : w.Continues w₁) (h' : w₁.Continues w₂) : w.Continues w₂ := by
  refine ⟨fun x hx => h'.finished x (h.finished x hx), fun x hx => ?_⟩
  rcases h'.met x hx with hx | hx
  · exact .inl hx
  · rcases h.met x hx with hx | hx
    · exact .inl (h'.finished x hx)
    · exact .inr hx

/-- A walk over a list of expressions. -/
theorem foldl_sound {f : Walk → ExprId → Walk} {l : List ExprId}
    (hf : ∀ x ∈ l, ∀ w : Walk, w.Sound a m →
      (f w x).Sound a m ∧ w.Continues (f w x) ∧ x ∈ (f w x).finished)
    (hw : w.Sound a m) :
    (l.foldl f w).Sound a m ∧ w.Continues (l.foldl f w) ∧ ∀ x ∈ l, x ∈ (l.foldl f w).finished := by
  induction l generalizing w with
  | nil => exact ⟨hw, .refl w, fun x hx => absurd hx List.not_mem_nil⟩
  | cons x l ih =>
    obtain ⟨hsound, hcontinues, hx⟩ := hf x List.mem_cons_self w hw
    obtain ⟨hsound', hcontinues', hl⟩ := ih (fun y hy => hf y (List.mem_cons_of_mem _ hy)) hsound
    refine ⟨hsound', hcontinues.trans hcontinues', fun y hy => ?_⟩
    rcases List.mem_cons.1 hy with rfl | hy
    · exact hcontinues'.finished y hx
    · exact hl y hy

/-- The walk over an expression finishes it and all of its operands. -/
theorem walkBelow_sound (ha : a.WellFormed) (hn : e < n) (hm : e < m) (hw : w.Sound a m) :
    (a.walkBelow n w e).Sound a m ∧ w.Continues (a.walkBelow n w e) ∧
      e ∈ (a.walkBelow n w e).finished := by
  induction n generalizing e m w with
  | zero => exact absurd hn (Nat.not_lt_zero e)
  | succ n ih =>
    unfold walkBelow
    by_cases hmet : w.met.contains e
    · rw [if_pos hmet]
      exact ⟨hw, .refl w, (hw.met e hmet).resolve_right (Nat.not_le_of_lt hm)⟩
    · rw [if_neg hmet]
      have hinsert (x : ExprId) (hx : (w.met.insert e).contains x) : x = e ∨ w.met.contains x := by
        simp only [Std.HashSet.contains_insert, Bool.or_eq_true, beq_iff_eq] at hx
        exact hx.imp_left Eq.symm
      -- below `e` everything that was met is finished, although `e` itself is not
      have hbegun : Walk.Sound a e { w with met := w.met.insert e } := by
        refine ⟨hw.ordered, fun x hx => ?_⟩
        rcases hinsert x hx with rfl | hx
        · exact .inr (Nat.le_refl _)
        · exact (hw.met x hx).imp_right fun hle => Nat.le_trans (Nat.le_of_lt hm) hle
      obtain ⟨hsound, hcontinues, hoperands⟩ := foldl_sound (f := a.walkBelow n)
        (l := (a.node e).operands) (fun x hx w hw => by
          have hlt : x < e := ha.lt_of_mem_operands hx
          exact ih (Nat.lt_of_lt_of_le hlt (Nat.le_of_lt_succ hn)) hlt hw) hbegun
      -- and once its operands are finished, so is `e`
      dsimp only
      generalize (a.node e).operands.foldl (a.walkBelow n) { w with met := w.met.insert e } = w₁
        at hsound hcontinues hoperands ⊢
      have hcontinues : w.Continues { w₁ with finished := w₁.finished.push e } := by
        refine ⟨fun x hx => Array.mem_push_of_mem _ (hcontinues.finished x hx), fun x hx => ?_⟩
        rcases hcontinues.met x hx with hx | hx
        · exact .inl (Array.mem_push_of_mem _ hx)
        · rcases hinsert x hx with rfl | hx
          · exact .inl Array.mem_push_self
          · exact .inr hx
      refine ⟨⟨?_, fun x hx => ?_⟩, hcontinues, Array.mem_push_self⟩
      · rw [Array.toList_push]
        exact hsound.ordered.concat fun y hy => Array.mem_toList_iff.2 (hoperands y hy)
      · rcases hcontinues.met x hx with hx | hx
        · exact .inl hx
        · exact (hw.met x hx).imp_left (hcontinues.finished x)

/-! ## Subterms and symbols -/

theorem subterms_sound (ha : a.WellFormed) (e : ExprId) :
    a.OperandsFirst (a.subterms e) ∧ e ∈ a.subterms e := by
  have hempty : Walk.Sound a (e + 1) {} := ⟨.nil, fun x hx => by simp at hx⟩
  obtain ⟨hsound, -, he⟩ := walkBelow_sound ha (Nat.lt_succ_self e) (Nat.lt_succ_self e) hempty
  rw [subterms_eq ha]
  exact ⟨hsound.ordered, Array.mem_toList_iff.2 he⟩

theorem self_mem_subterms (ha : a.WellFormed) (e : ExprId) : e ∈ a.subterms e :=
  (subterms_sound ha e).2

theorem operandsFirst_subterms (ha : a.WellFormed) (e : ExprId) : a.OperandsFirst (a.subterms e) :=
  (subterms_sound ha e).1

theorem operands_mem_subterms (ha : a.WellFormed) {x y : ExprId} (hx : x ∈ a.subterms e)
    (hy : y ∈ (a.node x).operands) : y ∈ a.subterms e :=
  (operandsFirst_subterms ha e).mem hx hy

/-- A walk finishes nothing but what is on the stack and what lies below it. -/
theorem walk_closed {P : ExprId → Prop} (hP : ∀ x, P x → ∀ y ∈ (a.node x).operands, P y)
    {stack : List (ExprId × Bool)} (hw : ∀ x ∈ w.finished, P x) (hstack : ∀ p ∈ stack, P p.1) :
    ∀ x ∈ (a.walk n w stack).finished, P x := by
  induction n generalizing w stack with
  | zero => exact hw
  | succ n ih =>
    rcases stack with _ | ⟨⟨e, _ | _⟩, stack⟩
    · exact hw
    · have he : P e := hstack (e, false) List.mem_cons_self
      have hrest := fun p hp => hstack p (List.mem_cons_of_mem _ hp)
      rw [walk]
      split
      · exact ih hw hrest
      · refine ih hw fun p hp => ?_
        rcases List.mem_append.1 hp with hp | hp
        · obtain ⟨y, hy, rfl⟩ := List.mem_map.1 hp
          exact hP e he y (List.mem_of_mem_filter hy)
        · rcases List.mem_cons.1 hp with rfl | hp
          · exact he
          · exact hrest p hp
    · refine ih (fun x hx => ?_) fun p hp => hstack p (List.mem_cons_of_mem _ hp)
      rcases Array.mem_push.1 hx with hx | rfl
      · exact hw x hx
      · exact hstack (x, true) List.mem_cons_self

theorem subterms_closed {P : ExprId → Prop} (hP : ∀ x, P x → ∀ y ∈ (a.node x).operands, P y)
    (he : P e) : ∀ x ∈ a.subterms e, P x := by
  intro x hx
  exact walk_closed (w := {}) hP (fun y hy => by simp at hy) (by simpa using he) x
    (Array.mem_toList_iff.1 hx)

theorem MadeOf.subterm {P : Node α → Prop} (he : a.MadeOf P e) {x : ExprId}
    (hx : x ∈ a.subterms e) : a.MadeOf P x :=
  subterms_closed (fun _ h _ hy => h.operand hy) he x hx

/-- What holds of all subterms of an expression makes it up. -/
theorem MadeOf.of_subterms {P Q : Node α → Prop} (ha : a.WellFormed) (he : a.MadeOf P e)
    (h : ∀ x ∈ a.subterms e, P (a.node x) → Q (a.node x)) : a.MadeOf Q e := by
  suffices ∀ x, a.MadeOf P x → x ∈ a.subterms e → a.MadeOf Q x from
    this e he (self_mem_subterms ha e)
  intro x hx
  induction hx with
  | node hnode hn _ ih =>
    intro hmem
    have hn' := Arena.node_eq_of_getElem? hnode
    refine .node hnode (hn' ▸ h _ hmem (hn'.symm ▸ hn)) fun y hy => ih y hy ?_
    exact operands_mem_subterms ha hmem (hn'.symm ▸ hy)

theorem mem_symbols {s : String} {x : ExprId} (hx : x ∈ a.subterms e) (hs : a.node x = .sym s) :
    s ∈ a.symbols e := by
  rw [symbols, List.mem_mergeSort, List.mem_filterMap]
  exact ⟨x, hx, by simp [sym?, hs]⟩

/-- An expression uses its symbols only. -/
theorem Uses.of_symbols {V : Vocabulary α} {P : String → Prop} (ha : a.WellFormed)
    (he : a.Uses V e) (h : ∀ s ∈ a.symbols e, P s) : a.Uses { V with symbol := P } e := by
  refine MadeOf.of_subterms ha he fun x hx hallows => ?_
  cases hn : a.node x with
  | sym s => exact h s (mem_symbols hx hn)
  | num | neg | arith | call | compare | join =>
    rw [hn] at hallows
    exact hallows

/-- A symbol that is not in the vocabulary of an expression does not occur in it. -/
theorem Uses.dependsOn_eq_false {V : Vocabulary α} (he : a.Uses V e) {s : String}
    (hs : ¬V.symbol s) : a.dependsOn e s = false := by
  rw [dependsOn, List.any_eq_false]
  intro x hx hsym
  have hallows := (he.subterm hx).holds
  rw [sym?, decide_eq_true_eq] at hsym
  split at hsym
  · next t hnode =>
    cases hsym
    rw [hnode] at hallows
    exact hs hallows
  · cases hsym

end Arena

end HybridPlan
