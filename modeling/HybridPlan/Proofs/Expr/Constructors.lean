import HybridPlan.Proofs.Expr.Vocabulary

set_option autoImplicit false

/-! # Constructors stay in a vocabulary

Each constructor of expressions either adds the node it is named for, or a literal computed from
literals, or gives back an operand. In all cases the result uses no more than its operands. -/

namespace HybridPlan

variable {α : Type} [Scalar α]

/-! ## Constructors -/

namespace Build

variable {V : Vocabulary α} {C : Set ExprId} {x y : ExprId}

theorem yields_intern {n : Node α} {origin : Option (String × Span)} (hn : V.Allows n)
    (hx : ∀ x ∈ n.operands, x ∈ C) : Yields V C (intern n origin) ({·}) := by
  intro a ha hC
  have hlt : ∀ x ∈ n.operands, x < a.size := fun x h => (hC x (hx x h)).lt_size
  refine ⟨wellFormed_intern n origin ha hlt, le_intern a n origin, ?_⟩
  rintro _ rfl
  exact .node (getElem?_intern n origin ha) hn fun x h => (hC x (hx x h)).mono (le_intern a n origin)

theorem yields_sym {name : Name} (h : V.symbol name.text) : Yields V C (sym name) ({·}) :=
  yields_intern h (by simp [Node.operands])

theorem yields_compare {op : Comparison} (hconstraint : V.constraint) (hx : x ∈ C) (hy : y ∈ C) :
    Yields V C (compare op x y) ({·}) :=
  yields_intern hconstraint (by simp [Node.operands, hx, hy])

theorem yields_join {c : Connective} {items : List ExprId} (hconstraint : V.constraint)
    (hne : items ≠ []) (h : ∀ x ∈ items, x ∈ C) : Yields V C (join c items) ({·}) := by
  unfold join
  split
  · next x =>
    exact .pure (Set.singleton_subset_iff.2 (h x List.mem_cons_self))
  · exact yields_intern ⟨hconstraint, hne⟩ h

variable (hV : V.Closed)
include hV

theorem yields_num {v : α} (hv : V.literal v) : Yields V C (num v) ({·}) :=
  yields_intern (hV.unsignedZero hv) (by simp [Node.operands])

theorem yields_zero : Yields V C zero ({·}) := yields_num hV hV.zero

theorem yields_one : Yields V C one ({·}) := yields_num hV hV.one

end Build

/-- The literal of an expression of a vocabulary belongs to the vocabulary. -/
theorem Arena.Uses.literal {V : Vocabulary α} {a : Arena α} {x : ExprId} (h : a.Uses V x) {v : α}
    (hv : a.num? x = some v) : V.literal v := by
  have hx := h.holds
  unfold Arena.num? at hv
  split at hv
  · next w hw =>
    rw [hw] at hx
    rwa [← Option.some.inj hv]
  · contradiction

namespace Build

variable {V : Vocabulary α} {C : Set ExprId} {x y : ExprId} (hV : V.Closed)
include hV

theorem yields_neg (hx : x ∈ C) : Yields V C (neg x) ({·}) := by
  refine .get fun a _ hC => ?_
  split
  · next v hv =>
    refine ⟨∅, by simp, yields_num hV (hV.neg _ ?_)⟩
    exact (hC x hx).literal (by simp [Arena.num?, hv])
  · next y hy =>
    refine ⟨{y}, ?_, .pure (by simp)⟩
    rintro _ rfl
    exact (hC x hx).operand (by simp [hy, Node.operands])
  · exact ⟨∅, by simp, yields_intern trivial (by simp [Node.operands, hx])⟩

theorem yields_add (hx : x ∈ C) (hy : y ∈ C) : Yields V C (add x y) ({·}) := by
  refine .get fun a _ hC => ⟨∅, by simp, ?_⟩
  rw [Set.empty_union]
  split
  · next u v hu hv =>
    exact yields_num hV (hV.add _ _ ((hC x hx).literal hu) ((hC y hy).literal hv))
  · exact .ite (.pure (by simpa using hy))
      (.ite (.pure (by simpa using hx)) (yields_intern trivial (by simp [Node.operands, hx, hy])))

theorem yields_sub (hx : x ∈ C) (hy : y ∈ C) : Yields V C (sub x y) ({·}) := by
  refine .ite (yields_zero hV) (.get fun a _ hC => ⟨∅, by simp, ?_⟩)
  rw [Set.empty_union]
  split
  · next u v hu hv =>
    exact yields_num hV (hV.sub _ _ ((hC x hx).literal hu) ((hC y hy).literal hv))
  · exact .ite (yields_neg hV hy)
      (.ite (.pure (by simpa using hx)) (yields_intern trivial (by simp [Node.operands, hx, hy])))

theorem yields_mul (hx : x ∈ C) (hy : y ∈ C) : Yields V C (mul x y) ({·}) := by
  refine .get fun a _ hC => ⟨∅, by simp, ?_⟩
  rw [Set.empty_union]
  split
  · next u v hu hv =>
    exact yields_num hV (hV.mul _ _ ((hC x hx).literal hu) ((hC y hy).literal hv))
  · refine .ite (yields_zero hV) ?_
    refine .ite (.pure (by simpa using hy)) (.ite (.pure (by simpa using hx)) ?_)
    refine .ite (yields_neg hV hy) (.ite (yields_neg hV hx) ?_)
    exact yields_intern trivial (by simp [Node.operands, hx, hy])

theorem yields_div (hx : x ∈ C) (hy : y ∈ C) : Yields V C (div x y) ({·}) := by
  have otherwise (u v : Option α) : Yields V C
      (if isNum Scalar.zero u then pure x else if isNum Scalar.one v then pure x
        else if x = y then one else intern (.arith .div x y)) ({·}) := by
    refine .ite (.pure (by simpa using hx)) (.ite (.pure (by simpa using hx)) ?_)
    exact .ite (yields_one hV) (yields_intern trivial (by simp [Node.operands, hx, hy]))
  refine .get fun a _ hC => ⟨∅, by simp, ?_⟩
  rw [Set.empty_union]
  dsimp only
  split
  · next u v hu hv =>
    split
    · exact otherwise _ _
    · next hzero =>
      exact yields_num hV (hV.div _ _ ((hC x hx).literal hu) ((hC y hy).literal hv) hzero)
  · exact otherwise _ _

theorem yields_pow (hx : x ∈ C) (hy : y ∈ C) : Yields V C (pow x y) ({·}) := by
  have general : Yields V C (intern (.arith .pow x y)) ({·}) :=
    yields_intern trivial (by simp [Node.operands, hx, hy])
  refine .look fun a => .ite (yields_one hV) (.ite (.pure (by simpa using hx)) ?_)
  dsimp only
  split
  · split
    · next hfinite => exact yields_num hV (hV.finite _ hfinite)
    · exact general
  · exact general

theorem yields_powInt {n : Int} (hx : x ∈ C) : Yields V C (powInt x n) ({·}) :=
  .bind (yields_num hV (hV.int n)) fun _ => yields_pow hV (.inr hx) (.inl rfl)

theorem yields_arith (op : ArithOp) (hx : x ∈ C) (hy : y ∈ C) :
    Yields V C (arith op x y) ({·}) := by
  cases op with
  | add => exact yields_add hV hx hy
  | sub => exact yields_sub hV hx hy
  | mul => exact yields_mul hV hx hy
  | div => exact yields_div hV hx hy
  | pow => exact yields_pow hV hx hy

theorem yields_call {f : Func} {args : List ExprId} (hf : V.function f args.length)
    (h : ∀ x ∈ args, x ∈ C) : Yields V C (call f args) ({·}) := by
  have general : Yields V C (intern (.call f args)) ({·}) := yields_intern hf h
  refine .look fun a => ?_
  dsimp only
  split
  · split
    · next hfinite => exact yields_num hV (hV.finite _ hfinite)
    · exact general
  · exact general

theorem yields_call₁ {f : Elementary} (hx : x ∈ C) : Yields V C (call₁ f x) ({·}) :=
  yields_call hV (hV.elementary f) (by simpa using hx)

end Build

end HybridPlan
