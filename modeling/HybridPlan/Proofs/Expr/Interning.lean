import HybridPlan.Proofs.Expr.Reduced

set_option autoImplicit false

/-! # Arenas that grow by constructors

A constructor interns nodes one after the other. Each of them is made of expressions that are there,
and is what its own constructor adds, so that no constructor ever simplifies it. This is all that
needs to be known of the steps of a construction, whether it succeeds or not: numbers, nodes and the
places of symbols stay, and a node is found again by its constructor. -/

namespace HybridPlan

variable {α : Type} [Scalar α]

theorem Node.Reduced.mono {a b : Arena α} {n : Node α} (h : n.Reduced a) (hab : a ≤ b) : n.Reduced b :=
  fun c hbc => h c (le_trans hab hbc)

namespace Arena

/-! ## Steps -/

/-- The number is that of an expression of the arena. -/
def Has (a : Arena α) (e : ExprId) : Prop := e < a.size

theorem Has.mono {a b : Arena α} {e : ExprId} (h : a.Has e) (hab : a ≤ b) : b.Has e :=
  Nat.lt_of_lt_of_le h (size_mono hab)

theorem WellFormed.has_operand {a : Arena α} {e x : ExprId} (ha : a.WellFormed) (he : a.Has e)
    (hx : x ∈ (a.node e).operands) : a.Has x :=
  Nat.lt_trans (ha.lt_of_mem_operands hx) he

/-- Reduced nodes are interned one after the other, and only symbols bring along where they were
written. -/
inductive Grows (a : Arena α) : Arena α → Prop
  | refl : Grows a a
  | intern {b : Arena α} {n : Node α} {origin : Option (String × Span)} (h : Grows a b)
      (hn : ∀ x ∈ n.operands, b.Has x) (hreduced : n.Reduced b)
      (horigin : ∀ s span, origin = some (s, span) → n = .sym s) :
      Grows a ((Build.intern n origin).run b).2

variable {a b c : Arena α} {e : ExprId}

theorem Grows.trans (h : a.Grows b) (h' : b.Grows c) : a.Grows c := by
  induction h' with
  | refl => exact h
  | intern _ hn hreduced horigin ih => exact .intern ih hn hreduced horigin

theorem Grows.le (h : a.Grows b) : a ≤ b := by
  induction h with
  | refl => exact le_refl a
  | intern _ _ _ _ ih => exact le_trans ih (Build.le_intern _ _ _)

theorem Grows.wellFormed (h : a.Grows b) (ha : a.WellFormed) : b.WellFormed := by
  induction h with
  | refl => exact ha
  | intern _ hn _ _ ih => exact Build.wellFormed_intern _ _ ih hn

theorem Grows.has (h : a.Grows b) (he : a.Has e) : b.Has e := he.mono h.le

/-! ## Nodes that are found again -/

/-- Every node of the arena is what its constructor adds. -/
def AllReduced (a : Arena α) : Prop :=
  ∀ ⦃e : ExprId⦄ ⦃n : Node α⦄, a.table.items[e]? = some n → n.Reduced a

theorem allReduced_empty : AllReduced ({} : Arena α) := fun e n h => by simp at h

theorem Grows.allReduced (h : a.Grows b) (ha : a.AllReduced) : b.AllReduced := by
  induction h with
  | refl => exact ha
  | @intern b n origin _ _ hreduced _ ih =>
    intro e m hm
    have hle := Build.le_intern b n origin
    rcases Build.eq_of_getElem?_intern n origin hm with hm | ⟨rfl, -⟩
    · exact (ih hm).mono hle
    · exact hreduced.mono hle

/-- A node that is there is not added again. -/
theorem WellFormed.run_intern (ha : a.WellFormed) {n : Node α} (he : a.table.items[e]? = some n) :
    (Build.intern n).run a = (e, a) := by
  have hindex : a.table.index[n]? = some e := (ha.table n e).2 he
  have htable : a.table.intern n = (e, a.table) := by
    unfold Interner.intern
    rw [hindex]
  have harena : ((Build.intern n).run a).2 = a := by
    have horigins : ((Build.intern n).run a).2.origins = a.origins :=
      (Build.origins_intern a n none).resolve_right (by simp)
    have htables : ((Build.intern n).run a).2.table = a.table := by
      rw [Build.table_intern, htable]
    calc ((Build.intern n).run a).2
        = ⟨((Build.intern n).run a).2.table, ((Build.intern n).run a).2.origins⟩ := rfl
      _ = a := by rw [htables, horigins]
  have hnumber : ((Build.intern n).run a).1 = e := by rw [Build.fst_intern, htable]
  exact Prod.ext hnumber harena

/-- Any node made of expressions of the arena may be added. -/
theorem WellFormed.exists_interned (ha : a.WellFormed) (n : Node α) (hn : ∀ x ∈ n.operands, a.Has x) :
    ∃ (b : Arena α) (e : ExprId), a ≤ b ∧ b.WellFormed ∧ b.table.items[e]? = some n :=
  ⟨_, _, Build.le_intern a n none, Build.wellFormed_intern n none ha hn,
    Build.getElem?_intern n none ha⟩

theorem WellFormed.run_construct (ha : a.WellFormed) {n : Node α} (he : a.table.items[e]? = some n)
    (hn : n.Reduced a) : n.construct.run a = (e, a) := by
  rw [hn a (le_refl a), ha.run_intern he]

/-- A literal has no sign if it is zero. -/
theorem WellFormed.literal_unsigned (ha : a.WellFormed) {v : α}
    (he : a.table.items[e]? = some (.num v)) (hn : (Node.num v).Reduced a) :
    Scalar.unsignedZero v = v := by
  have hitem := Build.getElem?_intern (.num (Scalar.unsignedZero v)) none ha
  have hrun : (Build.intern (.num (Scalar.unsignedZero v))).run a = (e, a) :=
    ha.run_construct he hn
  rw [hrun, he] at hitem
  injection hitem with hitem
  injection hitem with hitem
  exact hitem.symm

/-- Several constraints are joined, or none. -/
theorem WellFormed.length_join (ha : a.WellFormed) {k : Connective} {items : List ExprId}
    (he : a.table.items[e]? = some (.join k items)) (hn : (Node.join k items).Reduced a) :
    items.length ≠ 1 := by
  intro hlength
  obtain ⟨x, rfl⟩ := List.length_eq_one_iff.1 hlength
  have hrun : (x, a) = (e, a) := ha.run_construct he hn
  have hlt : x < e := ha.operands_lt he x List.mem_cons_self
  exact Nat.ne_of_lt hlt (congrArg Prod.fst hrun)

/-! ## Places of symbols -/

theorem symName?_intern (ha : a.WellFormed) {n : Node α} {origin : Option (String × Span)}
    (horigin : ∀ s span, origin = some (s, span) → n = .sym s) (he : a.Has e) :
    ((Build.intern n origin).run a).2.symName? e = a.symName? e := by
  have hnode : ((Build.intern n origin).run a).2.node e = a.node e :=
    node_mono (Build.le_intern a n origin) he
  unfold symName? sym?
  rw [hnode]
  split
  · next s hs =>
    have horigins : ((Build.intern n origin).run a).2.origins[s]? = a.origins[s]? := by
      rcases Build.origins_intern a n origin with h | ⟨hnew, s', span, hplace, h⟩
      · rw [h]
      · -- a symbol that is new is another one
        have hne : s' ≠ s := by
          rintro rfl
          rw [horigin s' span hplace, Interner.find?,
            (ha.table _ e).2 (hs ▸ getElem?_of_lt_size he)] at hnew
          cases hnew
        rw [h, Std.HashMap.getElem?_insert, if_neg (by simpa using hne)]
    rw [Option.map_some, Option.map_some, horigins]
  · rfl

theorem Grows.symName? (h : a.Grows b) (ha : a.WellFormed) (he : a.Has e) :
    b.symName? e = a.symName? e := by
  induction h with
  | refl => rfl
  | intern h _ _ horigin ih =>
    rw [symName?_intern (h.wellFormed ha) horigin (h.has he), ih]

end Arena

/-! ## Constructions -/

namespace Build

/-- From the arena the construction comes to one that has grown by constructors, and this holds of
its result there. -/
structure Extends {ι : Type} (m : Build α ι) (a : Arena α) (Q : Arena α → ι → Prop) : Prop where
  wellFormed : (m.run a).2.WellFormed
  grows : a.Grows (m.run a).2
  holds : Q (m.run a).2 (m.run a).1

namespace Extends

variable {ι κ : Type} {m : Build α ι} {f : ι → Build α κ} {a : Arena α}
  {P P' : Arena α → ι → Prop} {Q : Arena α → κ → Prop}

theorem pure {i : ι} (ha : a.WellFormed) (h : P a i) : Extends (Pure.pure i) a P := ⟨ha, .refl, h⟩

theorem bind (hm : Extends m a P)
    (hf : ∀ i b, b.WellFormed → a ≤ b → P b i → Extends (f i) b Q) : Extends (m >>= f) a Q := by
  have hrest := hf _ _ hm.wellFormed hm.grows.le hm.holds
  exact ⟨hrest.wellFormed, hm.grows.trans hrest.grows, hrest.holds⟩

theorem get {f : Arena α → Build α κ} (h : Extends (f a) a Q) :
    Extends (MonadState.get >>= f) a Q :=
  ⟨h.wellFormed, h.grows, h.holds⟩

theorem congr {m' : Build α ι} (hrun : m.run a = m'.run a) (h : Extends m' a P) : Extends m a P := by
  refine ⟨?_, ?_, ?_⟩ <;> rw [hrun]
  · exact h.wellFormed
  · exact h.grows
  · exact h.holds

theorem imp (h : Extends m a P) (hP : ∀ b i, P b i → P' b i) : Extends m a P' :=
  ⟨h.wellFormed, h.grows, hP _ _ h.holds⟩

theorem intern {n : Node α} {origin : Option (String × Span)} (ha : a.WellFormed)
    (hn : ∀ x ∈ n.operands, a.Has x) (hreduced : n.Reduced a)
    (horigin : ∀ s span, origin = some (s, span) → n = .sym s) :
    Extends (Build.intern n origin) a Arena.Has :=
  ⟨wellFormed_intern n origin ha hn, .intern .refl hn hreduced horigin,
    Arena.lt_size_of_getElem? (getElem?_intern n origin ha)⟩

end Extends

/-! ## Constructors -/

variable {a : Arena α} {x y : ExprId}

theorem extends_num (ha : a.WellFormed) (v : α) : Extends (num v) a Arena.Has := by
  refine .intern ha (by simp [Node.operands]) (fun b _ => ?_) (by simp)
  rw [Node.construct, num, unsignedZero_unsignedZero]

theorem extends_sym (ha : a.WellFormed) (name : Name) : Extends (sym name) a Arena.Has := by
  refine .intern ha (by simp [Node.operands]) (fun b _ => rfl) fun s span h => ?_
  obtain ⟨_, -, hname⟩ := Option.map_eq_some_iff.1 h
  exact congrArg Node.sym (congrArg Prod.fst hname)

theorem extends_neg (ha : a.WellFormed) (hx : a.Has x) : Extends (neg x) a Arena.Has := by
  refine .get ?_
  split
  · exact extends_num ha _
  · next y hy =>
    have hlt : y < x := ha.lt_of_mem_operands (by simp [hy, Node.operands])
    exact .pure ha (Nat.lt_trans hlt hx)
  · next hnum hneg =>
    exact .intern ha (by simpa [Node.operands] using hx) (reduced_neg hx hnum hneg) (by simp)

theorem extends_arith (op : ArithOp) (ha : a.WellFormed) (hx : a.Has x) (hy : a.Has y) :
    Extends (arith op x y) a Arena.Has := by
  have houtcome := outcome_combine op x y (a.num? x) (a.num? y)
  have hrun := run_arith op x y a
  generalize hm : combine op x y (a.num? x) (a.num? y) = m at houtcome hrun
  refine .congr hrun ?_
  cases houtcome with
  | num v => exact extends_num ha v
  | left => exact .pure ha hx
  | right => exact .pure ha hy
  | negLeft => exact extends_neg ha hx
  | negRight => exact extends_neg ha hy
  | node =>
    exact .intern ha (by simp [Node.operands, hx, hy]) (reduced_arith hx hy hm) (by simp)

theorem extends_powInt (ha : a.WellFormed) (hx : a.Has x) (n : Int) :
    Extends (powInt x n) a Arena.Has :=
  .bind (extends_num ha _) fun _ _ hb hab hn => extends_arith .pow hb (hx.mono hab) hn

theorem extends_call (f : Func) {args : List ExprId} (ha : a.WellFormed)
    (hargs : ∀ x ∈ args, a.Has x) : Extends (call f args) a Arena.Has := by
  rcases call_cases f args a with ⟨v, -, -, hv⟩ | hnode
  · exact .congr hv (extends_num ha v)
  · refine .congr (hnode a rfl) (.intern ha hargs (fun b hab => ?_) (by simp))
    exact hnode b (callValue_mono hab f hargs)

theorem extends_call₁ (f : Elementary) (ha : a.WellFormed) (hx : a.Has x) :
    Extends (call₁ f x) a Arena.Has :=
  extends_call _ ha (by simpa using hx)

theorem extends_compare (op : Comparison) (ha : a.WellFormed) (hx : a.Has x) (hy : a.Has y) :
    Extends (compare op x y) a Arena.Has :=
  .intern ha (by simp [Node.operands, hx, hy]) (fun _ _ => rfl) (by simp)

theorem extends_join (c : Connective) {items : List ExprId} (ha : a.WellFormed)
    (hitems : ∀ x ∈ items, a.Has x) : Extends (join c items) a Arena.Has := by
  rcases items with _ | ⟨x, _ | ⟨y, items⟩⟩
  · exact .intern ha hitems (fun _ _ => rfl) (by simp)
  · exact .pure ha (hitems x List.mem_cons_self)
  · exact .intern ha hitems (fun _ _ => rfl) (by simp)

end Build

end HybridPlan
