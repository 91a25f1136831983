import HybridPlan.Proofs.Expr.Grammar
import HybridPlan.Proofs.Expr.Outcome

set_option autoImplicit false

/-! # Expressions that are made again

Constructors simplify, so that a constructor applied to operands need not add the node that it is named
for. But what a constructor returns is simplified already: applied to the operands of a node that was
built, the constructor of the node finds nothing to simplify, and gives the node itself. -/

namespace HybridPlan

variable {α : Type} [Scalar α]

/-- The constructor of a node, applied to the operands of the node. -/
def Node.construct : Node α → Build α ExprId
  | .num v => Build.num v
  | .sym s => Build.sym ⟨s, none⟩
  | .neg x => Build.neg x
  | .arith op x y => Build.arith op x y
  | .call f args => Build.call f args
  | .compare op x y => Build.compare op x y
  | .join c items => Build.join c items

/-- In the arena and in all larger ones, the constructor of the node adds the node itself. -/
def Node.Reduced (a : Arena α) (n : Node α) : Prop :=
  ∀ b, a ≤ b → n.construct.run b = (Build.intern n).run b

/-- All nodes of the expression are reduced. -/
abbrev Arena.Reduced (a : Arena α) (e : ExprId) : Prop := a.MadeOf (Node.Reduced a) e

theorem Arena.Reduced.mono {a b : Arena α} {e : ExprId} (h : a.Reduced e) (hab : a ≤ b) :
    b.Reduced e :=
  (Arena.MadeOf.mono hab h).imp fun _ hn c hbc => hn c (le_trans hab hbc)

/-- A reduced expression is what its constructor gives in any larger arena. -/
theorem Arena.Reduced.construct {a b : Arena α} {e : ExprId} (h : a.Reduced e) (hb : b.WellFormed)
    (hab : a ≤ b) : ((a.node e).construct.run b).1 = e := by
  rw [h.holds b hab]
  have hgrown := Build.wellFormed_intern (a.node e) none hb fun x hx =>
    Nat.lt_of_lt_of_le (h.operand hx).lt_size (Arena.size_mono hab)
  exact hgrown.number_unique (Build.getElem?_intern _ none hb)
    (le_trans hab (Build.le_intern b _ none) h.getElem?)

namespace Build

variable {a : Arena α} {x y : ExprId}

/-! ## Constructors lead to reduced expressions -/

theorem leads_reduced_intern {n : Node α} {origin : Option (String × Span)} (ha : a.WellFormed)
    (hx : ∀ x ∈ n.operands, a.Reduced x) (hn : n.Reduced a) :
    Leads (intern n origin) a Arena.Reduced := by
  refine .intern ha (fun x h => (hx x h).lt_size) fun b e hab he => ?_
  exact .node he (fun c hbc => hn c (le_trans hab hbc)) fun x h => (hx x h).mono hab

theorem unsignedZero_unsignedZero (v : α) :
    Scalar.unsignedZero (Scalar.unsignedZero v) = Scalar.unsignedZero v := by
  unfold Scalar.unsignedZero
  by_cases hv : Scalar.isZero v
  · simp [hv]
  · simp [hv]

theorem leads_reduced_num (ha : a.WellFormed) (v : α) : Leads (num v) a Arena.Reduced := by
  refine leads_reduced_intern ha (by simp [Node.operands]) fun b _ => ?_
  rw [Node.construct, num, unsignedZero_unsignedZero]

theorem leads_reduced_sym (ha : a.WellFormed) (name : Name) :
    Leads (sym name) a Arena.Reduced :=
  leads_reduced_intern ha (by simp [Node.operands]) fun _ _ => rfl

theorem run_neg (x : ExprId) (a : Arena α) : (neg x).run a = (match a.node x with
    | .num v => num (-v)
    | .neg y => pure y
    | _ => intern (.neg x)).run a := rfl

theorem run_neg_of_num {v : α} (h : a.node x = .num v) : (neg x).run a = (num (-v)).run a := by
  rw [run_neg, h]

/-- An opposite of what is neither a number nor an opposite is not simplified. -/
theorem reduced_neg (hx : x < a.size) (hnum : ∀ v, a.node x ≠ .num v)
    (hneg : ∀ y, a.node x ≠ .neg y) : (Node.neg x).Reduced a := by
  intro b hab
  rw [Node.construct, run_neg, Arena.node_mono hab hx]
  split
  · next v hv => exact absurd hv (hnum v)
  · next y hy => exact absurd hy (hneg y)
  · rfl

theorem leads_reduced_neg (ha : a.WellFormed) (hx : a.Reduced x) :
    Leads (neg x) a Arena.Reduced := by
  refine .get ?_
  split
  · exact leads_reduced_num ha _
  · next y hy =>
    exact .pure ha (hx.operand (by simp [hy, Node.operands]))
  · next hnum hneg =>
    exact leads_reduced_intern ha (by simpa [Node.operands] using hx)
      (reduced_neg hx.lt_size hnum hneg)

/-- What a constructor of two operands comes down to, when it has seen whether they are numbers. -/
inductive Outcome (op : ArithOp) (x y : ExprId) : Build α ExprId → Prop
  | num (v : α) : Outcome op x y (Build.num v)
  | left : Outcome op x y (pure x)
  | right : Outcome op x y (pure y)
  | negLeft : Outcome op x y (neg x)
  | negRight : Outcome op x y (neg y)
  | node : Outcome op x y (intern (.arith op x y))

/-- What a constructor of two operands does when it has seen whether they are numbers. -/
def combine (op : ArithOp) (x y : ExprId) (u v : Option α) : Build α ExprId :=
  match op with
  | .add =>
    match u, v with
    | some u, some v => Build.num (u + v)
    | u, v =>
      if u.any Scalar.isZero then pure y
      else if v.any Scalar.isZero then pure x
      else intern (.arith .add x y)
  | .sub =>
    if x = y then zero
    else match u, v with
      | some u, some v => Build.num (u - v)
      | u, v =>
        if u.any Scalar.isZero then neg y
        else if v.any Scalar.isZero then pure x
        else intern (.arith .sub x y)
  | .mul =>
    match u, v with
    | some u, some v => Build.num (u * v)
    | u, v =>
      if isNum Scalar.zero u || isNum Scalar.zero v then zero
      else if isNum Scalar.one u then pure y
      else if isNum Scalar.one v then pure x
      else if isNum (-Scalar.one) u then neg y
      else if isNum (-Scalar.one) v then neg x
      else intern (.arith .mul x y)
  | .div =>
    let otherwise (u v : Option α) : Build α ExprId :=
      if isNum Scalar.zero u then pure x
      else if isNum Scalar.one v then pure x
      else if x = y then one
      else intern (.arith .div x y)
    match u, v with
    | some u, some v => if Scalar.isZero v then otherwise (some u) (some v) else Build.num (u / v)
    | u, v => otherwise u v
  | .pow =>
    if isNum Scalar.zero v then one
    else if isNum Scalar.one v then pure x
    else match u, v with
      | some u, some v =>
        if Scalar.isFinite (Scalar.pow u v) then Build.num (Scalar.pow u v) else intern (.arith .pow x y)
      | _, _ => intern (.arith .pow x y)

theorem run_arith (op : ArithOp) (x y : ExprId) (a : Arena α) :
    (arith op x y).run a = (combine op x y (a.num? x) (a.num? y)).run a := by
  cases op with
  | add | mul | div | pow => rfl
  | sub =>
    change (sub x y).run a = (if x = y then zero else _).run a
    unfold sub
    by_cases hxy : x = y
    · rw [if_pos hxy, if_pos hxy]
    · rw [if_neg hxy, if_neg hxy]
      rfl

theorem outcome_combine (op : ArithOp) (x y : ExprId) (u v : Option α) :
    Outcome op x y (combine op x y u v) := by
  cases op with
  | add =>
    dsimp only [combine]
    split
    · exact .num _
    · repeat' split
      · exact .right
      · exact .left
      · exact .node
  | sub =>
    dsimp only [combine]
    split
    · exact .num _
    · split
      · exact .num _
      · repeat' split
        · exact .negRight
        · exact .left
        · exact .node
  | mul =>
    dsimp only [combine]
    split
    · exact .num _
    · repeat' split
      · exact .num _
      · exact .right
      · exact .left
      · exact .negRight
      · exact .negLeft
      · exact .node
  | div =>
    have hotherwise (u v : Option α) : Outcome .div x y (if isNum Scalar.zero u then pure x
        else if isNum Scalar.one v then pure x else if x = y then one
        else intern (.arith .div x y) : Build α ExprId) := by
      repeat' split
      · exact .left
      · exact .left
      · exact .num _
      · exact .node
    dsimp only [combine]
    split
    · split
      · exact hotherwise _ _
      · exact .num _
    · exact hotherwise _ _
  | pow =>
    dsimp only [combine]
    split
    · exact .num _
    · split
      · exact .left
      · repeat' split
        · exact .num _
        · exact .node
        · exact .node

theorem num?_mono {b : Arena α} (hab : a ≤ b) (hx : x < a.size) : b.num? x = a.num? x := by
  rw [Arena.num?, Arena.num?, Arena.node_mono hab hx]

/-- In a larger arena the operands are the same, and so is what is made of them. -/
theorem reduced_arith {op : ArithOp} (hx : x < a.size) (hy : y < a.size)
    (h : combine op x y (a.num? x) (a.num? y) = intern (.arith op x y)) :
    (Node.arith op x y).Reduced a := by
  intro b hab
  rw [Node.construct, run_arith, num?_mono hab hx, num?_mono hab hy, h]

theorem leads_reduced_arith (op : ArithOp) (ha : a.WellFormed) (hx : a.Reduced x)
    (hy : a.Reduced y) : Leads (arith op x y) a Arena.Reduced := by
  have houtcome := outcome_combine op x y (a.num? x) (a.num? y)
  have hrun := run_arith op x y a
  generalize hm : combine op x y (a.num? x) (a.num? y) = m at houtcome hrun
  refine .congr hrun ?_
  cases houtcome with
  | num v => exact leads_reduced_num ha v
  | left => exact .pure ha hx
  | right => exact .pure ha hy
  | negLeft => exact leads_reduced_neg ha hx
  | negRight => exact leads_reduced_neg ha hy
  | node =>
    exact leads_reduced_intern ha (by simp [Node.operands, hx, hy])
      (reduced_arith hx.lt_size hy.lt_size hm)

/-- The value of a call of one number. -/
def callValue (f : Func) (args : List ExprId) (a : Arena α) : Option α :=
  match args with
  | [x] => (a.num? x).bind f.value?
  | _ => none

theorem run_call (f : Func) (args : List ExprId) (a : Arena α) :
    (call f args).run a = (match callValue f args a with
      | some v => if Scalar.isFinite v then num v else intern (.call f args)
      | none => intern (.call f args)).run a := rfl

theorem callValue_mono {b : Arena α} (hab : a ≤ b) (f : Func) {args : List ExprId}
    (hargs : ∀ x ∈ args, x < a.size) : callValue f args b = callValue f args a := by
  unfold callValue
  split
  · next x => rw [num?_mono hab (hargs x List.mem_cons_self)]
  · rfl

/-- A call comes down to its value, which is a finite number, or to a node. -/
theorem call_cases (f : Func) (args : List ExprId) (a : Arena α) :
    (∃ v, callValue f args a = some v ∧ Scalar.isFinite v = true ∧
        (call f args).run a = (num v).run a) ∨
      ∀ b, callValue f args b = callValue f args a →
        (call f args).run b = (intern (.call f args)).run b := by
  cases hvalue : callValue f args a with
  | none =>
    right
    intro b hb
    rw [run_call, hb]
  | some v =>
    by_cases hv : Scalar.isFinite v
    · left
      refine ⟨v, rfl, hv, ?_⟩
      rw [run_call, hvalue]
      dsimp only
      rw [if_pos hv]
    · right
      intro b hb
      rw [run_call, hb]
      dsimp only
      rw [if_neg hv]

theorem leads_reduced_call (f : Func) {args : List ExprId} (ha : a.WellFormed)
    (hargs : ∀ x ∈ args, a.Reduced x) : Leads (call f args) a Arena.Reduced := by
  rcases call_cases f args a with ⟨v, -, -, hv⟩ | hnode
  · exact .congr hv (leads_reduced_num ha v)
  · refine .congr (hnode a rfl) (leads_reduced_intern ha hargs fun b hab => ?_)
    exact hnode b (callValue_mono hab f fun x hx => (hargs x hx).lt_size)

theorem leads_reduced_join (c : Connective) {items : List ExprId} (ha : a.WellFormed)
    (hitems : ∀ x ∈ items, a.Reduced x) : Leads (join c items) a Arena.Reduced := by
  rcases items with _ | ⟨x, _ | ⟨y, items⟩⟩
  · exact leads_reduced_intern ha hitems fun _ _ => rfl
  · exact .pure ha (hitems x List.mem_cons_self)
  · exact leads_reduced_intern ha hitems fun _ _ => rfl

theorem leads_reduced_compare (op : Comparison) (ha : a.WellFormed) (hx : a.Reduced x)
    (hy : a.Reduced y) : Leads (compare op x y) a Arena.Reduced :=
  leads_reduced_intern ha (by simp [Node.operands, hx, hy]) fun _ _ => rfl

end Build

/-! ## Phrases lead to reduced expressions -/

namespace Phrase

variable {source : Source}

mutual

/-- What a phrase builds is reduced, whatever the arena held before. -/
theorem leads_build {a : Arena α} (ha : a.WellFormed) :
    (t : Phrase) → Build.Leads (t.build source) a Arena.Reduced
  | .number m => Build.leads_reduced_num ha _
  | .name s start stop => Build.leads_reduced_sym ha _
  | .opposite x => by
    rw [build]
    exact .bind (leads_build ha x) fun _ _ hb _ hx => Build.leads_reduced_neg hb hx
  | .operation op x y => by
    rw [build]
    refine .bind (leads_build ha x) fun _ _ hb _ hx => ?_
    exact .bind (leads_build hb y) fun _ _ hc hbc hy =>
      Build.leads_reduced_arith op hc (hx.mono hbc) hy
  | .call f args => by
    rw [build]
    exact .bind (leads_buildAll ha args) fun _ _ hb _ hxs => Build.leads_reduced_call f hb hxs
  | .comparison op x y => by
    rw [build]
    refine .bind (leads_build ha x) fun _ _ hb _ hx => ?_
    exact .bind (leads_build hb y) fun _ _ hc hbc hy =>
      Build.leads_reduced_compare op hc (hx.mono hbc) hy
  | .joined c items => by
    rw [build]
    exact .bind (leads_buildAll ha items) fun _ _ hb _ hxs => Build.leads_reduced_join c hb hxs

theorem leads_buildAll {a : Arena α} (ha : a.WellFormed) :
    (ts : List Phrase) → Build.Leads (buildAll source ts) a fun b es => ∀ e ∈ es, b.Reduced e
  | [] => by
    rw [buildAll]
    exact .pure ha (by simp)
  | t :: ts => by
    rw [buildAll]
    refine .bind (leads_build ha t) fun _ _ hb _ hx => ?_
    refine .bind (leads_buildAll hb ts) fun _ _ hc hbc hxs => .pure hc ?_
    exact List.forall_mem_cons.2 ⟨hx.mono hbc, hxs⟩

end

end Phrase

end HybridPlan
