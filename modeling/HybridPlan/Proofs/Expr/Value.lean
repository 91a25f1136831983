import HybridPlan.Expr.Eval
import HybridPlan.Proofs.Expr.Constructors
import HybridPlan.Proofs.Numbers.Exact

set_option autoImplicit false

/-! # Values of expressions

An arithmetic expression has a value if all of its symbols have one; over exact numbers the value can
be undefined. The folding constructors keep values as far as these are real: `x - x` is `0` also
where `x` is undefined.

How operators work on numbers is a parameter. They may compute `x ** 0` without a look at `x`, as the
evaluation does, or insist on real numbers. -/

namespace HybridPlan

open Exact (real)

/-! ## Values -/

section

variable {α : Type} [Scalar α]

/-- The value of a node over the values of its operands. -/
def Node.Value (ops : ArithOp → α → α → α) (v : Valuation α) (operand : ExprId → α → Prop) :
    Node α → α → Prop
  | num x, u => x = u
  | sym s, u => v s = some u
  | neg x, u => ∃ w, operand x w ∧ -w = u
  | arith op x y, u => ∃ w w', operand x w ∧ operand y w' ∧ ops op w w' = u
  | call (.elementary f) [x], u => ∃ w, operand x w ∧ f.value w = u
  | call _ _, _ | compare _ _ _, _ | join _ _, _ => False

namespace Arena

/-- The value of an arithmetic expression. -/
inductive Value (ops : ArithOp → α → α → α) (a : Arena α) (v : Valuation α) : ExprId → α → Prop
  | num {e : ExprId} {u : α} (he : a.node e = .num u) : Value ops a v e u
  | sym {e : ExprId} {s : String} {u : α} (he : a.node e = .sym s) (hs : v s = some u) :
      Value ops a v e u
  | neg {e x : ExprId} {u : α} (he : a.node e = .neg x) (hx : Value ops a v x u) :
      Value ops a v e (-u)
  | arith {op : ArithOp} {e x y : ExprId} {u w : α} (he : a.node e = .arith op x y)
      (hx : Value ops a v x u) (hy : Value ops a v y w) : Value ops a v e (ops op u w)
  | call {f : Elementary} {e x : ExprId} {u : α} (he : a.node e = .call (.elementary f) [x])
      (hx : Value ops a v x u) : Value ops a v e (f.value u)

variable {ops : ArithOp → α → α → α} {a b : Arena α} {v v' : Valuation α} {n : Nat} {e : ExprId}
  {u w : α}

theorem value_iff : a.Value ops v e u ↔ (a.node e).Value ops v (a.Value ops v) u := by
  constructor
  · intro h
    cases h with
    | num he => rw [he]; rfl
    | sym he hs => rw [he]; exact hs
    | neg he hx => rw [he]; exact ⟨_, hx, rfl⟩
    | arith he hx hy => rw [he]; exact ⟨_, _, hx, hy, rfl⟩
    | call he hx => rw [he]; exact ⟨_, hx, rfl⟩
  · intro h
    cases he : a.node e with
    | num x =>
      rw [he] at h
      obtain rfl : x = u := h
      exact .num he
    | sym s =>
      rw [he] at h
      exact .sym he h
    | neg x =>
      rw [he] at h
      obtain ⟨w, hx, rfl⟩ := h
      exact .neg he hx
    | arith op x y =>
      rw [he] at h
      obtain ⟨w, w', hx, hy, rfl⟩ := h
      exact .arith he hx hy
    | call f args =>
      rw [he] at h
      rcases f with f | _
      · rcases args with _ | ⟨x, _ | _⟩
        · exact h.elim
        · obtain ⟨w, hx, rfl⟩ := h
          exact .call he hx
        · exact h.elim
      · exact h.elim
    | compare | join =>
      rw [he] at h
      exact h.elim

/-- The value of an expression, by its node. -/
theorem Value.of_node {k : Node α} (h : a.Value ops v e u) (hn : a.node e = k) :
    k.Value ops v (a.Value ops v) u :=
  hn ▸ value_iff.1 h

/-- An expression has one value at most. -/
theorem Value.unique (h : a.Value ops v e u) (h' : a.Value ops v e w) : u = w := by
  induction h generalizing w with
  | num he =>
    exact h'.of_node he
  | sym he hs =>
    exact Option.some.inj (hs.symm.trans (h'.of_node he))
  | neg he _ ihx =>
    obtain ⟨w', hx, rfl⟩ := h'.of_node he
    rw [ihx hx]
  | arith he _ _ ihx ihy =>
    obtain ⟨w₁, w₂, hx, hy, rfl⟩ := h'.of_node he
    rw [ihx hx, ihy hy]
  | call he _ ihx =>
    obtain ⟨w', hx, rfl⟩ := h'.of_node he
    rw [ihx hx]

/-- A value depends on the values of the symbols that the expression uses. -/
theorem Value.congr {V : Vocabulary α} (h : a.Value ops v e u) (he : a.Uses V e)
    (hv : ∀ s w, V.symbol s → v s = some w → v' s = some w) : a.Value ops v' e u := by
  induction h with
  | num hnode => exact .num hnode
  | sym hnode hs =>
    have hsymbol := he.holds
    rw [hnode] at hsymbol
    exact .sym hnode (hv _ _ hsymbol hs)
  | neg hnode _ ih => exact .neg hnode (ih (he.operand (by simp [hnode, Node.operands])))
  | arith hnode _ _ ihx ihy =>
    exact .arith hnode (ihx (he.operand (by simp [hnode, Node.operands])))
      (ihy (he.operand (by simp [hnode, Node.operands])))
  | call hnode _ ihx => exact .call hnode (ihx (he.operand (by simp [hnode, Node.operands])))

/-! ## Larger arenas -/

/-- Two arenas have the same nodes up to a number, and operands below it. -/
def AgreeBelow (n : Nat) (a b : Arena α) : Prop :=
  ∀ e < n, b.node e = a.node e ∧ ∀ x ∈ (a.node e).operands, x < n

theorem AgreeBelow.symm (h : AgreeBelow n a b) : AgreeBelow n b a :=
  fun e he => ⟨(h e he).1.symm, (h e he).1 ▸ (h e he).2⟩

theorem agreeBelow_of_le (ha : a.WellFormed) (hab : a ≤ b) : AgreeBelow a.size a b :=
  fun _ he => ⟨node_mono hab he, fun _ hx => Nat.lt_trans (ha.lt_of_mem_operands hx) he⟩

theorem AgreeBelow.value (h : AgreeBelow n a b) (he : e < n) (hu : a.Value ops v e u) :
    b.Value ops v e u := by
  induction hu with
  | num hnode => exact .num ((h _ he).1.trans hnode)
  | sym hnode hs => exact .sym ((h _ he).1.trans hnode) hs
  | neg hnode _ ih =>
    exact .neg ((h _ he).1.trans hnode) (ih ((h _ he).2 _ (by simp [hnode, Node.operands])))
  | arith hnode _ _ ihx ihy =>
    exact .arith ((h _ he).1.trans hnode) (ihx ((h _ he).2 _ (by simp [hnode, Node.operands])))
      (ihy ((h _ he).2 _ (by simp [hnode, Node.operands])))
  | call hnode _ ihx =>
    exact .call ((h _ he).1.trans hnode) (ihx ((h _ he).2 _ (by simp [hnode, Node.operands])))

end Arena

end

/-! ## Refinement -/

namespace Exact

/-- The second number is the first one if that is real. -/
def Refines (u u' : Exact) : Prop := ∀ r, u = real r → u' = real r

variable {u u' u'' : Exact}

theorem Refines.rfl : Refines u u := fun _ h => h

theorem Refines.trans (h : Refines u u') (h' : Refines u' u'') : Refines u u'' :=
  fun r hr => h' r (h r hr)

theorem Refines.neg (h : Refines u u') : Refines (-u) (-u') := by
  intro r hr
  obtain ⟨q, hq, rfl⟩ := neg_eq_real.1 hr
  rw [h q hq, neg_real]

theorem Refines.value {f : Elementary} (h : Refines u u') : Refines (f.value u) (f.value u') := by
  intro r hr
  obtain ⟨q, hq, hr⟩ := value_eq_real.1 hr
  rwa [h q hq]

end Exact

open Exact (Refines)

/-- The operators work on real numbers as usual, and have a real result there only, the power zero
of whatever left aside. -/
structure ArithOp.Lawful (ops : ArithOp → Exact → Exact → Exact) : Prop where
  apply : ∀ {op q q'}, ops op (real q) (real q') = op.apply (real q) (real q')
  real : ∀ {op u w r}, ops op u w = real r →
    (∃ q q', u = real q ∧ w = real q' ∧ op.apply (real q) (real q') = real r) ∨
      op = .pow ∧ w = real 0 ∧ r = 1
  refines : ∀ {op u u' w w'}, Refines u u' → Refines w w' → Refines (ops op u w) (ops op u' w')

theorem ArithOp.apply_eq_real {op : ArithOp} {u w : Exact} {r : ℝ} (h : op.apply u w = real r) :
    (∃ q q', u = real q ∧ w = real q' ∧ op.apply (real q) (real q') = real r) ∨
      op = .pow ∧ w = real 0 ∧ r = 1 := by
  cases op with
  | add =>
    obtain ⟨q, q', hq, hq', hr⟩ := Exact.add_eq_real.1 h
    exact .inl ⟨q, q', hq, hq', congrArg real hr⟩
  | sub =>
    obtain ⟨q, q', hq, hq', hr⟩ := Exact.sub_eq_real.1 h
    exact .inl ⟨q, q', hq, hq', congrArg real hr⟩
  | mul =>
    obtain ⟨q, q', hq, hq', hr⟩ := Exact.mul_eq_real.1 h
    exact .inl ⟨q, q', hq, hq', congrArg real hr⟩
  | div =>
    obtain ⟨q, q', hq, hq', hne, hr⟩ := Exact.div_eq_real.1 h
    exact .inl ⟨q, q', hq, hq', (Exact.real_div_real hne).trans (congrArg real hr)⟩
  | pow => exact (Exact.powReal_eq_real h).imp id fun h => ⟨rfl, h⟩

theorem ArithOp.lawful_apply : Lawful ArithOp.apply where
  apply := rfl
  real := apply_eq_real
  refines {op u u' w w'} hu hw r hr := by
    rcases apply_eq_real hr with ⟨q, q', hq, hq', hr⟩ | ⟨rfl, hzero, rfl⟩
    · rwa [hu q hq, hw q' hq']
    · rw [hw 0 hzero]
      exact Exact.powReal_zero u'

/-- An interpretation of expressions by numbers. Operators combine the interpretations of operands, as
far as the result is real, and an expression has one interpretation at most. -/
structure Interprets (ops : ArithOp → Exact → Exact → Exact)
    (V : Arena Exact → ExprId → Exact → Prop) : Prop where
  unique : ∀ {a : Arena Exact} {e : ExprId} {u w : Exact}, V a e u → V a e w → u = w
  num : ∀ {a : Arena Exact} {e : ExprId} {u : Exact}, a.node e = .num u → V a e u
  neg : ∀ {a : Arena Exact} {e x : ExprId} {u : Exact}, a.node e = .neg x →
    (V a e u ↔ ∃ w, V a x w ∧ -w = u)
  arith : ∀ {a : Arena Exact} {op : ArithOp} {e x y : ExprId} {u w : Exact},
    a.node e = .arith op x y → V a x u → V a y w → ∃ u', V a e u' ∧ Refines (ops op u w) u'
  call : ∀ {a : Arena Exact} {f : Elementary} {e x : ExprId} {u : Exact},
    a.node e = .call (.elementary f) [x] → V a x u → V a e (f.value u)
  mono : ∀ {a b : Arena Exact} {e : ExprId} {u : Exact}, a.WellFormed → a ≤ b → e < a.size →
    V a e u → V b e u

/-- The interpretation of a literal. -/
theorem Interprets.literal {ops : ArithOp → Exact → Exact → Exact}
    {V : Arena Exact → ExprId → Exact → Prop} (hV : Interprets ops V) {a : Arena Exact} {e : ExprId}
    {u w : Exact} (h : V a e u) (hw : a.num? e = some w) : w = u := by
  unfold Arena.num? at hw
  split at hw
  · next x hx =>
    cases hw
    exact hV.unique (hV.num hx) h
  · cases hw

/-- Values interpret expressions. -/
theorem interprets_value (ops : ArithOp → Exact → Exact → Exact) (v : Valuation Exact) :
    Interprets ops fun a => a.Value ops v where
  unique := Arena.Value.unique
  num := .num
  neg hn := by
    rw [Arena.value_iff, hn]
    exact Iff.rfl
  arith hn hx hy := ⟨_, .arith hn hx hy, .rfl⟩
  call := .call
  mono ha hab he hu := (Arena.agreeBelow_of_le ha hab).value he hu

namespace Build

variable {ops : ArithOp → Exact → Exact → Exact} {V : Arena Exact → ExprId → Exact → Prop}
  {v : Valuation Exact} {a : Arena Exact} {x y : ExprId} {u w w' : Exact}

/-! ## Constructors -/

/-- The result of a construction has an interpretation that refines `u`. -/
def Interpreted (V : Arena Exact → ExprId → Exact → Prop) (m : Build Exact ExprId) (a : Arena Exact)
    (u : Exact) : Prop :=
  ∃ u', V (m.run a).2 (m.run a).1 u' ∧ Refines u u'

theorem Interpreted.get {f : Arena Exact → Build Exact ExprId} (h : Interpreted V (f a) a u) :
    Interpreted V (MonadState.get >>= f) a u := h

theorem Interpreted.pure (h : V a x w) (hw : Refines u w) : Interpreted V (Pure.pure x) a u :=
  ⟨w, h, hw⟩

theorem Interpreted.of_refines {m : Build Exact ExprId} (h : Interpreted V m a w)
    (hw : Refines u w) : Interpreted V m a u := by
  obtain ⟨u', hu', hrefines⟩ := h
  exact ⟨u', hu', hw.trans hrefines⟩

section

variable (hV : Interprets ops V)
include hV

theorem interpreted_num (ha : a.WellFormed) : Interpreted V (num u) a u := by
  unfold num
  rw [Exact.unsignedZero_eq]
  exact ⟨u, hV.num (Arena.node_eq_of_getElem? (getElem?_intern _ none ha)), .rfl⟩

/-- What is checked to be a certain number has it as its value. -/
theorem eq_of_isNum (hx : V a x u) {r : ℝ} (hw : w = real r) (h : isNum w (a.num? x)) :
    u = real r := by
  obtain ⟨w', hw', heq⟩ := (Option.any_eq_true _ _).1 h
  rw [hw, Exact.eq_real] at heq
  rw [← heq]
  exact (hV.literal hx hw').symm

theorem eq_of_isZero (hx : V a x u) (h : (a.num? x).any Scalar.isZero) : u = real 0 :=
  eq_of_isNum hV hx Exact.zero_eq h

variable (ha : a.WellFormed) (hxlt : x < a.size) (hylt : y < a.size) (hx : V a x u) (hy : V a y w)
include ha hxlt hx

theorem interpreted_neg : Interpreted V (neg x) a (-u) := by
  refine .get ?_
  split
  · next w hw =>
    have hliteral : w = u := hV.literal hx (by simp [Arena.num?, hw])
    rw [hliteral]
    exact interpreted_num hV ha
  · next y hy =>
    obtain ⟨w, hw, rfl⟩ := (hV.neg hy).1 hx
    refine .pure hw fun r hr => ?_
    obtain ⟨q, hq, rfl⟩ := Exact.neg_eq_real.1 hr
    obtain ⟨q', hq', rfl⟩ := Exact.neg_eq_real.1 hq
    rw [hq', neg_neg]
  · have hnode := Arena.node_eq_of_getElem? (getElem?_intern (.neg x) none ha)
    exact ⟨-u, (hV.neg hnode).2 ⟨u, hV.mono ha (le_intern a _ none) hxlt hx, rfl⟩, .rfl⟩

include hylt hy

theorem interpreted_intern_arith (op : ArithOp) :
    Interpreted V (intern (.arith op x y)) a (ops op u w) :=
  hV.arith (Arena.node_eq_of_getElem? (getElem?_intern _ none ha))
    (hV.mono ha (le_intern a _ none) hxlt hx) (hV.mono ha (le_intern a _ none) hylt hy)

variable (hops : ArithOp.Lawful ops)
include hops

theorem interpreted_add : Interpreted V (add x y) a (ops .add u w) := by
  have hsum {r : ℝ} (h : ops .add u w = real r) :
      ∃ q q', u = real q ∧ w = real q' ∧ q + q' = r := by
    obtain ⟨q, q', hq, hq', hr⟩ | ⟨⟨⟩, -⟩ := hops.real h
    exact ⟨q, q', hq, hq', Exact.real.inj hr⟩
  refine .get ?_
  split
  · next u' w' hu hw =>
    rw [hV.literal hx hu, hV.literal hy hw]
    refine (interpreted_num hV ha).of_refines fun r hr => ?_
    obtain ⟨q, q', rfl, rfl, rfl⟩ := hsum hr
    rfl
  · split
    · next hzero =>
      refine .pure hy fun r hr => ?_
      obtain ⟨q, q', hq, rfl, rfl⟩ := hsum hr
      rw [Exact.real.inj (hq.symm.trans (eq_of_isZero hV hx hzero)), zero_add]
    · split
      · next hzero =>
        refine .pure hx fun r hr => ?_
        obtain ⟨q, q', rfl, hq', rfl⟩ := hsum hr
        rw [Exact.real.inj (hq'.symm.trans (eq_of_isZero hV hy hzero)), add_zero]
      · exact interpreted_intern_arith hV ha hxlt hylt hx hy .add

theorem interpreted_sub : Interpreted V (sub x y) a (ops .sub u w) := by
  have hdifference {r : ℝ} (h : ops .sub u w = real r) :
      ∃ q q', u = real q ∧ w = real q' ∧ q - q' = r := by
    obtain ⟨q, q', hq, hq', hr⟩ | ⟨⟨⟩, -⟩ := hops.real h
    exact ⟨q, q', hq, hq', Exact.real.inj hr⟩
  unfold sub
  split
  · next heq =>
    subst heq
    refine (interpreted_num hV ha).of_refines fun r hr => ?_
    obtain ⟨q, q', hq, hq', rfl⟩ := hdifference hr
    rw [Exact.real.inj (hq.symm.trans ((hV.unique hx hy).trans hq')), sub_self, Exact.zero_eq]
  · refine .get ?_
    split
    · next u' w' hu hw =>
      rw [hV.literal hx hu, hV.literal hy hw]
      refine (interpreted_num hV ha).of_refines fun r hr => ?_
      obtain ⟨q, q', rfl, rfl, rfl⟩ := hdifference hr
      rfl
    · split
      · next hzero =>
        refine (interpreted_neg hV ha hylt hy).of_refines fun r hr => ?_
        obtain ⟨q, q', hq, rfl, rfl⟩ := hdifference hr
        rw [Exact.real.inj (hq.symm.trans (eq_of_isZero hV hx hzero)), zero_sub, Exact.neg_real]
      · split
        · next hzero =>
          refine .pure hx fun r hr => ?_
          obtain ⟨q, q', rfl, hq', rfl⟩ := hdifference hr
          rw [Exact.real.inj (hq'.symm.trans (eq_of_isZero hV hy hzero)), sub_zero]
        · exact interpreted_intern_arith hV ha hxlt hylt hx hy .sub

theorem interpreted_mul : Interpreted V (mul x y) a (ops .mul u w) := by
  have hminus : (-Scalar.one : Exact) = real (-1) := by simp
  have hproduct {r : ℝ} (h : ops .mul u w = real r) :
      ∃ q q', u = real q ∧ w = real q' ∧ q * q' = r := by
    obtain ⟨q, q', hq, hq', hr⟩ | ⟨⟨⟩, -⟩ := hops.real h
    exact ⟨q, q', hq, hq', Exact.real.inj hr⟩
  refine .get ?_
  split
  · next u' w' hu hw =>
    rw [hV.literal hx hu, hV.literal hy hw]
    refine (interpreted_num hV ha).of_refines fun r hr => ?_
    obtain ⟨q, q', rfl, rfl, rfl⟩ := hproduct hr
    rfl
  · split
    · next hzero =>
      refine (interpreted_num hV ha).of_refines fun r hr => ?_
      obtain ⟨q, q', hq, hq', rfl⟩ := hproduct hr
      rw [Exact.zero_eq]
      rcases Bool.or_eq_true_iff.1 hzero with hzero | hzero
      · rw [Exact.real.inj (hq.symm.trans (eq_of_isZero hV hx hzero)), zero_mul]
      · rw [Exact.real.inj (hq'.symm.trans (eq_of_isZero hV hy hzero)), mul_zero]
    split
    · next hone =>
      refine .pure hy fun r hr => ?_
      obtain ⟨q, q', hq, rfl, rfl⟩ := hproduct hr
      rw [Exact.real.inj (hq.symm.trans (eq_of_isNum hV hx Exact.one_eq hone)), one_mul]
    split
    · next hone =>
      refine .pure hx fun r hr => ?_
      obtain ⟨q, q', rfl, hq', rfl⟩ := hproduct hr
      rw [Exact.real.inj (hq'.symm.trans (eq_of_isNum hV hy Exact.one_eq hone)), mul_one]
    split
    · next hone =>
      refine (interpreted_neg hV ha hylt hy).of_refines fun r hr => ?_
      obtain ⟨q, q', hq, rfl, rfl⟩ := hproduct hr
      rw [Exact.real.inj (hq.symm.trans (eq_of_isNum hV hx hminus hone)), neg_one_mul, Exact.neg_real]
    split
    · next hone =>
      refine (interpreted_neg hV ha hxlt hx).of_refines fun r hr => ?_
      obtain ⟨q, q', rfl, hq', rfl⟩ := hproduct hr
      rw [Exact.real.inj (hq'.symm.trans (eq_of_isNum hV hy hminus hone)), mul_neg_one, Exact.neg_real]
    · exact interpreted_intern_arith hV ha hxlt hylt hx hy .mul

theorem interpreted_div : Interpreted V (div x y) a (ops .div u w) := by
  have hquotient {r : ℝ} (h : ops .div u w = real r) :
      ∃ q q', u = real q ∧ w = real q' ∧ q' ≠ 0 ∧ q / q' = r := by
    obtain ⟨q, q', hq, hq', hr⟩ | ⟨⟨⟩, -⟩ := hops.real h
    obtain ⟨_, _, ⟨⟩, ⟨⟩, hne, hr⟩ := Exact.div_eq_real.1 hr
    exact ⟨q, q', hq, hq', hne, hr⟩
  have hotherwise (u' w' : Option Exact) (hu : u' = a.num? x) (hw : w' = a.num? y) : Interpreted V
      (if isNum Scalar.zero u' then Pure.pure x else if isNum Scalar.one w' then Pure.pure x
        else if x = y then one else intern (.arith .div x y)) a (ops .div u w) := by
    subst hu hw
    split
    · next hzero =>
      refine .pure hx fun r hr => ?_
      obtain ⟨q, q', rfl, -, -, rfl⟩ := hquotient hr
      rw [Exact.real.inj (eq_of_isZero hV hx hzero), zero_div]
    split
    · next hone =>
      refine .pure hx fun r hr => ?_
      obtain ⟨q, q', rfl, hq', -, rfl⟩ := hquotient hr
      rw [Exact.real.inj (hq'.symm.trans (eq_of_isNum hV hy Exact.one_eq hone)), div_one]
    split
    · next heq =>
      subst heq
      refine (interpreted_num hV ha).of_refines fun r hr => ?_
      obtain ⟨q, q', hq, hq', hne, rfl⟩ := hquotient hr
      rw [Exact.real.inj (hq.symm.trans ((hV.unique hx hy).trans hq')), div_self hne, Exact.one_eq]
    · exact interpreted_intern_arith hV ha hxlt hylt hx hy .div
  refine .get ?_
  dsimp only
  split
  · next u' w' hu hw =>
    split
    · exact hotherwise _ _ hu.symm hw.symm
    · rw [hV.literal hx hu, hV.literal hy hw]
      refine (interpreted_num hV ha).of_refines fun r hr => ?_
      obtain ⟨q, q', rfl, rfl, hne, rfl⟩ := hquotient hr
      exact Exact.real_div_real hne
  · exact hotherwise _ _ rfl rfl

theorem interpreted_pow : Interpreted V (pow x y) a (ops .pow u w) := by
  refine .get ?_
  dsimp only
  split
  · next hzero =>
    refine (interpreted_num hV ha).of_refines fun r hr => ?_
    rw [Exact.one_eq]
    obtain ⟨q, q', rfl, rfl, hpower⟩ | ⟨-, -, rfl⟩ := hops.real hr
    · rw [Exact.real.inj (eq_of_isZero hV hy hzero)] at hpower
      exact (Exact.powReal_real.trans Exact.pow_zero).symm.trans hpower
    · rfl
  next hzero =>
  -- apart from the power zero both numbers are real
  have hpower {r : ℝ} (h : ops .pow u w = real r) (hliteral : (a.num? y).isSome) :
      ∃ q q', u = real q ∧ w = real q' ∧ Scalar.pow (real q) (real q') = real r := by
    obtain ⟨q, q', hq, hq', hr⟩ | ⟨-, hw, -⟩ := hops.real h
    · exact ⟨q, q', hq, hq', Exact.powReal_real.symm.trans hr⟩
    · obtain ⟨w', hw'⟩ := Option.isSome_iff_exists.1 hliteral
      refine absurd ?_ hzero
      simp [isNum, hw', hV.literal hy hw', hw]
  split
  · next hone =>
    have hliteral : (a.num? y).isSome := by
      obtain ⟨w', hw', -⟩ := (Option.any_eq_true _ _).1 hone
      exact Option.isSome_iff_exists.2 ⟨w', hw'⟩
    refine .pure hx fun r hr => ?_
    obtain ⟨q, q', hq, hq', hone'⟩ := hpower hr hliteral
    rw [Exact.real.inj (hq'.symm.trans (eq_of_isNum hV hy Exact.one_eq hone)), Exact.pow_one] at hone'
    exact hq.trans hone'
  split
  · next u' w' hu hw =>
    split
    · rw [hV.literal hx hu, hV.literal hy hw]
      refine (interpreted_num hV ha).of_refines fun r hr => ?_
      obtain ⟨q, q', hq, hq', hresult⟩ := hpower hr (by rw [hw]; rfl)
      rwa [hq, hq']
    · exact interpreted_intern_arith hV ha hxlt hylt hx hy .pow
  · exact interpreted_intern_arith hV ha hxlt hylt hx hy .pow

theorem interpreted_arith (op : ArithOp) : Interpreted V (arith op x y) a (ops op u w) := by
  cases op with
  | add => exact interpreted_add hV ha hxlt hylt hx hy hops
  | sub => exact interpreted_sub hV ha hxlt hylt hx hy hops
  | mul => exact interpreted_mul hV ha hxlt hylt hx hy hops
  | div => exact interpreted_div hV ha hxlt hylt hx hy hops
  | pow => exact interpreted_pow hV ha hxlt hylt hx hy hops

omit hylt hy hops in
theorem interpreted_call (f : Elementary) : Interpreted V (call (.elementary f) [x]) a (f.value u) := by
  have hnode : Interpreted V (intern (.call (.elementary f) [x])) a (f.value u) :=
    ⟨f.value u, hV.call (Arena.node_eq_of_getElem? (getElem?_intern _ none ha))
      (hV.mono ha (le_intern a _ none) hxlt hx), .rfl⟩
  refine .get ?_
  dsimp only
  split
  · next w hw =>
    obtain ⟨u', hu, hw⟩ := Option.bind_eq_some_iff.1 hw
    cases hw
    split
    · rw [hV.literal hx hu]
      exact interpreted_num hV ha
    · exact hnode
  · exact hnode

end

/-! ## Values of constructions -/

/-- The result of a construction has a value that refines `u`. -/
abbrev Valued (ops : ArithOp → Exact → Exact → Exact) (v : Valuation Exact) (m : Build Exact ExprId)
    (a : Arena Exact) (u : Exact) : Prop :=
  Interpreted (fun a => a.Value ops v) m a u

/-- A new node has its value over those of its operands. -/
theorem valued_intern (ha : a.WellFormed) {n : Node Exact} {origin : Option (String × Span)}
    (hn : ∀ x ∈ n.operands, x < a.size) (h : n.Value ops v (a.Value ops v) u) :
    Valued ops v (intern n origin) a u := by
  have hagree := Arena.agreeBelow_of_le ha (le_intern a n origin)
  refine ⟨u, Arena.value_iff.2 ?_, .rfl⟩
  rw [Arena.node_eq_of_getElem? (getElem?_intern n origin ha)]
  have hx : ∀ x ∈ n.operands, ∀ w, a.Value ops v x w →
      ((intern n origin).run a).2.Value ops v x w :=
    fun x hx w hw => hagree.value (hn x hx) hw
  cases n with
  | num | sym => exact h
  | neg x =>
    obtain ⟨w, hw, hu⟩ := h
    exact ⟨w, hx x (by simp [Node.operands]) w hw, hu⟩
  | arith op x y =>
    obtain ⟨w, w', hw, hw', hu⟩ := h
    exact ⟨w, w', hx x (by simp [Node.operands]) w hw, hx y (by simp [Node.operands]) w' hw', hu⟩
  | call f args =>
    rcases f with f | _
    · rcases args with _ | ⟨x, _ | _⟩
      · exact h.elim
      · obtain ⟨w, hw, hu⟩ := h
        exact ⟨w, hx x (by simp [Node.operands]) w hw, hu⟩
      · exact h.elim
    · exact h.elim
  | compare | join => exact h.elim

theorem valued_num (ha : a.WellFormed) : Valued ops v (num u) a u :=
  interpreted_num (interprets_value ops v) ha

theorem valued_neg (ha : a.WellFormed) (hxlt : x < a.size) (hx : a.Value ops v x u) :
    Valued ops v (neg x) a (-u) :=
  interpreted_neg (interprets_value ops v) ha hxlt hx

theorem valued_arith (ha : a.WellFormed) (hxlt : x < a.size) (hylt : y < a.size)
    (hx : a.Value ops v x u) (hy : a.Value ops v y w) (hops : ArithOp.Lawful ops) (op : ArithOp) :
    Valued ops v (arith op x y) a (ops op u w) :=
  interpreted_arith (interprets_value ops v) ha hxlt hylt hx hy hops op

theorem valued_call (ha : a.WellFormed) (hxlt : x < a.size) (hx : a.Value ops v x u)
    (f : Elementary) : Valued ops v (call (.elementary f) [x]) a (f.value u) :=
  interpreted_call (interprets_value ops v) ha hxlt hx f

end Build

end HybridPlan
