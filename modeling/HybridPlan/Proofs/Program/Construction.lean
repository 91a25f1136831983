import HybridPlan.Proofs.Expr.Reduced
import HybridPlan.Proofs.Program.Term

set_option autoImplicit false

/-! # Terms that are built

A table of terms is built by calls of the constructors, one after another, each for terms that are
already there. Whatever is called, the table is well-formed, its constants are no negative zeros,
and its sums have at least two items. -/

namespace HybridPlan

variable {α : Type} [Scalar α]

/-! ## Calls of constructors -/

namespace Terms

/-- A call of a constructor. -/
inductive Construction (α : Type) where
  | const (c : α)
  | var (v : VarId)
  | neg (a : TermId)
  | sum (items : List TermId)
  | add (a b : TermId)
  | sub (a b : TermId)
  | mul (a b : TermId)
  | div (a b : TermId)
  | pow (a b : TermId)
  | call (f : Elementary) (a : TermId)

namespace Construction

def make : Construction α → Make α TermId
  | const c => Terms.const c
  | var v => Terms.var v
  | neg a => Terms.neg a
  | sum items => Terms.sum items
  | add a b => Terms.add a b
  | sub a b => Terms.sub a b
  | mul a b => Terms.mul a b
  | div a b => Terms.div a b
  | pow a b => Terms.pow a b
  | call f a => Terms.call f a

/-- The terms that the call is for. -/
def operands : Construction α → List TermId
  | const _ | var _ => []
  | neg a | call _ a => [a]
  | sum items => items
  | add a b | sub a b | mul a b | div a b | pow a b => [a, b]

/-- A variable that the call is for is among the first `n`. -/
def VarsBelow (n : Nat) : Construction α → Prop
  | var v => v < n
  | _ => True

theorem yields (c : Construction α) {n : Nat} (h : c.VarsBelow n) :
    Make.Yields n {x | x ∈ c.operands} c.make ({·}) := by
  cases c with
  | const c => exact yields_const c
  | var v => exact yields_var h
  | neg a => exact yields_neg (by simp [operands])
  | sum items => exact yields_sum fun x hx => hx
  | add a b => exact yields_add (by simp [operands]) (by simp [operands])
  | sub a b => exact yields_sub (by simp [operands]) (by simp [operands])
  | mul a b => exact yields_mul (by simp [operands]) (by simp [operands])
  | div a b => exact yields_div (by simp [operands]) (by simp [operands])
  | pow a b => exact yields_pow (by simp [operands]) (by simp [operands])
  | call f a => exact yields_call f (by simp [operands])

end Construction

/-- The tables that constructors build over the first `n` variables. -/
inductive Built (n : Nat) : Terms α → Prop
  | empty : Built n {}
  | step {ts : Terms α} (h : Built n ts) (c : Construction α) (hc : c.VarsBelow n)
      (hoperands : ∀ x ∈ c.operands, x < ts.size) : Built n (c.make.run ts).2

variable {ts : Terms α} {n : Nat}

theorem Built.wellFormed (h : ts.Built n) : ts.WellFormed n := by
  induction h with
  | empty => exact wellFormed_empty
  | step _ c hc hoperands ih => exact (c.yields hc _ ih hoperands).1

/-! ## New nodes -/

variable {a b : TermId}

theorem run_pow (ha : ts.const? a = none) (hb : ts.const? b = none) :
    (pow a b).run ts = Interner.intern ts (.binary .pow a b) := by
  simp only [pow, isNum, StateT.run_bind, StateT.run_get, pure_bind, ha, hb, Option.any_none,
    Bool.false_eq_true, ↓reduceIte]
  rfl

theorem run_call (f : Elementary) (ha : ts.const? a = none) :
    (call f a).run ts = Interner.intern ts (.call f a) := by
  simp only [call, StateT.run_bind, StateT.run_get, pure_bind, ha]
  rfl

/-- A call that makes a new node puts it behind the others. -/
theorem Built.extend {ms : Array (TermNode α)} (h : ts.Built n ∧ ts.items = ms)
    {c : Construction α} {m : TermNode α} (hc : c.VarsBelow n)
    (hoperands : ∀ x ∈ c.operands, x < ms.size) (hmake : c.make.run ts = Interner.intern ts m)
    (hm : m ∉ ms) :
    (c.make.run ts).2.Built n ∧ (c.make.run ts).2.items = ms.push m := by
  obtain ⟨hbuilt, rfl⟩ := h
  refine ⟨hbuilt.step c hc hoperands, ?_⟩
  have hnew : ts.index[m]? = none := by
    rw [Option.eq_none_iff_forall_ne_some]
    intro i hi
    exact hm (Array.mem_of_getElem? ((hbuilt.wellFormed.table m i).1 hi))
  rw [hmake, Interner.items_intern, hnew]
  rfl

theorem const?_var {ms : Array (TermNode α)} {v : VarId} (h : ts.items = ms)
    (hm : ms[a]? = some (.var v)) : ts.const? a = none := by
  rw [const?, node_eq_of_getElem? (h ▸ hm)]

theorem const?_call {ms : Array (TermNode α)} {f : Elementary} (h : ts.items = ms)
    (hm : ms[a]? = some (.call f b)) : ts.const? a = none := by
  rw [const?, node_eq_of_getElem? (h ▸ hm)]

end Terms

/-! ## Proper nodes -/

/-- A constant is no negative zero, and a sum has at least two items. -/
def TermNode.Proper : TermNode α → Prop
  | const c => Scalar.unsignedZero c = c
  | sum items => 2 ≤ items.length
  | var _ | neg _ | binary _ _ _ | call _ _ => True

namespace Terms

def Proper (ts : Terms α) : Prop :=
  ∀ ⦃t : TermId⦄ ⦃m : TermNode α⦄, ts.items[t]? = some m → m.Proper

/-- A construction adds proper nodes only. -/
def Make.Keeps {ι : Type} (m : Make α ι) : Prop :=
  ∀ ts : Terms α, ts.Proper → Proper (m.run ts).2

theorem keeps_intern {m : TermNode α} (hm : m.Proper) : Make.Keeps (intern m) := by
  intro ts hts t m' ht
  rcases Interner.eq_of_getElem?_intern ht with ht | ⟨rfl, -⟩
  · exact hts ht
  · exact hm

theorem keeps_const (c : α) : Make.Keeps (const c) :=
  keeps_intern (Build.unsignedZero_unsignedZero c)

theorem keeps_joined {all : List TermId} (hall : all ≠ []) : Make.Keeps (α := α) (joined all) := by
  unfold joined
  split
  · intro ts hts
    exact hts
  · next hone =>
    refine keeps_intern ?_
    cases all with
    | nil => exact absurd rfl hall
    | cons t all =>
      cases all with
      | nil => exact absurd rfl (hone t)
      | cons u all => simp [TermNode.Proper]

theorem keeps_sum (items : List TermId) : Make.Keeps (α := α) (sum items) := by
  intro ts hts
  rw [run_sum]
  by_cases h : !Scalar.isZero (ts.constantPart items) || (ts.flatItems items).isEmpty
  · rw [run_summands_const h]
    exact keeps_joined (by simp) _ (keeps_const _ ts hts)
  · rw [run_summands_flat h]
    rw [Bool.or_eq_true, not_or, List.isEmpty_iff] at h
    exact keeps_joined h.2 ts hts

/-! ## Calls that make no sum -/

end Terms

/-- A node that is neither a sum nor a negative zero. -/
def TermNode.Plain : TermNode α → Prop
  | const c => Scalar.unsignedZero c = c
  | sum _ => False
  | var _ | neg _ | binary _ _ _ | call _ _ => True

theorem TermNode.Plain.proper {m : TermNode α} (hm : m.Plain) : m.Proper := by
  cases m with
  | const c => exact hm
  | sum items => exact hm.elim
  | var | neg | binary | call => trivial

namespace Terms

/-- A construction either gives back one of the terms `C` or makes a plain node over them. -/
def Make.Plain (C : List TermId) (f : Make α TermId) : Prop :=
  ∀ ts : Terms α, (∃ a ∈ C, f.run ts = (a, ts)) ∨
    ∃ m : TermNode α, m.Plain ∧ (∀ x ∈ m.operands, x ∈ C) ∧ f.run ts = Interner.intern ts m

variable {C : List TermId} {a b : TermId}

theorem Make.Plain.look {g : Terms α → Make α TermId} (h : ∀ ts, (g ts).Plain C) :
    Make.Plain C (MonadState.get >>= g) :=
  fun ts => h ts ts

theorem plain_old (ha : a ∈ C) : Make.Plain (α := α) C (pure a) := fun _ => .inl ⟨a, ha, rfl⟩

theorem plain_intern {m : TermNode α} (hm : m.Plain) (h : ∀ x ∈ m.operands, x ∈ C) :
    Make.Plain C (intern m) :=
  fun _ => .inr ⟨m, hm, h, rfl⟩

theorem plain_const (c : α) : Make.Plain C (const c) :=
  plain_intern (Build.unsignedZero_unsignedZero c) fun _ h => absurd h List.not_mem_nil

theorem plain_binary (op : TermOp) (ha : a ∈ C) (hb : b ∈ C) :
    Make.Plain (α := α) C (intern (.binary op a b)) :=
  plain_intern trivial (by simp [TermNode.operands, ha, hb])

namespace Construction

/-- The items of the sum that the call is for. -/
def summands? : Construction α → Option (List TermId)
  | sum items => some items
  | add a b => some [a, b]
  | _ => none

variable {c : Construction α}

theorem make_eq_sum {items : List TermId} (h : c.summands? = some items) :
    c.make = Terms.sum items ∧ c.operands = items := by
  cases c with
  | sum items' =>
    cases h
    exact ⟨rfl, rfl⟩
  | add a b =>
    cases h
    exact ⟨rfl, rfl⟩
  | _ => cases h

/-- A call that is for no sum makes none. -/
theorem plain_make (h : c.summands? = none) : c.make.Plain c.operands := by
  cases c with
  | sum | add => cases h
  | const c => exact plain_const c
  | var v => exact plain_intern trivial fun _ h => absurd h List.not_mem_nil
  | neg a =>
    refine .look fun ts => ?_
    split
    · exact plain_const _
    · exact plain_intern trivial (by simp [TermNode.operands, operands])
  | sub a b =>
    have ha : a ∈ (sub a b : Construction α).operands := by simp [operands]
    refine .look fun ts => ?_
    split
    · exact plain_const _
    · split
      · exact plain_old ha
      · exact plain_binary .sub ha (by simp [operands])
  | mul a b =>
    have ha : a ∈ (mul a b : Construction α).operands := by simp [operands]
    have hb : b ∈ (mul a b : Construction α).operands := by simp [operands]
    refine .look fun ts => ?_
    split
    · exact plain_const _
    · split
      · exact plain_old hb
      · split
        · exact plain_old ha
        · exact plain_binary .mul ha hb
  | div a b =>
    have ha : a ∈ (div a b : Construction α).operands := by simp [operands]
    have hb : b ∈ (div a b : Construction α).operands := by simp [operands]
    refine .look fun ts => ?_
    dsimp only
    split
    · split
      · exact plain_binary .div ha hb
      · exact plain_const _
    · split
      · exact plain_old ha
      · exact plain_binary .div ha hb
  | pow a b =>
    have ha : a ∈ (pow a b : Construction α).operands := by simp [operands]
    have hb : b ∈ (pow a b : Construction α).operands := by simp [operands]
    have hgeneral (y : Option α) : Make.Plain (α := α) (pow a b : Construction α).operands
        (if isNum Scalar.one y then pure a else intern (.binary .pow a b)) := by
      split
      · exact plain_old ha
      · exact plain_binary .pow ha hb
    refine .look fun ts => ?_
    dsimp only
    split
    · split
      · exact plain_const _
      · exact hgeneral _
    · exact hgeneral _
  | call f a =>
    have hcall : Make.Plain (α := α) (call f a : Construction α).operands
        (intern (.call f a)) :=
      plain_intern trivial (by simp [TermNode.operands, operands])
    refine .look fun ts => ?_
    split
    · dsimp only
      split
      · exact plain_const _
      · exact hcall
    · exact hcall

/-- Every constructor keeps a table proper. -/
theorem keeps (c : Construction α) : c.make.Keeps := by
  intro ts hts
  cases hc : c.summands? with
  | none =>
    rcases plain_make hc ts with ⟨a, -, hrun⟩ | ⟨m, hm, -, hrun⟩
    · rw [hrun]
      exact hts
    · rw [hrun]
      exact keeps_intern hm.proper ts hts
  | some items =>
    rw [(make_eq_sum hc).1]
    exact keeps_sum items ts hts

end Construction

theorem Built.proper {ts : Terms α} {n : Nat} (h : ts.Built n) : ts.Proper := by
  induction h with
  | empty => exact fun t m ht => by simp at ht
  | step _ c _ _ ih => exact c.keeps _ ih

/-! ## Trees -/

end Terms

/-- The tree of a node whose operands have the given trees. -/
def TermNode.unfold (f : TermId → Term α) : TermNode α → Term α
  | const c => .const c
  | var v => .var v
  | neg a => .neg (f a)
  | sum items => .sum (items.map f)
  | binary op a b => .binary op (f a) (f b)
  | call g a => .call g (f a)

omit [Scalar α] in
theorem TermNode.unfold_congr {f g : TermId → Term α} {m : TermNode α}
    (h : ∀ x ∈ m.operands, f x = g x) : m.unfold f = m.unfold g := by
  cases m with
  | const c | var v => rfl
  | neg a | call e a => rw [unfold, unfold, h a (by simp [operands])]
  | sum items => exact congrArg Term.sum (List.map_congr_left h)
  | binary op a b => rw [unfold, unfold, h a (by simp [operands]), h b (by simp [operands])]

/-- A term over the first `n` variables whose constants are no negative zeros and whose sums have at
least two items. -/
inductive Term.Proper (n : Nat) : Term α → Prop
  | const {c : α} (h : Scalar.unsignedZero c = c) : Proper n (.const c)
  | var {v : VarId} (h : v < n) : Proper n (.var v)
  | neg {a : Term α} (ha : Proper n a) : Proper n (.neg a)
  | sum {items : List (Term α)} (hitems : 2 ≤ items.length) (h : ∀ t ∈ items, Proper n t) :
      Proper n (.sum items)
  | binary {op : TermOp} {a b : Term α} (ha : Proper n a) (hb : Proper n b) :
      Proper n (.binary op a b)
  | call {f : Elementary} {a : Term α} (ha : Proper n a) : Proper n (.call f a)

namespace Terms

variable {ts : Terms α} {n : Nat}

theorem WellFormed.tree_eq (h : ts.WellFormed n) (t : TermId) :
    ts.tree t = (ts.node t).unfold ts.tree := by
  have htree : ts.tree t = (ts.node t).unfold (ts.treeBelow t) := by
    rw [tree, treeBelow]
    cases ts.node t <;> rfl
  rw [htree]
  exact TermNode.unfold_congr fun x hx =>
    h.treeBelow_eq (h.operand_lt hx) (Nat.lt_succ_self x)

/-- The terms of a table that was built are proper. -/
theorem Built.proper_tree (h : ts.Built n) {t : TermId} (ht : t < ts.size) :
    (ts.tree t).Proper n := by
  induction t using Nat.strong_induction_on with
  | _ t ih =>
    have hoperand : ∀ x ∈ (ts.node t).operands, (ts.tree x).Proper n := fun x hx => by
      have hlt := h.wellFormed.operand_lt hx
      exact ih x hlt (Nat.lt_trans hlt ht)
    have hproper := h.proper (getElem?_of_lt_size ht)
    have hvars := h.wellFormed.varsBelow t
    rw [h.wellFormed.tree_eq]
    cases hnode : ts.node t with
    | const c =>
      rw [hnode] at hproper
      exact .const hproper
    | var v =>
      rw [hnode] at hvars
      exact .var hvars
    | neg a => exact .neg (hoperand a (by simp [hnode, TermNode.operands]))
    | sum items =>
      rw [hnode] at hproper hoperand
      refine .sum ?_ (List.forall_mem_map.2 hoperand)
      rw [List.length_map]
      exact hproper
    | binary op a b =>
      exact .binary (hoperand a (by simp [hnode, TermNode.operands]))
        (hoperand b (by simp [hnode, TermNode.operands]))
    | call f a => exact .call (hoperand a (by simp [hnode, TermNode.operands]))

end Terms

end HybridPlan
