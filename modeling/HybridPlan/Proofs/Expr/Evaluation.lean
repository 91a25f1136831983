import HybridPlan.Proofs.Except
import HybridPlan.Proofs.Expr.Value

set_option autoImplicit false

/-! # What evaluations compute

The evaluation of an expression has the value of the expression as its result, and fails exactly if
there is none; the table of values does not show: neither in the values nor in the errors of any number of
evaluations with one table. -/

namespace HybridPlan

variable {α : Type} [Scalar α]

/-! ## Evaluations without a table -/

namespace Arena

section

variable {M : Type → Type} [Monad M] [MonadExcept EvalError M]

/-- The value of a node, given how its operands are evaluated. -/
def evalNode (a : Arena α) (v : Valuation α) (operand : ExprId → M α) (e : ExprId) : M α :=
  match a.node e with
  | .num value => pure value
  | .sym s =>
    match v s with
    | some value => pure value
    | none => throw (.unbound s)
  | .neg x => do
    let u ← operand x
    pure (-u)
  | .arith op x y => do
    let u ← operand x
    let w ← operand y
    pure (op.apply u w)
  | .call f [x] => do
    let u ← operand x
    match f.value? u with
    | some value => pure value
    | none => throw (.notNumeric e)
  | .call _ _ | .compare _ _ _ | .join _ _ => throw (.notNumeric e)

theorem evalNode_congr {a : Arena α} {v v' : Valuation α} {operand operand' : ExprId → M α} {e : ExprId}
    (hv : ∀ s, a.node e = .sym s → v s = v' s) (h : ∀ x ∈ (a.node e).operands, operand x = operand' x) :
    a.evalNode v operand e = a.evalNode v' operand' e := by
  unfold evalNode
  cases hn : a.node e with
  | num u => rfl
  | sym s =>
    dsimp only
    rw [hv s hn]
  | neg x =>
    dsimp only
    rw [h x (by simp [hn, Node.operands])]
  | arith op x y =>
    dsimp only
    rw [h x (by simp [hn, Node.operands]), h y (by simp [hn, Node.operands])]
  | call f args =>
    rcases args with _ | ⟨x, _ | ⟨y, args⟩⟩
    · rfl
    · dsimp only
      rw [h x (by simp [hn, Node.operands])]
    · rfl
  | compare op x y => rfl
  | join c items => rfl

end

variable (a : Arena α) (v : Valuation α)

/-- The value of a node at most the given number of levels deep, where shared nodes are evaluated anew. -/
def plainBelow : Nat → ExprId → Except EvalError α
  | 0, _ => .ok Scalar.zero
  | n + 1, e => a.evalNode v (plainBelow n) e

/-- The value of an expression, by recursion alone. -/
def plainEval (e : ExprId) : Except EvalError α := a.plainBelow v (e + 1) e

end Arena

variable {a : Arena α} {v : Valuation α} {e : ExprId} {u : α} {n : Nat}

theorem Node.value_iff_of_operands {ops : ArithOp → α → α → α} {m : Node α} {R R' : ExprId → α → Prop}
    (h : ∀ x ∈ m.operands, ∀ w, R x w ↔ R' x w) : m.Value ops v R u ↔ m.Value ops v R' u := by
  cases m with
  | num | sym | compare | join => exact Iff.rfl
  | neg x => simp only [Value, h x (by simp [operands])]
  | arith op x y => simp only [Value, h x (by simp [operands]), h y (by simp [operands])]
  | call f args =>
    rcases f with f | _
    · rcases args with _ | ⟨x, _ | ⟨y, args⟩⟩
      · exact Iff.rfl
      · simp only [Value, h x (by simp [operands])]
      · exact Iff.rfl
    · exact Iff.rfl

namespace Arena

/-- The levels that are looked at do not matter once they are more than the number of the expression. -/
theorem plainBelow_eq (ha : a.WellFormed) (hn : e < n) : a.plainBelow v n e = a.plainEval v e := by
  induction e using Nat.strong_induction_on generalizing n with
  | _ e ih =>
    obtain ⟨n, rfl⟩ := Nat.exists_eq_succ_of_ne_zero (Nat.ne_of_gt (Nat.zero_lt_of_lt hn))
    refine evalNode_congr (fun _ _ => rfl) fun x hx => ?_
    have hlt := ha.lt_of_mem_operands hx
    rw [ih x hlt (Nat.lt_of_lt_of_le hlt (Nat.le_of_lt_succ hn)), ih x hlt hlt]

/-- The recursion over the nodes of an expression. -/
theorem plainEval_eq (ha : a.WellFormed) (e : ExprId) : a.plainEval v e = a.evalNode v (a.plainEval v) e :=
  evalNode_congr (fun _ _ => rfl) fun _ hx => plainBelow_eq ha (ha.lt_of_mem_operands hx)

theorem evalNode_eq_ok {operand : ExprId → Except EvalError α} : a.evalNode v operand e = .ok u ↔
    (a.node e).Value ArithOp.apply v (fun x w => operand x = .ok w) u := by
  have hthrow {error : EvalError} : (throw error : Except EvalError α) = .ok u ↔ False :=
    ⟨fun h => (by cases h), False.elim⟩
  have hpure {w : α} : (pure w : Except EvalError α) = .ok u ↔ w = u :=
    ⟨Except.ok.inj, congrArg Except.ok⟩
  unfold evalNode
  cases a.node e with
  | num w => exact hpure
  | sym s =>
    dsimp only [Node.Value]
    cases v s with
    | none => exact hthrow.trans ⟨False.elim, fun h => (by cases h)⟩
    | some w => exact hpure.trans (Option.some_inj).symm
  | neg x => simp only [Except.bind_eq_ok, hpure, Node.Value]
  | arith op x y => simp only [Except.bind_eq_ok, hpure, Node.Value, exists_and_left]
  | call f args =>
    rcases args with _ | ⟨x, _ | ⟨y, args⟩⟩
    · rcases f with f | _ <;> exact hthrow
    · rcases f with f | _
      · simp only [Except.bind_eq_ok, Func.value?, hpure, Node.Value]
      · simp only [Except.bind_eq_ok, Func.value?, hthrow, and_false, exists_false, Node.Value]
    · rcases f with f | _ <;> exact hthrow
  | compare | join => exact hthrow

/-- The recursion finds the values of expressions. -/
theorem plainEval_eq_ok (ha : a.WellFormed) : a.plainEval v e = .ok u ↔ a.Value ArithOp.apply v e u := by
  induction e using Nat.strong_induction_on generalizing u with
  | _ e ih =>
    rw [plainEval_eq ha, evalNode_eq_ok, value_iff]
    exact Node.value_iff_of_operands fun x hx w => ih x (ha.lt_of_mem_operands hx)

end Arena

/-! ## Evaluations with a table -/

/-- The values in a table are those of their expressions. -/
def ValueTable.Sound (a : Arena α) (v : Valuation α) (table : ValueTable α) : Prop :=
  ∀ (e : ExprId) (u : α), table[e]? = some u → a.Value ArithOp.apply v e u

/-- From every sound table the evaluation comes to the given result, and it leaves a sound table. -/
def Evaluation.Returns {ι : Type} (a : Arena α) (v : Valuation α) (m : Evaluation α ι)
    (r : Except EvalError ι) : Prop :=
  ∀ table, ValueTable.Sound a v table → ∃ table', m.run.run table = (r, table') ∧ ValueTable.Sound a v table'

/-- The results of the evaluation are those that satisfy `R`, and it leaves a sound table. -/
def Evaluation.ComputesIn {ι : Type} (a : Arena α) (v : Valuation α) (table : ValueTable α)
    (m : Evaluation α ι) (R : ι → Prop) : Prop :=
  ∃ r table', m.run.run table = (r, table') ∧ ValueTable.Sound a v table' ∧ ∀ i, r = .ok i ↔ R i

/-- The same of every sound table. -/
def Evaluation.Computes {ι : Type} (a : Arena α) (v : Valuation α) (m : Evaluation α ι)
    (R : ι → Prop) : Prop :=
  ∀ table, ValueTable.Sound a v table → m.ComputesIn a v table R

theorem ValueTable.sound_empty : ValueTable.Sound a v {} := fun e u h => by simp at h

theorem ValueTable.Sound.insert {table : ValueTable α} (h : table.Sound a v)
    (he : a.Value ArithOp.apply v e u) : ValueTable.Sound a v (table.insert e u) := by
  intro k w hk
  rw [Std.HashMap.getElem?_insert] at hk
  split at hk
  · next heq =>
    obtain rfl := eq_of_beq heq
    cases hk
    exact he
  · exact h k w hk

namespace Evaluation

variable {ι κ : Type} {m : Evaluation α ι} {f : ι → Evaluation α κ} {R : ι → Prop}
  {S : ι → κ → Prop} {r : Except EvalError ι} {g : ι → Except EvalError κ}

omit [Scalar α] in
theorem run_bind (m : Evaluation α ι) (f : ι → Evaluation α κ) (table : ValueTable α) :
    (m >>= f).run.run table = (ExceptT.bindCont f (m.run.run table).1).run (m.run.run table).2 := rfl

omit [Scalar α] in
theorem run_get (f : ValueTable α → Evaluation α ι) (table : ValueTable α) :
    (get >>= f).run.run table = (f table).run.run table := rfl

theorem Returns.pure {i : ι} : Returns a v (Pure.pure i) (.ok i) := fun table h => ⟨table, rfl, h⟩

theorem Returns.throw {e : EvalError} : Returns a v (MonadExcept.throw e : Evaluation α ι) (.error e) :=
  fun table h => ⟨table, rfl, h⟩

theorem Returns.bind (hm : m.Returns a v r) (hf : ∀ i, r = .ok i → (f i).Returns a v (g i)) :
    (m >>= f).Returns a v (r >>= g) := by
  intro table h
  obtain ⟨table₁, hrun, hsound⟩ := hm table h
  rw [run_bind, hrun]
  cases r with
  | error e => exact ⟨table₁, rfl, hsound⟩
  | ok i => exact hf i rfl table₁ hsound

/-- What returns a result computes it. -/
theorem Returns.computes (hm : m.Returns a v r) (hr : ∀ i, r = .ok i ↔ R i) : m.Computes a v R := by
  intro table h
  obtain ⟨table', hrun, hsound⟩ := hm table h
  exact ⟨r, table', hrun, hsound, hr⟩

theorem Computes.pure {i : ι} : Computes a v (Pure.pure i) (i = ·) :=
  Returns.pure.computes fun _ => ⟨Except.ok.inj, congrArg Except.ok⟩

theorem Computes.throw {e : EvalError} : Computes a v (MonadExcept.throw e : Evaluation α ι)
    fun _ => False :=
  Returns.throw.computes fun _ => ⟨fun h => (by cases h), False.elim⟩

theorem Computes.bind (hm : m.Computes a v R) (hf : ∀ i, R i → (f i).Computes a v (S i)) :
    (m >>= f).Computes a v fun k => ∃ i, R i ∧ S i k := by
  intro table h
  obtain ⟨r, table₁, hrun, hsound, hR⟩ := hm table h
  have hbind := run_bind m f table
  rw [hrun] at hbind
  cases r with
  | error e =>
    refine ⟨.error e, table₁, hbind, hsound, fun k => ⟨fun h => (by cases h), ?_⟩⟩
    rintro ⟨i, hi, -⟩
    cases (hR i).2 hi
  | ok i =>
    obtain ⟨r', table₂, hrun', hsound', hS⟩ := hf i ((hR i).1 rfl) table₁ hsound
    refine ⟨r', table₂, hbind.trans hrun', hsound', fun k => (hS k).trans ?_⟩
    constructor
    · exact fun hk => ⟨i, (hR i).1 rfl, hk⟩
    · rintro ⟨j, hj, hk⟩
      cases (hR j).2 hj
      exact hk

end Evaluation

namespace Arena

open Evaluation

/-- A node is evaluated with a table as without one if its operands are. -/
theorem evalNode_returns {operand : ExprId → Evaluation α α} {operand' : ExprId → Except EvalError α}
    (h : ∀ x ∈ (a.node e).operands, (operand x).Returns a v (operand' x)) :
    (a.evalNode v operand e).Returns a v (a.evalNode v operand' e) := by
  unfold evalNode
  cases hn : a.node e with
  | num u => exact .pure
  | sym s =>
    dsimp only
    cases v s with
    | none => exact .throw
    | some u => exact .pure
  | neg x => exact (h x (by simp [hn, Node.operands])).bind fun _ _ => .pure
  | arith op x y =>
    exact (h x (by simp [hn, Node.operands])).bind fun _ _ =>
      (h y (by simp [hn, Node.operands])).bind fun _ _ => .pure
  | call f args =>
    rcases args with _ | ⟨x, _ | ⟨y, args⟩⟩
    · exact .throw
    · refine (h x (by simp [hn, Node.operands])).bind fun u _ => ?_
      cases f.value? u with
      | none => exact .throw
      | some w => exact .pure
    · exact .throw
  | compare | join => exact .throw

/-- A value that is not in the table is that of the node, and it is entered. -/
theorem evalBelow_succ (a : Arena α) (v : Valuation α) (n : Nat) (e : ExprId) :
    a.evalBelow v (n + 1) e = do
      if let some value := (← get)[e]? then
        return value
      let value ← a.evalNode v (a.evalBelow v n) e
      modify (·.insert e value)
      return value := by
  rw [evalBelow]
  refine bind_congr fun table => ?_
  cases table[e]? with
  | some u => rfl
  | none =>
    unfold evalNode
    cases a.node e with
    | num | compare | join => rfl
    | sym s =>
      dsimp only
      cases v s <;> rfl
    | neg x => simp only [bind_assoc]
    | arith op x y => simp only [bind_assoc]
    | call f args =>
      rcases args with _ | ⟨x, _ | ⟨y, args⟩⟩
      · rfl
      · simp only [bind_assoc]
        refine bind_congr fun u => ?_
        cases f.value? u <;> rfl
      · rfl

/-- What is in the table is what the recursion would find, and what the recursion finds is entered. -/
theorem evalBelow_returns (ha : a.WellFormed) (hn : e < n) :
    (a.evalBelow v n e).Returns a v (a.plainEval v e) := by
  induction n generalizing e with
  | zero => exact absurd hn (Nat.not_lt_zero e)
  | succ n ih =>
    have hnode : (a.evalNode v (a.evalBelow v n) e).Returns a v (a.plainEval v e) := by
      rw [plainEval_eq ha]
      exact evalNode_returns fun x hx =>
        ih (Nat.lt_of_lt_of_le (ha.lt_of_mem_operands hx) (Nat.le_of_lt_succ hn))
    intro table htable
    rw [evalBelow_succ]
    -- the table has only values that the recursion finds, and an evaluation that fails enters nothing
    cases hknown : table[e]? with
    | some u =>
      rw [run_get, hknown, (plainEval_eq_ok ha).2 (htable e u hknown)]
      exact ⟨table, rfl, htable⟩
    | none =>
      obtain ⟨table', hrun, hsound⟩ := hnode table htable
      rw [run_get, hknown]
      dsimp only
      rw [run_bind, hrun]
      cases hr : a.plainEval v e with
      | error error => exact ⟨table', rfl, hsound⟩
      | ok u => exact ⟨table'.insert e u, rfl, hsound.insert ((plainEval_eq_ok ha).1 hr)⟩

theorem evalWith_returns (ha : a.WellFormed) (e : ExprId) : (a.evalWith v e).Returns a v (a.plainEval v e) :=
  evalBelow_returns ha (Nat.lt_succ_self e)

/-- The results of one evaluation after the other, with one table for all of them. -/
def evaluations (a : Arena α) (v : Valuation α) (es : List ExprId) : List (Except EvalError α) :=
  ((es.mapM fun e => (a.evalWith v e).run).run {}).1

/-- Every evaluation gives what the recursion gives, whatever has been evaluated before, and whether or not
it failed. -/
theorem evaluations_eq (ha : a.WellFormed) (v : Valuation α) (es : List ExprId) :
    a.evaluations v es = es.map (a.plainEval v) := by
  have hfrom (table : ValueTable α) (h : table.Sound a v) :
      ((es.mapM fun e => (a.evalWith v e).run).run table).1 = es.map (a.plainEval v) := by
    induction es generalizing table with
    | nil => rfl
    | cons e es ih =>
      obtain ⟨table', hrun, hsound⟩ := evalWith_returns ha e table h
      rw [List.mapM_cons, List.map_cons, ← ih table' hsound]
      simp only [StateT.run_bind, hrun]
      rfl
  exact hfrom {} ValueTable.sound_empty

theorem evalWith_computes (ha : a.WellFormed) (e : ExprId) :
    (a.evalWith v e).Computes a v (a.Value ArithOp.apply v e) :=
  (evalWith_returns ha e).computes fun _ => plainEval_eq_ok ha

/-- The evaluation has the value of the expression as its result. -/
theorem eval_eq_ok (ha : a.WellFormed) : a.eval v e = .ok u ↔ a.Value ArithOp.apply v e u := by
  obtain ⟨r, table, hrun, -, hr⟩ := evalWith_computes ha e {} ValueTable.sound_empty
  rw [← hr, eval, hrun]

end Arena

end HybridPlan
