import HybridPlan.Domain.Basic
import HybridPlan.Expr.Token
import HybridPlan.Proofs.Except
import HybridPlan.Proofs.Expr.Growth
import Mathlib.Data.Set.Insert

set_option autoImplicit false

/-! # What expressions are made of

An expression is made of a vocabulary if its literals, its symbols and its functions belong to it,
and if it joins no empty list of constraints. Constructions from such expressions yield such
expressions, in an arena that stays well-formed; this is shown once for each constructor, and then
only passed on from the steps of a construction to the whole. -/

namespace HybridPlan

variable {α : Type} [Scalar α]

/-! ## Expressions made of certain nodes -/

/-- All nodes of an expression satisfy `P`. -/
inductive Arena.MadeOf (a : Arena α) (P : Node α → Prop) : ExprId → Prop
  | node {e : ExprId} {n : Node α} (he : a.table.items[e]? = some n) (hn : P n)
      (hx : ∀ x ∈ n.operands, MadeOf a P x) : MadeOf a P e

namespace Arena.MadeOf

variable {a b : Arena α} {P Q : Node α → Prop} {e : ExprId}

theorem getElem? (h : a.MadeOf P e) : a.table.items[e]? = some (a.node e) := by
  cases h with
  | node he _ _ => rw [Arena.node_eq_of_getElem? he, he]

theorem lt_size (h : a.MadeOf P e) : e < a.size := lt_size_of_getElem? h.getElem?

theorem holds (h : a.MadeOf P e) : P (a.node e) := by
  cases h with
  | node he hn _ => rwa [Arena.node_eq_of_getElem? he]

theorem operand (h : a.MadeOf P e) {x : ExprId} (hx : x ∈ (a.node e).operands) : a.MadeOf P x := by
  cases h with
  | node he _ hxs =>
    rw [Arena.node_eq_of_getElem? he] at hx
    exact hxs x hx

/-- An expression is the same in a larger arena. -/
theorem mono (hab : a ≤ b) (h : a.MadeOf P e) : b.MadeOf P e := by
  induction h with
  | node he hn _ ih => exact .node (hab he) hn ih

theorem imp (hPQ : ∀ n, P n → Q n) (h : a.MadeOf P e) : a.MadeOf Q e := by
  induction h with
  | node he hn _ ih => exact .node he (hPQ _ hn) ih

end Arena.MadeOf

/-! ## Vocabularies -/

/-- The literals, the symbols and the functions that an expression may use, and whether it may be
a constraint. -/
structure Vocabulary (α : Type) where
  literal : α → Prop
  symbol : String → Prop
  /-- The functions, each with the numbers of arguments that it may have. -/
  function : Func → Nat → Prop := fun _ _ => True
  constraint : Prop := True

namespace Vocabulary

/-- A node of a vocabulary. What is joined must not be empty. -/
def Allows (V : Vocabulary α) : Node α → Prop
  | .num x => V.literal x
  | .sym s => V.symbol s
  | .call f args => V.function f args.length
  | .compare _ _ _ => V.constraint
  | .join _ items => V.constraint ∧ items ≠ []
  | .neg _ | .arith _ _ _ => True

/-- The vocabulary of everything. -/
def all (α : Type) : Vocabulary α where
  literal _ := True
  symbol _ := True

/-- Constraints over the symbols, as a text can state them: functions have as many arguments as they
should. -/
def formulas (α : Type) (symbol : String → Prop) : Vocabulary α where
  literal _ := True
  symbol := symbol
  function f n := n = f.arity

/-- Arithmetic over the symbols. -/
def arithmetic (α : Type) (symbol : String → Prop) : Vocabulary α where
  literal _ := True
  symbol := symbol
  function f n := f ≠ .dd ∧ n = 1
  constraint := False

/-- The literals are closed under what constructors do with them: numbers and whatever is finite
are literals, and so are the results of arithmetic. Constructors do not divide by zero, and call
functions of one argument. -/
structure Closed (V : Vocabulary α) : Prop where
  elementary : ∀ f, V.function (.elementary f) 1
  nat : ∀ n, V.literal (Scalar.nat n)
  finite : ∀ x, Scalar.isFinite x → V.literal x
  neg : ∀ x, V.literal x → V.literal (-x)
  add : ∀ x y, V.literal x → V.literal y → V.literal (x + y)
  sub : ∀ x y, V.literal x → V.literal y → V.literal (x - y)
  mul : ∀ x y, V.literal x → V.literal y → V.literal (x * y)
  div : ∀ x y, V.literal x → V.literal y → ¬Scalar.isZero y → V.literal (x / y)

theorem closed_all : (all α).Closed := by
  constructor <;> intros <;> trivial

theorem closed_formulas (symbol : String → Prop) : (formulas α symbol).Closed := by
  constructor <;> intros <;> trivial

theorem closed_arithmetic (symbol : String → Prop) : (arithmetic α symbol).Closed where
  elementary _ := ⟨Func.noConfusion, rfl⟩
  nat _ := trivial
  finite _ _ := trivial
  neg _ _ := trivial
  add _ _ _ _ := trivial
  sub _ _ _ _ := trivial
  mul _ _ _ _ := trivial
  div _ _ _ _ _ := trivial

/-- A word by which a text can name something: an identifier that is no connective. -/
def IsName (s : String) : Prop := isIdentifier s.toList ∧ Token.ofWord s = .ident s

/-- The vocabulary has whatever a text can say. -/
structure Complete (V : Vocabulary α) : Prop extends V.Closed where
  decimal : ∀ digits exponent, V.literal (Scalar.ofDecimal digits exponent)
  name : ∀ s, IsName s → V.symbol s
  arity : ∀ f : Func, V.function f f.arity
  compound : V.constraint

theorem complete_all : (all α).Complete where
  toClosed := closed_all
  decimal _ _ := trivial
  name _ _ := trivial
  arity _ := trivial
  compound := trivial

theorem complete_formulas {symbol : String → Prop} (h : ∀ s, IsName s → symbol s) :
    (formulas α symbol).Complete where
  toClosed := closed_formulas _
  decimal _ _ := trivial
  name := h
  arity _ := rfl
  compound := trivial

variable {V : Vocabulary α}

theorem Closed.zero (hV : V.Closed) : V.literal Scalar.zero := hV.nat 0

theorem Closed.one (hV : V.Closed) : V.literal Scalar.one := hV.nat 1

theorem Closed.int (hV : V.Closed) (i : Int) : V.literal (Scalar.int i) := by
  unfold Scalar.int
  split
  · exact hV.neg _ (hV.nat _)
  · exact hV.nat _

theorem Closed.unsignedZero (hV : V.Closed) {x : α} (hx : V.literal x) :
    V.literal (Scalar.unsignedZero x) := by
  unfold Scalar.unsignedZero
  split
  · exact hV.zero
  · exact hx

end Vocabulary

/-- An expression of a vocabulary. -/
abbrev Arena.Uses (a : Arena α) (V : Vocabulary α) (e : ExprId) : Prop := a.MadeOf V.Allows e

/-- An expression of a vocabulary is one of the vocabulary of everything. -/
theorem Arena.Uses.all {a : Arena α} {V : Vocabulary α} {e : ExprId} (h : a.Uses V e) :
    a.Uses (.all α) e := by
  refine h.imp fun n hn => ?_
  cases n with
  | join c items => exact ⟨trivial, hn.2⟩
  | num | sym | neg | arith | call | compare => trivial

/-! ## Constructions that stay in a vocabulary -/

/-- All results of the construction satisfy `P`, whatever the arena is. -/
def Build.Gives {ι : Type} (P : ι → Prop) (m : Build α ι) : Prop := ∀ a, P (m.run a).1

theorem Build.Gives.bind {ι κ : Type} {P : κ → Prop} {m : Build α ι} {f : ι → Build α κ}
    (h : ∀ i, Gives P (f i)) : Gives P (m >>= f) :=
  fun a => h (m.run a).1 (m.run a).2

/-- From a well-formed arena in which the expressions `C` are of the vocabulary, the construction
comes to a larger well-formed arena, and its result refers to expressions `R` of the vocabulary
only. -/
def Build.Yields {ι : Type} (V : Vocabulary α) (C : Set ExprId) (m : Build α ι)
    (R : ι → Set ExprId) : Prop :=
  ∀ a : Arena α, a.WellFormed → (∀ x ∈ C, a.Uses V x) →
    (m.run a).2.WellFormed ∧ a ≤ (m.run a).2 ∧ ∀ x ∈ R (m.run a).1, (m.run a).2.Uses V x

namespace Build.Yields

variable {ι κ : Type} {V : Vocabulary α} {C D : Set ExprId} {m : Build α ι} {R : ι → Set ExprId}

theorem pure {i : ι} (h : R i ⊆ C) : Yields V C (Pure.pure i) R :=
  fun _ ha hC => ⟨ha, le_refl _, fun x hx => hC x (h hx)⟩

/-- What is known of all results of a construction is known of its result. -/
theorem bind_of {P : ι → Prop} (hP : Gives P m) {f : ι → Build α κ}
    {S : κ → Set ExprId} (hm : Yields V C m R) (hf : ∀ i, P i → Yields V (R i ∪ C) (f i) S) :
    Yields V C (m >>= f) S := by
  intro a ha hC
  obtain ⟨hb, hab, hR⟩ := hm a ha hC
  obtain ⟨hc, hbc, hS⟩ := hf (m.run a).1 (hP a) (m.run a).2 hb
    (fun x hx => hx.elim (hR x) fun hx => (hC x hx).mono hab)
  exact ⟨hc, le_trans hab hbc, hS⟩

theorem bind {f : ι → Build α κ} {S : κ → Set ExprId} (hm : Yields V C m R)
    (hf : ∀ i, Yields V (R i ∪ C) (f i) S) : Yields V C (m >>= f) S :=
  bind_of (P := fun _ => True) (fun _ => trivial) hm fun i _ => hf i

theorem mono {R' : ι → Set ExprId} (hm : Yields V C m R) (hCD : C ⊆ D)
    (hR : ∀ i, R' i ⊆ R i) : Yields V D m R' := by
  intro a ha hD
  obtain ⟨hb, hab, h⟩ := hm a ha fun x hx => hD x (hCD hx)
  exact ⟨hb, hab, fun x hx => h x (hR _ hx)⟩

theorem weaken (hm : Yields V C m R) (hCD : C ⊆ D) : Yields V D m R :=
  hm.mono hCD fun _ => le_refl _

/-- A construction may look at the arena. What it finds in expressions of the vocabulary belongs to
the vocabulary. -/
theorem get {f : Arena α → Build α κ} {S : κ → Set ExprId}
    (h : ∀ a : Arena α, a.WellFormed → (∀ x ∈ C, a.Uses V x) →
      ∃ D, (∀ x ∈ D, a.Uses V x) ∧ Yields V (D ∪ C) (f a) S) :
    Yields V C (MonadState.get >>= f) S := by
  intro a ha hC
  obtain ⟨D, hD, hf⟩ := h a ha hC
  exact hf a ha fun x hx => hx.elim (hD x) (hC x)

/-- A construction that looks at the arena only to decide how to go on. -/
theorem look {f : Arena α → Build α κ} {S : κ → Set ExprId} (h : ∀ a, Yields V C (f a) S) :
    Yields V C (MonadState.get >>= f) S :=
  fun a => h a a

theorem ite {c : Prop} [Decidable c] {m' : Build α ι} (h : Yields V C m R)
    (h' : Yields V C m' R) : Yields V C (if c then m else m') R := by
  split
  · exact h
  · exact h'

theorem foldlM {f : ι → κ → Build α ι} {l : List κ} {i : ι} (hi : R i ⊆ C)
    (hf : ∀ i, ∀ k ∈ l, Yields V (R i ∪ C) (f i k) R) : Yields V C (l.foldlM f i) R := by
  induction l generalizing i C with
  | nil => exact pure hi
  | cons k l ih =>
    rw [List.foldlM_cons]
    refine bind ((hf i k List.mem_cons_self).weaken (Set.union_subset hi (le_refl _))) fun j =>
      ih Set.subset_union_left fun i' k' hk' =>
        (hf i' k' (List.mem_cons_of_mem _ hk')).weaken ?_
    exact Set.union_subset_union (le_refl _) Set.subset_union_right

end Build.Yields

/-! ## Constructions that can fail -/

/-- All results of the construction, when it has one, satisfy `P`. -/
def Build.Attempt.Gives {ε ι : Type} (P : ι → Prop) (m : Attempt α ε ι) : Prop :=
  Build.Gives (fun r => ∀ i, r = .ok i → P i) m.run

namespace Build.Attempt.Gives

variable {ε ε' ι κ : Type} {P : ι → Prop} {Q : κ → Prop} {m : Attempt α ε ι}

theorem pure {i : ι} (h : P i) : Gives P (Pure.pure i : Attempt α ε ι) := by
  rintro a j hj
  cases hj
  exact h

theorem throw {e : ε} : Gives P (MonadExcept.throw e : Attempt α ε ι) := by
  rintro a j hj
  cases hj

theorem bind {f : ι → Attempt α ε κ} (hm : Gives P m) (hf : ∀ i, P i → Gives Q (f i)) :
    Gives Q (m >>= f) := by
  intro a
  change ∀ j, (ExceptT.bindCont f (m.run.run a).1 |>.run (m.run.run a).2).1 = .ok j → Q j
  have hma := hm a
  cases hr : (m.run.run a).1 with
  | error e =>
    rintro j hj
    cases hj
  | ok i =>
    have hi := hma i hr
    exact hf i hi _

theorem weaken {P' : ι → Prop} (h : Gives P m) (hP : ∀ i, P i → P' i) : Gives P' m :=
  fun a i hi => hP i (h a i hi)

theorem any : Gives (fun _ => True) m := fun _ _ _ => trivial

theorem bind_except {r : Except ε ι} {f : ι → Attempt α ε κ} (h : ∀ i, r = .ok i → Gives Q (f i)) :
    Gives Q ((r : Attempt α ε ι) >>= f) := by
  cases r with
  | error e =>
    rintro a j hj
    cases hj
  | ok i => exact h i rfl

/-- A fallible list of constructions has a result for each item. -/
theorem mapM {f : κ → Attempt α ε ι} {R : κ → ι → Prop} {l : List κ}
    (hf : ∀ k ∈ l, Gives (R k) (f k)) : Gives (List.Forall₂ R l) (l.mapM f) := by
  induction l with
  | nil =>
    rw [List.mapM_nil]
    exact pure .nil
  | cons k l ih =>
    rw [List.mapM_cons]
    refine bind (hf k List.mem_cons_self) fun i hi => bind
      (ih fun k hk => hf k (List.mem_cons_of_mem _ hk)) fun is his => pure (.cons hi his)

end Build.Attempt.Gives

/-- The same of a construction that can fail; a failure refers to nothing. -/
def Build.Attempt.Yields {ε ι : Type} (V : Vocabulary α) (C : Set ExprId) (m : Attempt α ε ι)
    (R : ι → Set ExprId) : Prop :=
  Build.Yields V C m.run fun r => {x | ∃ i, r = .ok i ∧ x ∈ R i}

namespace Build.Attempt.Yields

variable {ε ε' ι κ : Type} {V : Vocabulary α} {C D : Set ExprId} {m : Attempt α ε ι}
  {R : ι → Set ExprId}

theorem pure {i : ι} (h : R i ⊆ C) : Yields V C (Pure.pure i : Attempt α ε ι) R := by
  refine Build.Yields.pure (i := Except.ok i) ?_
  rintro x ⟨j, hj, hx⟩
  cases hj
  exact h hx

theorem throw {e : ε} : Yields V C (MonadExcept.throw e : Attempt α ε ι) R := by
  refine Build.Yields.pure (i := Except.error e) ?_
  rintro x ⟨j, hj, hx⟩
  cases hj

theorem bind_of {P : ι → Prop} (hP : Gives P m) {f : ι → Attempt α ε κ} {S : κ → Set ExprId}
    (hm : Yields V C m R) (hf : ∀ i, P i → Yields V (R i ∪ C) (f i) S) :
    Yields V C (m >>= f) S := by
  change Build.Yields V C (m.run >>= ExceptT.bindCont f) _
  refine Build.Yields.bind_of hP hm fun r hr => ?_
  cases r with
  | error e =>
    refine Build.Yields.pure (i := Except.error e) ?_
    rintro x ⟨j, hj, hx⟩
    cases hj
  | ok i =>
    exact (hf i (hr i rfl)).weaken (Set.union_subset_union_left C fun x hx => ⟨i, rfl, hx⟩)

theorem bind {f : ι → Attempt α ε κ} {S : κ → Set ExprId} (hm : Yields V C m R)
    (hf : ∀ i, Yields V (R i ∪ C) (f i) S) : Yields V C (m >>= f) S :=
  bind_of .any hm fun i _ => hf i

theorem mono {R' : ι → Set ExprId} (hm : Yields V C m R) (hCD : C ⊆ D)
    (hR : ∀ i, R' i ⊆ R i) : Yields V D m R' := by
  refine Build.Yields.mono hm hCD fun r => ?_
  rintro x ⟨i, hi, hx⟩
  exact ⟨i, hi, hR i hx⟩

theorem weaken (hm : Yields V C m R) (hCD : C ⊆ D) : Yields V D m R :=
  hm.mono hCD fun _ => le_refl _

theorem lift {b : Build α ι} (hb : Build.Yields V C b R) :
    Yields V C (b : Attempt α ε ι) R := by
  refine Build.Yields.bind (f := fun i => Pure.pure (Except.ok i)) hb fun i => .pure ?_
  rintro x ⟨j, hj, hx⟩
  cases hj
  exact .inl hx

/-- A result that was computed without a construction is known. -/
theorem bind_except {r : Except ε ι} {f : ι → Attempt α ε κ} {S : κ → Set ExprId}
    (h : ∀ i, r = .ok i → Yields V C (f i) S) : Yields V C ((r : Attempt α ε ι) >>= f) S := by
  cases r with
  | error e =>
    refine Build.Yields.pure (i := Except.error e) ?_
    rintro x ⟨j, hj, hx⟩
    cases hj
  | ok i => exact h i rfl

theorem get {f : Arena α → Attempt α ε κ} {S : κ → Set ExprId}
    (h : ∀ a : Arena α, a.WellFormed → (∀ x ∈ C, a.Uses V x) →
      ∃ D, (∀ x ∈ D, a.Uses V x) ∧ Yields V (D ∪ C) (f a) S) :
    Yields V C (getThe (Arena α) >>= f) S := by
  change Build.Yields V C (MonadState.get >>= fun a => (f a).run) _
  exact Build.Yields.get h

theorem look {f : Arena α → Attempt α ε κ} {S : κ → Set ExprId} (h : ∀ a, Yields V C (f a) S) :
    Yields V C (getThe (Arena α) >>= f) S :=
  get fun a _ _ => ⟨∅, by simp, by simpa using h a⟩

theorem ite {c : Prop} [Decidable c] {m' : Attempt α ε ι} (h : Yields V C m R)
    (h' : Yields V C m' R) : Yields V C (if c then m else m') R := by
  split
  · exact h
  · exact h'

theorem adapt {f : ε → ε'} (h : Yields V C m R) : Yields V C (m.adapt f) R := by
  refine Build.Yields.bind (f := fun r => Pure.pure (Except.mapError f r)) h fun r => .pure ?_
  rintro x ⟨i, hi, hx⟩
  cases r with
  | error e => cases hi
  | ok j =>
    cases hi
    exact .inl ⟨_, rfl, hx⟩

theorem mapM {f : κ → Attempt α ε ι} {l : List κ} (hf : ∀ k ∈ l, Yields V C (f k) R) :
    Yields V C (l.mapM f) fun is => {x | ∃ i ∈ is, x ∈ R i} := by
  induction l generalizing C with
  | nil =>
    rw [List.mapM_nil]
    exact pure (by simp)
  | cons k l ih =>
    rw [List.mapM_cons]
    refine bind (hf k List.mem_cons_self) fun i => bind
      (ih fun k hk => (hf k (List.mem_cons_of_mem _ hk)).weaken Set.subset_union_right)
      fun is => pure ?_
    rintro x ⟨j, hj, hx⟩
    rcases List.mem_cons.1 hj with rfl | hj
    · exact .inr (.inl hx)
    · exact .inl ⟨j, hj, hx⟩

theorem foldlM {f : ι → κ → Attempt α ε ι} {l : List κ} {i : ι} (hi : R i ⊆ C)
    (hf : ∀ i, ∀ k ∈ l, Yields V (R i ∪ C) (f i k) R) : Yields V C (l.foldlM f i) R := by
  induction l generalizing i C with
  | nil => exact pure hi
  | cons k l ih =>
    rw [List.foldlM_cons]
    refine bind ((hf i k List.mem_cons_self).weaken (Set.union_subset hi (le_refl _))) fun j =>
      ih Set.subset_union_left fun i' k' hk' =>
        (hf i' k' (List.mem_cons_of_mem _ hk')).weaken ?_
    exact Set.union_subset_union (le_refl _) Set.subset_union_right

end Build.Attempt.Yields

/-! ## Attempts that succeed -/

namespace Build.Attempt

variable {ε ι κ : Type}

/-- A construction that can fail succeeds if its steps do, one in the arena that the other
leaves. -/
theorem run_bind_eq_ok {m : Attempt α ε ι} {f : ι → Attempt α ε κ} {a b : Arena α} {k : κ} :
    (m >>= f).run.run a = (.ok k, b) ↔
      ∃ i c, m.run.run a = (.ok i, c) ∧ (f i).run.run c = (.ok k, b) := by
  have hrun : (m >>= f).run.run a =
      (ExceptT.bindCont f (m.run.run a).1).run (m.run.run a).2 := rfl
  rw [hrun]
  generalize m.run.run a = r
  obtain ⟨r, c⟩ := r
  cases r with
  | error e =>
    constructor
    · intro h
      cases congrArg Prod.fst h
    · rintro ⟨i, c', h, -⟩
      cases h
  | ok i =>
    constructor
    · intro h
      exact ⟨i, c, rfl, h⟩
    · rintro ⟨i', c', h, h'⟩
      cases h
      exact h'

theorem run_except_eq_ok {r : Except ε ι} {a b : Arena α} {i : ι} :
    (r : Attempt α ε ι).run.run a = (.ok i, b) ↔ r = .ok i ∧ a = b := by
  cases r with
  | error e =>
    constructor
    · intro h
      cases congrArg Prod.fst h
    · rintro ⟨h, -⟩
      cases h
  | ok j =>
    constructor
    · intro h
      cases h
      exact ⟨rfl, rfl⟩
    · rintro ⟨h, rfl⟩
      cases h
      rfl

/-- An attempt that succeeds meets no error that would be put differently. -/
theorem run_adapt_eq_ok {ε' : Type} {g : ε → ε'} {m : Attempt α ε ι} {a b : Arena α} {i : ι} :
    (ExceptT.adapt g m : Attempt α ε' ι).run.run a = (.ok i, b) ↔ m.run.run a = (.ok i, b) := by
  have hrun : (ExceptT.adapt g m : Attempt α ε' ι).run.run a =
      ((m.run.run a).1.mapError g, (m.run.run a).2) := rfl
  rw [hrun, Prod.ext_iff, Prod.ext_iff, Except.mapError_eq_ok]

/-- A list of computations without an arena is the same inside of a construction. -/
theorem run_mapM_except_eq_ok {f : ι → Except ε κ} {l : List ι} {ks : List κ} {a b : Arena α} :
    (l.mapM fun i => (f i : Attempt α ε κ)).run.run a = (.ok ks, b) ↔ l.mapM f = .ok ks ∧ a = b := by
  induction l generalizing ks a b with
  | nil =>
    rw [List.mapM_nil, List.mapM_nil]
    exact run_except_eq_ok (r := .ok [])
  | cons i l ih =>
    rw [List.mapM_cons, List.mapM_cons, run_bind_eq_ok, Except.bind_eq_ok]
    constructor
    · rintro ⟨k, c, hk, h⟩
      obtain ⟨hfirst, rfl⟩ := run_except_eq_ok.1 hk
      obtain ⟨rest, c, hrest, h⟩ := run_bind_eq_ok.1 h
      obtain ⟨hothers, rfl⟩ := ih.1 hrest
      cases h
      exact ⟨⟨k, hfirst, Except.bind_eq_ok.2 ⟨rest, hothers, rfl⟩⟩, rfl⟩
    · rintro ⟨⟨k, hk, h⟩, rfl⟩
      obtain ⟨rest, hrest, h⟩ := Except.bind_eq_ok.1 h
      cases h
      exact ⟨k, a, run_except_eq_ok.2 ⟨hk, rfl⟩, run_bind_eq_ok.2 ⟨rest, a, ih.2 ⟨hrest, rfl⟩, rfl⟩⟩

theorem run_mapM_cons_eq_ok {f : ι → Attempt α ε κ} {i : ι} {l : List ι} {ks : List κ} {a b : Arena α} :
    ((i :: l).mapM f).run.run a = (.ok ks, b) ↔ ∃ k ks' c, (f i).run.run a = (.ok k, c) ∧
      (l.mapM f).run.run c = (.ok ks', b) ∧ ks = k :: ks' := by
  rw [List.mapM_cons, run_bind_eq_ok]
  constructor
  · rintro ⟨k, c, hk, h⟩
    obtain ⟨ks', c', hks', h⟩ := run_bind_eq_ok.1 h
    cases h
    exact ⟨k, ks', c, hk, hks', rfl⟩
  · rintro ⟨k, ks', c, hk, hks', rfl⟩
    exact ⟨k, c, hk, run_bind_eq_ok.2 ⟨ks', b, hks', rfl⟩⟩

/-- What a successful construction leaves behind. -/
theorem Yields.of_run {V : Vocabulary α} {C : Set ExprId} {m : Attempt α ε ι}
    {R : ι → Set ExprId} (hm : Yields V C m R) {a b : Arena α} {i : ι}
    (h : m.run.run a = (.ok i, b)) (ha : a.WellFormed) (hC : ∀ x ∈ C, a.Uses V x) :
    b.WellFormed ∧ a ≤ b ∧ ∀ x ∈ R i, b.Uses V x := by
  have hyields := hm a ha hC
  rw [h] at hyields
  exact ⟨hyields.1, hyields.2.1, fun x hx => hyields.2.2 x ⟨i, rfl, hx⟩⟩

end Build.Attempt

end HybridPlan
