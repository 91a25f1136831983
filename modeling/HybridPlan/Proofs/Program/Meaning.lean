import HybridPlan.Proofs.Program.Reading

set_option autoImplicit false

/-! # What the texts of terms mean

What the text of a term is read as has the value of the term in exact arithmetic wherever the bases
of the powers with variable exponents are positive, and no value elsewhere, because such powers are
written by exponential and logarithm. -/

namespace HybridPlan

open Exact (real)

/-! ## Exact values -/

namespace Term

mutual

/-- The term with every number replaced. -/
def map {α β : Type} (f : α → β) : Term α → Term β
  | .const c => .const (f c)
  | .var v => .var v
  | .neg a => .neg (map f a)
  | .sum items => .sum (mapAll f items)
  | .binary op a b => .binary op (map f a) (map f b)
  | .call g a => .call g (map f a)

def mapAll {α β : Type} (f : α → β) : List (Term α) → List (Term β)
  | [] => []
  | t :: ts => map f t :: mapAll f ts

end

/-- The value of a term in exact arithmetic at real values of its variables. -/
noncomputable def exactValue (values : VarId → ℝ) (t : Term Binary64) : Exact :=
  (t.map Binary64.exact).eval fun v => real (values v)

variable {values : VarId → ℝ} {t a b : Term Binary64} {r : ℝ}

theorem exactValue_const (c : Binary64) : (const c).exactValue values = c.exact := rfl

theorem exactValue_var (v : VarId) : (var v).exactValue values = real (values v) := rfl

theorem exactValue_neg : (neg a).exactValue values = -a.exactValue values := rfl

theorem exactValue_sum (items : List (Term Binary64)) :
    (sum items).exactValue values = Scalar.sum (items.map (exactValue values)) := by
  have hitems : evalAll (fun v => real (values v)) (mapAll Binary64.exact items) =
      items.map (exactValue values) := by
    induction items with
    | nil => rfl
    | cons t items ih => exact congrArg (t.exactValue values :: ·) ih
  exact congrArg Scalar.sum hitems

theorem exactValue_binary (op : TermOp) :
    (binary op a b).exactValue values = op.value (a.exactValue values) (b.exactValue values) :=
  rfl

theorem exactValue_call (f : Elementary) :
    (call f a).exactValue values = f.value (a.exactValue values) := rfl

/-! ## Bases of powers -/

/-- Wherever the base of a power with a variable exponent has a value, the value is positive. -/
def PositiveBases (values : VarId → ℝ) (t : Term Binary64) : Prop :=
  ∀ ⦃a b : Term Binary64⦄, (binary .pow a b).Part t → (∀ e, b ≠ const e) →
    ∀ x, a.exactValue values = real x → 0 < x

theorem positiveBases_const (c : Binary64) : (const c).PositiveBases values := by
  intro a b hpart
  cases hpart

theorem positiveBases_var (v : VarId) : (var v : Term Binary64).PositiveBases values := by
  intro a b hpart
  cases hpart

theorem positiveBases_neg : (neg a).PositiveBases values ↔ a.PositiveBases values := by
  constructor
  · exact fun h _ _ hpart => h (.neg hpart)
  · intro h a' b' hpart
    cases hpart with
    | neg hpart => exact h hpart

theorem positiveBases_sum {items : List (Term Binary64)} :
    (sum items).PositiveBases values ↔ ∀ t ∈ items, t.PositiveBases values := by
  constructor
  · exact fun h t ht _ _ hpart => h (.item ht hpart)
  · intro h a' b' hpart
    cases hpart with
    | item ht hpart => exact h _ ht hpart

theorem positiveBases_binary {op : TermOp} :
    (binary op a b).PositiveBases values ↔
      a.PositiveBases values ∧ b.PositiveBases values ∧
        (op = .pow → (∀ e, b ≠ const e) → ∀ x, a.exactValue values = real x → 0 < x) := by
  constructor
  · refine fun h => ⟨fun _ _ hpart => h (.left hpart), fun _ _ hpart => h (.right hpart), ?_⟩
    rintro rfl
    exact h .self
  · rintro ⟨ha, hb, hself⟩ a' b' hpart
    cases hpart with
    | self => exact hself rfl
    | left hpart => exact ha hpart
    | right hpart => exact hb hpart

theorem positiveBases_call {f : Elementary} :
    (call f a).PositiveBases values ↔ a.PositiveBases values := by
  constructor
  · exact fun h _ _ hpart => h (.argument hpart)
  · intro h a' b' hpart
    cases hpart with
    | argument hpart => exact h hpart

end Term

/-! ## Operations with real results -/

theorem TermOp.value_eq_real {op : TermOp} {u v : Exact} {r : ℝ} :
    op.value u v = real r ↔
      ∃ x y, u = real x ∧ v = real y ∧ op.value (real x) (real y) = real r := by
  have hlift (g : ℝ → ℝ → Option ℝ) : Exact.lift₂ g u v = real r ↔
      ∃ x y, u = real x ∧ v = real y ∧ Exact.lift₂ g (real x) (real y) = real r := by
    cases u <;> cases v <;> simp [Exact.lift₂, Exact.lift]
  cases op with
  | sub | mul | div | pow => exact hlift _

theorem Exact.toInt?_half : Exact.toInt? (1 / 2) = none := by
  rw [Option.eq_none_iff_forall_ne_some]
  intro n hn
  have hhalf : (n : ℝ) = 1 / 2 := Exact.toInt?_eq_some.1 hn
  have hdouble : (2 * n : ℤ) = 1 := by
    have hcast : ((2 * n : ℤ) : ℝ) = (1 : ℤ) := by
      push_cast
      rw [hhalf]
      norm_num
    exact Int.cast_injective hcast
  omega

/-- A square root is a power. -/
theorem Exact.pow_half (u : Exact) : Scalar.pow u (real (1 / 2)) = Scalar.sqrt u := by
  cases u with
  | real x =>
    change (Exact.pow x (1 / 2)).elim Exact.undefined real =
      (if 0 ≤ x then some (Real.sqrt x) else none).elim Exact.undefined real
    unfold Exact.pow
    rw [Exact.toInt?_half]
    dsimp only
    by_cases hx : 0 ≤ x
    · have hdefined : ¬(x < 0 ∨ x = 0 ∧ (1 / 2 : ℝ) < 0) := by
        rintro (hlt | ⟨-, hlt⟩)
        · exact hlt.not_ge hx
        · norm_num at hlt
      rw [if_neg hdefined, if_pos hx, Real.sqrt_eq_rpow]
    · rw [if_pos (.inl (not_le.1 hx)), if_neg hx]
  | infinite | undefined => rfl

theorem Exact.pow_eq_exp {x : ℝ} (hx : 0 < x) (y : ℝ) :
    Scalar.pow (real x) (real y) = real (Real.exp (y * Real.log x)) := by
  rw [Exact.pow_eq_real]
  refine ⟨x, y, rfl, rfl, ?_⟩
  rw [Exact.pow_of_pos hx, Real.rpow_def_of_pos hx, mul_comm]

/-- A power of a positive number is the exponential of a product; of other numbers there is no
logarithm. -/
theorem Exact.exp_mul_log_eq_real {u v : Exact} {r : ℝ} :
    Scalar.exp (v * Scalar.log u) = real r ↔
      Scalar.pow u v = real r ∧ ∀ x, u = real x → 0 < x := by
  have hexp {w : Exact} : Scalar.exp w = real r ↔ ∃ z, w = real z ∧ Real.exp z = r :=
    Exact.lift_eq_real.trans (by simp)
  constructor
  · intro h
    obtain ⟨z, hz, rfl⟩ := hexp.1 h
    obtain ⟨y, l, rfl, hl, rfl⟩ := Exact.mul_eq_real.1 hz
    obtain ⟨x, rfl, hx, rfl⟩ := Exact.log_eq_real.1 hl
    refine ⟨Exact.pow_eq_exp hx y, ?_⟩
    rintro x' ⟨⟩
    exact hx
  · rintro ⟨h, hpositive⟩
    obtain ⟨x, y, rfl, rfl, -⟩ := Exact.pow_eq_real.1 h
    have hx := hpositive x rfl
    rw [Exact.pow_eq_exp hx] at h
    rw [Exact.log_eq_real.2 ⟨x, rfl, hx, rfl⟩, Exact.real_mul_real]
    exact hexp.2 ⟨_, rfl, Exact.real.inj h⟩

/-! ## What is read -/

namespace Cip

variable {values : VarId → ℝ} {t a b : Term Binary64} {r : ℝ} {n : Nat}

theorem exactValue_constant (c : Binary64) : (constant c).exactValue values = c.exact := by
  unfold constant
  split
  · exact Term.exactValue_const c
  split
  · rw [Term.exactValue_neg, Term.exactValue_const, ← Binary64.exact_neg, Binary64.neg_neg_eq]
  split
  · next hundefined =>
    obtain ⟨negative, rfl⟩ := Binary64.isUndefined_iff.1 hundefined
    rw [Term.exactValue_const, Binary64.exact_undefined]
    exact Binary64.exact_undefined false
  · exact Term.exactValue_const c

section

variable {u u' v v' : Exact} {P Q : Prop}

theorem strict_eq_real_of_condition {f : Exact → Exact}
    (hf : ∀ w s, f w = real s ↔ ∃ x, w = real x ∧ f (real x) = real s)
    (hu : ∀ x, u' = real x ↔ u = real x ∧ P) : f u' = real r ↔ f u = real r ∧ P := by
  rw [hf u', hf u]
  constructor
  · rintro ⟨x, hx, h⟩
    obtain ⟨hx, hP⟩ := (hu x).1 hx
    exact ⟨⟨x, hx, h⟩, hP⟩
  · rintro ⟨⟨x, hx, h⟩, hP⟩
    exact ⟨x, (hu x).2 ⟨hx, hP⟩, h⟩

/-- Operations on numbers that are real under conditions are real under both. -/
theorem value_eq_real_of_conditions {op : TermOp} (hu : ∀ x, u' = real x ↔ u = real x ∧ P)
    (hv : ∀ y, v' = real y ↔ v = real y ∧ Q) :
    op.value u' v' = real r ↔ op.value u v = real r ∧ P ∧ Q := by
  rw [TermOp.value_eq_real, TermOp.value_eq_real (u := u)]
  constructor
  · rintro ⟨x, y, hx, hy, h⟩
    obtain ⟨hx, hP⟩ := (hu x).1 hx
    obtain ⟨hy, hQ⟩ := (hv y).1 hy
    exact ⟨⟨x, y, hx, hy, h⟩, hP, hQ⟩
  · rintro ⟨⟨x, y, hx, hy, h⟩, hP, hQ⟩
    exact ⟨x, y, (hu x).2 ⟨hx, hP⟩, (hv y).2 ⟨hy, hQ⟩, h⟩

theorem sum_eq_real_of_conditions {ι : Type} {items : List ι} {f f' : ι → Exact} {P : ι → Prop}
    (h : ∀ i ∈ items, ∀ x, f' i = real x ↔ f i = real x ∧ P i) :
    Scalar.sum (items.map f') = real r ↔
      Scalar.sum (items.map f) = real r ∧ ∀ i ∈ items, P i := by
  constructor
  · intro hsum
    have hitem (i : ι) (hi : i ∈ items) : ∃ x, f' i = real x ∧ f i = real x ∧ P i := by
      obtain ⟨x, hx⟩ := Exact.exists_real_of_sum hsum (List.mem_map_of_mem hi)
      exact ⟨x, hx, (h i hi x).1 hx⟩
    have hequal : items.map f' = items.map f := List.map_congr_left fun i hi => by
      obtain ⟨x, hx, hx', -⟩ := hitem i hi
      rw [hx, hx']
    refine ⟨by rw [← hequal, hsum], fun i hi => ?_⟩
    obtain ⟨_, -, -, hP⟩ := hitem i hi
    exact hP
  · rintro ⟨hsum, hP⟩
    have hequal : items.map f' = items.map f := List.map_congr_left fun i hi => by
      obtain ⟨x, hx⟩ := Exact.exists_real_of_sum hsum (List.mem_map_of_mem hi)
      rw [hx, (h i hi x).2 ⟨hx, hP i hi⟩]
    rw [hequal, hsum]

end

theorem exactValue_exponential (h : ∀ e, b ≠ .const e) :
    (reading (.binary .pow a b)).exactValue values =
      Scalar.exp ((reading b).exactValue values * Scalar.log ((reading a).exactValue values)) := by
  rw [reading_exponential h]
  rfl

theorem exactValue_operation {op : TermOp} (h : op = .pow → ∃ e, b = .const e) :
    (reading (.binary op a b)).exactValue values =
      op.value ((reading a).exactValue values) ((reading b).exactValue values) := by
  have hreading : reading (.binary op a b) = .binary op (reading a) (reading b) := by
    cases op with
    | sub | mul | div => rfl
    | pow =>
      obtain ⟨e, rfl⟩ := h rfl
      rfl
  rw [hreading, Term.exactValue_binary]

theorem exactValue_sqrt :
    (reading (.call .sqrt a)).exactValue values =
      Elementary.sqrt.value ((reading a).exactValue values) := by
  have hhalf : half.exact = real (1 / 2) := Binary64.exact_half
  have hvalue : (reading (.call .sqrt a)).exactValue values =
      Scalar.pow ((reading a).exactValue values) half.exact := rfl
  rw [hvalue, hhalf, Exact.pow_half]
  rfl

/-- What is read has the values of the term where the bases of the powers with variable exponents
are positive. -/
theorem reading_eq_real (ht : t.Proper n) :
    (reading t).exactValue values = real r ↔
      t.exactValue values = real r ∧ t.PositiveBases values := by
  induction ht generalizing r with
  | @const c _ =>
    have hvalue : (reading (.const c)).exactValue values = (Term.const c).exactValue values :=
      exactValue_constant c
    rw [hvalue]
    exact (and_iff_left (Term.positiveBases_const c)).symm
  | @var v _ => exact (and_iff_left (Term.positiveBases_var v)).symm
  | @neg a _ ih =>
    have hvalue : (reading (.neg a)).exactValue values = -(reading a).exactValue values := rfl
    rw [hvalue, Term.exactValue_neg, Term.positiveBases_neg]
    exact strict_eq_real_of_condition (fun w s => Exact.neg_eq_real.trans (by simp)) fun _ => ih
  | @sum items _ _ ih =>
    have hreading : reading (.sum items) = .sum (items.map reading) :=
      congrArg Term.sum (readings_eq items)
    rw [hreading, Term.exactValue_sum, Term.exactValue_sum, Term.positiveBases_sum, List.map_map]
    exact sum_eq_real_of_conditions fun a ha _ => ih a ha
  | @binary op a b _ _ iha ihb =>
    have hoperation :
        op.value ((reading a).exactValue values) ((reading b).exactValue values) = real r ↔
          op.value (a.exactValue values) (b.exactValue values) = real r ∧
            a.PositiveBases values ∧ b.PositiveBases values :=
      value_eq_real_of_conditions (fun _ => iha) fun _ => ihb
    rw [Term.exactValue_binary, Term.positiveBases_binary]
    by_cases hvariable : op = .pow ∧ ∀ e, b ≠ .const e
    · obtain ⟨rfl, hexponent⟩ := hvariable
      rw [exactValue_exponential hexponent, Exact.exp_mul_log_eq_real]
      constructor
      · rintro ⟨h, hpositive⟩
        obtain ⟨h, ha, hb⟩ := hoperation.1 h
        exact ⟨h, ha, hb, fun _ _ x hx => hpositive x (iha.2 ⟨hx, ha⟩)⟩
      · rintro ⟨h, ha, hb, hpositive⟩
        exact ⟨hoperation.2 ⟨h, ha, hb⟩, fun x hx => hpositive rfl hexponent x (iha.1 hx).1⟩
    · have hfixed : op = .pow → ∃ e, b = .const e := fun hop =>
        not_forall_not.1 fun h => hvariable ⟨hop, h⟩
      have hvacuous : op = .pow → (∀ e, b ≠ .const e) →
          ∀ x, a.exactValue values = real x → 0 < x := fun hop h => absurd ⟨hop, h⟩ hvariable
      rw [exactValue_operation hfixed, hoperation, and_iff_left hvacuous]
  | @call f a _ ih =>
    rw [Term.exactValue_call, Term.positiveBases_call]
    by_cases hsqrt : f = .sqrt
    · subst hsqrt
      rw [exactValue_sqrt]
      exact strict_eq_real_of_condition (fun w s => Exact.value_eq_real) fun _ => ih
    · rw [reading_call hsqrt, Term.exactValue_call]
      exact strict_eq_real_of_condition (fun w s => Exact.value_eq_real) fun _ => ih

end Cip

namespace Terms

/-- The text of a term that was built is read without a rule of associativity if no power is written
as the base of a power, and what is read has the value of the term at all values of the variables
at which the term has one and the bases of its powers with variable exponents are positive. At other
values it has none. -/
theorem text_means {ts : Terms Binary64} {n : Nat} {t : TermId} {name : VarId → String}
    {var? : String → Option VarId} (hbuilt : ts.Built n) (ht : t < ts.size)
    (hnames : ∀ v < n, isIdentifier (name v).toList ∧ var? (name v) = some v)
    (hunchained : (ts.tree t).Unchained) :
    ∃ u, Cip.read? var? (Cip.term name (ts.tree t)) = some u ∧
      ∀ (values : VarId → ℝ) (r : ℝ), u.exactValue values = real r ↔
        (ts.tree t).exactValue values = real r ∧ (ts.tree t).PositiveBases values := by
  have hproper := hbuilt.proper_tree ht
  exact ⟨Cip.reading (ts.tree t), (Cip.reads_term hnames hproper hunchained).read?,
    fun values r => Cip.reading_eq_real hproper⟩

/-! ## Powers of powers and variable exponents -/

/-- The variables `x` and `y`, the power of `x` to `y`, and the square root of the square root of
`x`. -/
def powers : Terms Binary64 :=
  [Construction.var 0, .var 1, .pow 0 1, .call .sqrt 0, .call .sqrt 3].foldl
    (fun ts c => (c.make.run ts).2) {}

/-- The names of the two variables. -/
def coordinate (v : VarId) : String := if v = 0 then "x" else "y"

def coordinate? (s : String) : Option VarId :=
  if s = "x" then some 0 else if s = "y" then some 1 else none

theorem built_powers : powers.Built 2 ∧ powers.items =
    #[.var 0, .var 1, .binary .pow 0 1, .call .sqrt 0, .call .sqrt 3] := by
  have hempty : Built 2 ({} : Terms Binary64) ∧ ({} : Terms Binary64).items = #[] := ⟨.empty, rfl⟩
  have hx := Built.extend (c := .var 0) hempty Nat.zero_lt_two (by simp [Construction.operands]) rfl
    (by simp)
  have hy := Built.extend (c := .var 1) hx Nat.one_lt_two (by simp [Construction.operands]) rfl
    (by simp)
  have hpower := Built.extend (c := .pow 0 1) hy trivial (by simp [Construction.operands])
    (run_pow (const?_var hy.2 rfl) (const?_var hy.2 rfl)) (by simp)
  have hroot := Built.extend (c := .call .sqrt 0) hpower trivial (by simp [Construction.operands])
    (run_call .sqrt (const?_var hpower.2 rfl)) (by simp)
  exact Built.extend (c := .call .sqrt 3) hroot trivial (by simp [Construction.operands])
    (run_call .sqrt (const?_call hroot.2 rfl)) (by simp)

theorem size_powers : powers.size = 5 := congrArg Array.size built_powers.2

theorem tree_power : powers.tree 2 = .binary .pow (.var 0) (.var 1) := by
  simp [tree, treeBelow, node, built_powers.2]

theorem tree_root : powers.tree 4 = .call .sqrt (.call .sqrt (.var 0)) := by
  simp [tree, treeBelow, node, built_powers.2]

theorem coordinate_names :
    ∀ v < 2, isIdentifier (coordinate v).toList ∧ coordinate? (coordinate v) = some v := by
  decide

theorem unchained_power : (powers.tree 2).Unchained := by
  rw [tree_power]
  intro s base hpart hbase
  cases hpart with
  | self => cases hbase
  | left hpart =>
    cases hpart
    cases hbase
  | right hpart =>
    cases hpart
    cases hbase

theorem exactValue_power (values : VarId → ℝ) :
    (Term.binary .pow (.var 0) (.var 1)).exactValue values =
      Scalar.pow (real (values 0)) (real (values 1)) := by
  rw [Term.exactValue_binary, Term.exactValue_var, Term.exactValue_var]
  rfl

theorem positiveBases_power (values : VarId → ℝ) :
    (Term.binary .pow (.var 0) (.var 1)).PositiveBases values ↔ 0 < values 0 := by
  rw [Term.positiveBases_binary, Term.exactValue_var]
  constructor
  · rintro ⟨-, -, h⟩
    exact h rfl nofun _ rfl
  · refine fun h => ⟨Term.positiveBases_var 0, Term.positiveBases_var 1, ?_⟩
    rintro - - x ⟨⟩
    exact h

/-- The reader does not read a root of a root. -/
theorem read?_root : Cip.read? coordinate? (Cip.term coordinate (powers.tree 4)) = none := by
  have htext : (Cip.term coordinate (powers.tree 4)).toList =
      '<' :: ("x".toList ++ ['>']) ++
        '^' :: '(' :: (['0', '.', '5'] ++ ')' :: '^' :: ['(', '0', '.', '5', ')']) := by
    rw [tree_root, Cip.toList_sqrt, Cip.toList_sqrt]
    simp [Cip.term, coordinate]
  have hatom : Cip.IsAtom coordinate? ('<' :: ("x".toList ++ ['>'])) (.var 0) :=
    Cip.isAtom_var (by decide) (by decide)
  rw [Cip.read?, htext, Cip.readItem_chain hatom Cip.isContent_half (by decide)]

theorem text_means_power :
    powers.Built 2 ∧ 2 < powers.size ∧
      (∀ v < 2, isIdentifier (coordinate v).toList ∧ coordinate? (coordinate v) = some v) ∧
      (powers.tree 2).Unchained ∧
      ∃ u, Cip.read? coordinate? (Cip.term coordinate (powers.tree 2)) = some u ∧
        u.exactValue (fun v => v + 2) = real 8 := by
  have hsize : 2 < powers.size := by
    rw [size_powers]
    decide
  obtain ⟨u, hread, hvalue⟩ :=
    text_means built_powers.1 hsize coordinate_names unchained_power
  refine ⟨built_powers.1, hsize, coordinate_names, unchained_power, u, hread, (hvalue _ _).2 ?_⟩
  rw [tree_power, exactValue_power, positiveBases_power]
  refine ⟨?_, by norm_num⟩
  have hpow := Exact.pow_natCast (x := 2) 3
  norm_num at hpow ⊢
  exact hpow

/-- The root of a root is not read, and where a base is negative what is read has no value though
the power has one. -/
theorem powers_misread :
    powers.Built 2 ∧ 4 < powers.size ∧
      (∀ v < 2, isIdentifier (coordinate v).toList ∧ coordinate? (coordinate v) = some v) ∧
      Cip.read? coordinate? (Cip.term coordinate (powers.tree 4)) = none ∧
      ∃ u, Cip.read? coordinate? (Cip.term coordinate (powers.tree 2)) = some u ∧
        (powers.tree 2).exactValue (fun v => if v = 0 then -2 else 2) = real 4 ∧
        ∀ r, u.exactValue (fun v => if v = 0 then -2 else 2) ≠ real r := by
  have hsize : 4 < powers.size ∧ 2 < powers.size := by
    rw [size_powers]
    decide
  have hproper := built_powers.1.proper_tree hsize.2
  refine ⟨built_powers.1, hsize.1, coordinate_names, read?_root, Cip.reading (powers.tree 2),
    (Cip.reads_term coordinate_names hproper unchained_power).read?, ?_, fun r hr => ?_⟩
  · have hpow := Exact.pow_natCast (x := -2) 2
    rw [tree_power, exactValue_power]
    norm_num at hpow ⊢
    exact hpow
  · obtain ⟨-, hpositive⟩ := (Cip.reading_eq_real hproper).1 hr
    rw [tree_power, positiveBases_power] at hpositive
    norm_num at hpositive

end Terms

end HybridPlan
