import HybridPlan.Proofs.Encoding.Fitting
import HybridPlan.Proofs.Encoding.Names
import HybridPlan.Proofs.Encoding.Success
import HybridPlan.Proofs.Expr.Interning

set_option autoImplicit false

/-! # What the rows of a disjunction say exactly

The row of a disjunct leaves its switch one value, zero if the disjunct holds and one if it fails, and none
if the sides lie in a gap as wide as the tolerance, provided that they are not too far apart. So the rows
of a disjunction can be satisfied exactly if one of the disjuncts holds and none is in its gap, and then in
one way. -/

namespace HybridPlan

open Exact (real)

/-! ## Gaps -/

namespace Comparison

/-- The difference of the sides of an inequality, the smaller side coming first, is too large for it to hold
and too small for it to fail clearly. -/
def InGap (δ : ℝ) : Comparison → ℝ → ℝ → Prop
  | lt, x, y => -δ < x - y ∧ x - y < 0
  | le, x, y => 0 < x - y ∧ x - y < δ
  | gt, x, y => -δ < y - x ∧ y - x < 0
  | ge, x, y => 0 < y - x ∧ y - x < δ
  | eq, _, _ => False

variable {op : Comparison} {δ x y : ℝ}

theorem not_inGap_iff (hop : op ≠ .eq) : ¬op.InGap δ x y ↔ op.HoldsBy δ x y ∨ op.FailsBy δ x y := by
  have hlow (x y : ℝ) : ¬(-δ < x - y ∧ x - y < 0) ↔ x + δ ≤ y ∨ y ≤ x := by
    rw [not_and_or, not_lt, not_lt, sub_nonneg]
    refine or_congr_left ?_
    constructor <;> intro h <;> linarith
  have hhigh (x y : ℝ) : ¬(0 < x - y ∧ x - y < δ) ↔ x ≤ y ∨ y + δ ≤ x := by
    rw [not_and_or, not_lt, not_lt, sub_nonpos, le_sub_iff_add_le']
  cases op with
  | lt => exact hlow x y
  | gt => exact hlow y x
  | le => exact hhigh x y
  | ge => exact hhigh y x
  | eq => exact absurd rfl hop

theorem HoldsBy.not_failsBy (hδ : 0 < δ) (h : op.HoldsBy δ x y) : ¬op.FailsBy δ x y := by
  intro hfails
  cases op with
  | lt | le | gt | ge =>
    simp only [HoldsBy, FailsBy] at h hfails
    linarith
  | eq => exact hfails

end Comparison

namespace Arena

variable {a : Arena Exact} {v : Valuation Exact} {δ D : ℝ} {e : ExprId} {op : Comparison} {q r : ℝ}

/-- The inequality compares numbers that are at most so far apart. -/
def ComparesWithin (a : Arena Exact) (v : Valuation Exact) (D : ℝ) (e : ExprId) : Prop :=
  ∃ op q r, op ≠ .eq ∧ a.Compares v e op q r ∧ |q - r| ≤ D

/-- The numbers that the inequality compares are in its gap. -/
def InGap (a : Arena Exact) (v : Valuation Exact) (δ : ℝ) (e : ExprId) : Prop :=
  ∃ op q r, a.Compares v e op q r ∧ op.InGap δ q r

theorem Compares.respects_iff (h : a.Compares v e op q r) : a.Respects δ v e ↔ op.HoldsBy δ q r := by
  refine ⟨?_, .compare h⟩
  rintro ⟨truth, htruth, htrue⟩
  rwa [htruth.unique h.judges] at htrue

theorem Compares.inGap_iff (h : a.Compares v e op q r) : a.InGap v δ e ↔ op.InGap δ q r := by
  refine ⟨?_, fun hgap => ⟨op, q, r, h, hgap⟩⟩
  rintro ⟨op', q', r', h', hgap⟩
  obtain ⟨rfl, rfl, rfl⟩ := h.unique h'
  exact hgap

/-- An inequality outside of its gap is decided. -/
theorem ComparesWithin.decides {M : ℝ} (h : a.ComparesWithin v (M - δ) e) (hgap : ¬a.InGap v δ e) :
    a.Decides v δ M e := by
  obtain ⟨op, q, r, hop, hc, hbound⟩ := h
  rw [hc.inGap_iff, Comparison.not_inGap_iff hop] at hgap
  exact ⟨op, q, r, hc, hbound, hgap⟩

end Arena

namespace Encoding

variable {p : Problem Exact} {horizon : Nat} {W : Valuation Exact} {x : VarId → Exact}
  {s s' : State Exact} {scope : Scope} {label : String} {z : TermId} {zs : List TermId} {δ M D : ℝ}
  {i n : Nat} {item : ExprId} {items : List ExprId}

/-! ## Disjunctions that are encoded -/

/-- What denotes a number can be encoded: its symbols have values, and so they are declared. -/
theorem State.Means.canEncode (hs : s.Means p horizon W x) (hp : p.arena.WellFormed) {e : ExprId}
    (he : e < p.arena.size) {r : ℝ} (h : p.arena.Denotes (scope.valuation p W) e r) :
    s.CanEncode p scope e := by
  have hitem {e : ExprId} {n : Node Exact} (he : e < p.arena.size) (hnode : p.arena.node e = n) :
      p.arena.table.items[e]? = some n := hnode ▸ Arena.getElem?_of_lt_size he
  have hoperand {e y : ExprId} (he : e < p.arena.size) (hy : y ∈ (p.arena.node e).operands) :
      y < p.arena.size := Nat.lt_trans (hp.lt_of_mem_operands hy) he
  induction h with
  | num hnode =>
    exact .node (hitem he hnode) trivial (by simp [Node.operands])
  | @sym e name r hnode hname =>
    have hknows : s.Knows p scope name := by
      unfold Scope.valuation at hname
      cases hreading : reading? p scope name with
      | none => rw [hreading] at hname; cases hname
      | some u =>
        rw [hreading] at hname
        cases u with
        | inl c => exact .inl ⟨c, hreading⟩
        | inr y =>
          obtain ⟨v, hv, -⟩ := hs.named y _ hname
          exact .inr ⟨y, hreading, by rw [hv]; rfl⟩
    exact .node (hitem he hnode) hknows (by simp [Node.operands])
  | neg hnode _ ih =>
    refine .node (hitem he hnode) trivial ?_
    simpa [Node.operands] using ih (hoperand he (by simp [hnode, Node.operands]))
  | arith hnode _ _ _ ihx ihy =>
    refine .node (hitem he hnode) trivial ?_
    simpa [Node.operands] using ⟨ihx (hoperand he (by simp [hnode, Node.operands])),
      ihy (hoperand he (by simp [hnode, Node.operands]))⟩
  | call hnode _ _ ih =>
    refine .node (hitem he hnode) ⟨by simp, rfl⟩ ?_
    simpa [Node.operands] using ih (hoperand he (by simp [hnode, Node.operands]))

/-- The names that the disjuncts from `i` to `n` take, and that of the row that counts, are free. -/
structure State.Spares (s : State Exact) (label : String) (i n : Nat) : Prop where
  switch : ∀ j, i ≤ j → j < n → s.program.varOf? (switchName label j) = none
  row : ∀ j, i ≤ j → j < n → ¬s.program.rowNames.contains s!"{label}_or_{j}"
  count : ¬s.program.rowNames.contains s!"{label}_or"

theorem switchName_injective (label : String) : Function.Injective (switchName label) := by
  intro i j h
  have htokens := congrArg tokens h
  rw [tokens_switchName, tokens_switchName, List.cons.injEq] at htokens
  exact digits_inj.1 (List.singleton_inj.1 (List.append_cancel_left htokens.2))

theorem rowName_injective (label : String) : Function.Injective fun i : Nat => s!"{label}_or_{i}" := by
  intro i j h
  have htokens := congrArg tokens h
  rw [tokens_or_numbered, tokens_or_numbered] at htokens
  simpa [digits_inj] using List.append_cancel_left htokens

theorem rowName_ne_count (label : String) (i : Nat) : s!"{label}_or_{i}" ≠ s!"{label}_or" := by
  intro h
  have htokens := congrArg (List.length ∘ tokens) h
  simp only [Function.comp_apply, tokens_or_numbered, tokens_or, List.length_append] at htokens
  simp at htokens

/-- A disjunct that takes its names leaves those of the others free. -/
theorem State.Spares.next (h : s.Spares label i n)
    (hvars : s'.program.varIndex = s.program.varIndex.insert (switchName label i) s.program.vars.size)
    (hrows : s'.program.rowNames = s.program.rowNames.insert s!"{label}_or_{i}") :
    s'.Spares label (i + 1) n where
  switch j hij hjn := by
    have hne : switchName label i ≠ switchName label j :=
      fun heq => Nat.ne_of_lt hij (switchName_injective label heq)
    rw [Program.varOf?, hvars, Std.HashMap.getElem?_insert, if_neg (by simpa using hne)]
    exact h.switch j (Nat.le_of_lt hij) hjn
  row j hij hjn := by
    have hne : s!"{label}_or_{i}" ≠ s!"{label}_or_{j}" :=
      fun heq => Nat.ne_of_lt hij (rowName_injective label heq)
    rw [hrows, Std.HashSet.contains_insert, Bool.or_eq_true, beq_iff_eq, not_or]
    exact ⟨hne, h.row j (Nat.le_of_lt hij) hjn⟩
  count := by
    rw [hrows, Std.HashSet.contains_insert, Bool.or_eq_true, beq_iff_eq, not_or]
    exact ⟨rowName_ne_count label i, h.count⟩

/-- Between the bounds of a switch there are values. -/
theorem switch_bounds (label : String) (i : Nat) :
    ¬Scalar.lt (switch (α := Exact) label i).upper (switch (α := Exact) label i).lower := by
  simp [switch, Program.newVar, Program.bounds]

theorem exists_inequality {op : Comparison} (hop : op ≠ .eq) (a b : ExprId) :
    ∃ k, Inequality.of? op a b = some k ∧ k.lhs ∈ [a, b] ∧ k.rhs ∈ [a, b] := by
  cases op with
  | lt | le => exact ⟨_, rfl, by simp, by simp⟩
  | gt | ge => exact ⟨_, rfl, by simp, by simp⟩
  | eq => exact absurd rfl hop

/-- The row of a disjunct is added if its name is new. -/
theorem liftedRow_succeeds {name : String} (hname : ¬s.program.rowNames.contains name)
    (bounds : Exact × Exact) (bigM : Exact) (t u z : TermId) :
    ∃ s', (do
      let difference ← make (Terms.sub t u)
      let bigM ← make (Terms.const bigM)
      let lift ← make (Terms.mul z bigM)
      let body ← make (Terms.sub difference lift)
      extend (Program.addRow name bounds.1 body bounds.2)
      return z : Encode Exact TermId).run s = .ok (z, s') ∧ s.AddsRow name s' := by
  let s₁ := s.makes (Terms.sub t u)
  let s₂ := s₁.makes (Terms.const bigM)
  let s₃ := s₂.makes (Terms.mul z (s₁.made (Terms.const bigM)))
  have hkeeps : s.KeepsNames s₃ :=
    ((s.keepsNames_makes _).trans (s₁.keepsNames_makes _)).trans (s₂.keepsNames_makes _)
  obtain ⟨s', hs', hadds⟩ := row_succeeds (by rwa [hkeeps.rows]) bounds
    (Terms.sub (s.made (Terms.sub t u)) (s₂.made (Terms.mul z (s₁.made (Terms.const bigM)))))
  obtain ⟨body, s₄, hbody, hrow⟩ := run_bind_eq_ok.1 hs'
  refine ⟨s', ?_, hkeeps.addsRow hadds⟩
  refine run_bind_eq_ok.2 ⟨_, s₁, make_eq_ok.2 ⟨rfl, rfl⟩, ?_⟩
  refine run_bind_eq_ok.2 ⟨_, s₂, make_eq_ok.2 ⟨rfl, rfl⟩, ?_⟩
  refine run_bind_eq_ok.2 ⟨_, s₃, make_eq_ok.2 ⟨rfl, rfl⟩, ?_⟩
  exact run_bind_eq_ok.2 ⟨body, s₄, hbody, run_bind_eq_ok.2 ⟨⟨⟩, s', hrow, rfl⟩⟩

/-- A disjunct whose sides denote numbers is encoded if its names are free. -/
theorem disjunct_succeeds (hp : p.arena.WellFormed) (hs : s.Means p horizon W x)
    (hitem : p.arena.ComparesWithin (scope.valuation p W) D item) (hfree : s.Spares label i n)
    (hi : i < n) :
    ∃ z s', (disjunct p scope label i item).run s = .ok (z, s') ∧ s'.Spares label (i + 1) n := by
  obtain ⟨op, q, r, hop, ⟨a, b, hnode, hx, hy⟩, -⟩ := hitem
  obtain ⟨k, hk, hlhs, hrhs⟩ := exists_inequality hop a b
  obtain ⟨q', r', hq, hr, -⟩ := sides_of_compares (δ := 0) hnode hk ⟨a, b, hnode, hx, hy⟩
  have hsize {e : ExprId} (he : e ∈ [a, b]) : e < p.arena.size := by
    have he : e ∈ (p.arena.node item).operands := by rwa [hnode]
    refine Nat.lt_trans (hp.lt_of_mem_operands he) ?_
    by_contra hge
    rw [Arena.node_of_size_le (Nat.le_of_not_lt hge)] at hnode
    cases hnode
  -- the switch and its term change nothing of what symbols mean
  have hname := hfree.switch i (Nat.le_refl i) hi
  obtain ⟨-, hgrows, -⟩ := State.grows_switch (M := Set.univ) hs.wellFormed hname (Set.mem_univ _)
  have hs₁ := (ensures_switch hs hname).means.of_grows hgrows rfl fun _ _ => rfl
  obtain ⟨t, s₂, ht, hkeeps⟩ := term_succeeds label hp (hs₁.canEncode hp (hsize hlhs) hq)
  obtain ⟨u, s₃, hu, hkeeps'⟩ :=
    term_succeeds label hp (hkeeps.canEncode (hs₁.canEncode hp (hsize hrhs) hr))
  have hkeeps := hkeeps.trans hkeeps'
  have hrow : ¬s₃.program.rowNames.contains s!"{label}_or_{i}" := by
    rw [hkeeps.rows]
    exact hfree.row i (Nat.le_refl i) hi
  let z := (s.withVar (switch label i)).made (Terms.var s.program.vars.size)
  obtain ⟨s', hs', hadds⟩ :=
    liftedRow_succeeds hrow (switchBounds p.bigM p.feastol k.strict) p.bigM t u z
  have hadds := hkeeps.addsRow hadds
  refine ⟨z, s', ?_, hfree.next hadds.vars hadds.rows⟩
  unfold disjunct
  rw [hnode]
  dsimp only
  rw [hk]
  refine run_bind_eq_ok.2 ⟨_, _, addVar_eq_ok.2 ⟨hname, switch_bounds label i, rfl, rfl⟩, ?_⟩
  refine run_bind_eq_ok.2 ⟨_, _, make_eq_ok.2 ⟨rfl, rfl⟩, run_bind_eq_ok.2 ⟨t, s₂, ht, ?_⟩⟩
  exact run_bind_eq_ok.2 ⟨u, s₃, hu, hs'⟩

theorem disjuncts_succeed (hp : p.arena.WellFormed) (hfeastol : p.feastol = real δ)
    (hscope : Scope.Within horizon scope) (hs : s.Means p horizon W x)
    (hitems : ∀ e ∈ items, p.arena.ComparesWithin (scope.valuation p W) D e)
    (hfree : s.Spares label i (i + items.length)) :
    ∃ zs s', (disjuncts p scope label i items).run s = .ok (zs, s') ∧
      ¬s'.program.rowNames.contains s!"{label}_or" := by
  induction items generalizing i s with
  | nil => exact ⟨[], s, rfl, hfree.count⟩
  | cons item items ih =>
    rw [List.length_cons, ← Nat.add_assoc, Nat.add_right_comm] at hfree
    obtain ⟨z, s₁, hz, hfree₁⟩ := disjunct_succeeds hp hs (hitems item List.mem_cons_self) hfree
      (by omega)
    have hs₁ := ((disjunct_eq_ok hp hz).ensures hfeastol hs hscope).means
    obtain ⟨zs, s', hzs, hcount⟩ := ih hs₁ (fun e he => hitems e (List.mem_cons_of_mem _ he)) hfree₁
    exact ⟨z :: zs, s', run_bind_eq_ok.2 ⟨z, s₁, hz, run_bind_eq_ok.2 ⟨zs, s', hzs, rfl⟩⟩, hcount⟩

theorem disjunction_succeeds (hp : p.arena.WellFormed) (hfeastol : p.feastol = real δ)
    (hscope : Scope.Within horizon scope) (hs : s.Means p horizon W x)
    (hitems : ∀ e ∈ items, p.arena.ComparesWithin (scope.valuation p W) D e)
    (hfree : s.Spares label 0 items.length) :
    ∃ s', (disjunction p scope label items).run s = .ok ((), s') := by
  obtain ⟨zs, s₁, hzs, hcount⟩ := disjuncts_succeed hp hfeastol hscope hs hitems
    (by rwa [Nat.zero_add])
  obtain ⟨s', hs', -⟩ := row_succeeds hcount
    (-Scalar.infinity, Scalar.nat zs.length - Scalar.one) (Terms.sum zs)
  exact ⟨s', run_bind_eq_ok.2 ⟨zs, s₁, hzs, hs'⟩⟩

/-! ## Switches -/

theorem TermFor.vars_eq {e : ExprId} {t : TermId} (h : TermFor p scope e s t s') :
    s'.program.vars = s.program.vars := by
  induction h with
  | known | constant | var => rfl
  | neg _ _ ih | call _ _ ih => exact ih
  | arith _ _ _ ihx ihy => exact ihy.trans ihx

theorem State.vars_makesRow (s : State Exact) (name : String) (bounds : Exact × Exact)
    (m : Terms.Make Exact TermId) : (s.makesRow name bounds m).program.vars = s.program.vars := rfl

/-- A disjunct adds its switch, and the term of the switch is this variable. -/
theorem DisjunctFor.switch_eq (h : DisjunctFor p scope label i item s z s') (hs : s.WellFormed) :
    s'.program.vars = s.program.vars.push (switch label i) ∧
      ∀ x, s'.program.terms.eval x z = x s.program.vars.size := by
  have hs' := (h.grows hs).1.wellFormed
  obtain @⟨op, a, b, k, s₀, s₁, s₂, _, z, t, u, he, hk, hname, rfl, rfl, ht, hu, rfl⟩ := h
  have hvars : s₂.program.vars = s.program.vars.push (switch label i) := hu.vars_eq.trans ht.vars_eq
  refine ⟨(State.vars_makesRow _ _ _ _).trans hvars, fun x => ?_⟩
  obtain ⟨hvar, hmakes, hz⟩ := State.grows_switch (M := Set.univ) hs hname (Set.mem_univ _)
  -- all terms that come later leave that of the switch as it is
  obtain ⟨hgrows, ht⟩ := ht.grows (N := ∅) (M := ∅) hmakes.wellFormed
  obtain ⟨hgrows', hu⟩ := hu.grows (N := ∅) (M := ∅) hgrows.wellFormed
  have hsides := hgrows.trans hgrows'
  have hrow := State.grows_makesRow (N := ∅) (M := Set.univ) (C := {t, u, _}) hgrows'.wellFormed
    (Set.mem_univ s!"{label}_or_{i}") (switchBounds p.bigM p.feastol k.strict)
    (yields_lifted p.bigM (.inl rfl) (.inr (.inl rfl)) (.inr (.inr rfl)))
    (by rintro _ (rfl | rfl | rfl)
        exacts [Nat.lt_of_lt_of_le ht hgrows'.terms_size, hu, Nat.lt_of_lt_of_le hz hsides.terms_size])
  have hlater := (hsides.mono (Set.empty_subset _) (Set.empty_subset _)).trans hrow
  have heval := hlater.adds.eval hmakes.wellFormed.program hlater.wellFormed.program (fun v _ => rfl) hz
    (x := x)
  exact heval.trans (Terms.value_var hvar.wellFormed.program.terms (size_withSwitch s label i))

/-- The disjuncts add their switches, whose values the terms have. -/
theorem DisjunctsFor.switches_eq (h : DisjunctsFor p scope label i items s zs s') (hs : s.WellFormed) :
    s'.program.vars.toList =
        s.program.vars.toList ++ (List.range' i items.length).map (switch label) ∧
      ∀ x, zs.map (s'.program.terms.eval x) = (List.range' s.program.vars.size items.length).map x := by
  induction h with
  | nil => exact ⟨(List.append_nil _).symm, fun x => rfl⟩
  | @cons i item items z zs s s₁ s' h hrest ih =>
    obtain ⟨hvars, heval⟩ := h.switch_eq hs
    obtain ⟨hgrows, hz⟩ := h.grows hs
    obtain ⟨hvars', hevals⟩ := ih hgrows.wellFormed
    have hgrows' := (hrest.grows hgrows.wellFormed).1
    constructor
    · rw [hvars', hvars, Array.toList_push, List.append_assoc, List.length_cons, List.range'_succ]
      rfl
    · intro x
      have hkept := hgrows'.adds.eval hgrows.wellFormed.program hgrows'.wellFormed.program
        (fun v _ => rfl) hz (x := x)
      rw [List.map_cons, hkept, heval, hevals, hvars, Array.size_push, List.length_cons,
        List.range'_succ, List.map_cons]

/-! ## Satisfaction -/

/-- The value that the rows of a disjunction leave to the switch of a disjunct: zero if it holds, one if it
does not. -/
def Indicates (p : Problem Exact) (v : Valuation Exact) (δ : ℝ) (item : ExprId) (w : Exact) : Prop :=
  p.arena.Respects δ v item ∧ w = real 0 ∨ ¬p.arena.Respects δ v item ∧ w = real 1

/-- A switch shows whether its disjunct holds, and says that it is not in its gap. -/
theorem Switched.indicates {v : Valuation Exact} {ts : Terms Exact} (hδ : 0 < δ) {D : ℝ}
    (hitem : p.arena.ComparesWithin v D item) (h : Switched p δ v ts x item z) :
    Indicates p v δ item (ts.eval x z) ∧ ¬p.arena.InGap v δ item := by
  obtain ⟨op, q, r, hcompares, hvalue⟩ := h
  obtain ⟨op', q', r', hop, hcompares', -⟩ := hitem
  obtain ⟨rfl, rfl, rfl⟩ := hcompares.unique hcompares'
  rw [hcompares.inGap_iff, Comparison.not_inGap_iff hop, Indicates, hcompares.respects_iff]
  rcases hvalue with ⟨hzero, hholds⟩ | ⟨hone, hfails⟩
  · exact ⟨.inl ⟨hholds, hzero⟩, .inl hholds⟩
  · exact ⟨.inr ⟨fun hholds => hholds.not_failsBy hδ hfails, hone⟩, .inr hfails⟩

/-- An assignment that satisfies the rows sets the switches as the disjuncts hold. -/
theorem exact_of_satisfies (hp : p.arena.WellFormed) (hfeastol : p.feastol = real δ) (hδ : 0 < δ)
    (hscope : Scope.Within horizon scope) (hs : s.Means p horizon W x)
    (hitems : ∀ e ∈ items, p.arena.ComparesWithin (scope.valuation p W) D e)
    (h : (disjunction p scope label items).run s = .ok ((), s'))
    (hx : s.program.SatisfiesBeyond s'.program x) :
    (∃ e ∈ items, p.arena.Respects δ (scope.valuation p W) e) ∧
      (∀ e ∈ items, ¬p.arena.InGap (scope.valuation p W) δ e) ∧
      ∀ (k : Nat) (hk : k < items.length),
        Indicates p (scope.valuation p W) δ items[k] (x (s.program.vars.size + k)) := by
  obtain ⟨zs, s₁, hzs, rfl⟩ := disjunction_eq_ok hp h
  obtain ⟨hswitched, hholds⟩ := (ensures_switches hfeastol hs hscope hzs).holds hx
  have hindicates (k : Nat) (hk : k < items.length) :=
    (hswitched.get hk (hswitched.length_eq ▸ hk)).indicates hδ (hitems _ (List.getElem_mem hk))
  refine ⟨hholds, fun e he => ?_, fun k hk => ?_⟩
  · obtain ⟨k, hk, rfl⟩ := List.getElem_of_mem he
    exact (hindicates k hk).2
  · have hvalues := (hzs.switches_eq hs.wellFormed).2 x
    have hvalue := List.getElem_of_eq hvalues (i := k) (by simpa using hswitched.length_eq ▸ hk)
    rw [List.getElem_map, List.getElem_map, List.getElem_range', Nat.one_mul] at hvalue
    rw [← hvalue]
    exact (hindicates k hk).1

/-- An assignment for the program before a disjunction gives the compared sides their values. If these are
not too far apart, the rows of the disjunction can be satisfied over it if and only if one of the disjuncts
holds, by the tolerance if it is strict, and none is in its gap. The only new variables are the switches, and
the rows leave each of them one value: zero if its disjunct holds, one if it does not. -/
theorem disjunction_exact (hp : p.arena.WellFormed) (hfeastol : p.feastol = real δ)
    (hbigM : p.bigM = real M) (hδ : 0 < δ) (hscope : Scope.Within horizon scope)
    (hs : s.Means p horizon W x)
    (hitems : ∀ e ∈ items, p.arena.ComparesWithin (scope.valuation p W) (M - δ) e)
    (hfree : s.Spares label 0 items.length) :
    ∃ s', (disjunction p scope label items).run s = .ok ((), s') ∧
      s'.program.vars.toList =
        s.program.vars.toList ++ (List.range items.length).map (switch label) ∧
      ((∃ x', (∀ v < s.program.vars.size, x' v = x v) ∧ s.program.SatisfiesBeyond s'.program x') ↔
        (∃ e ∈ items, p.arena.Respects δ (scope.valuation p W) e) ∧
          ∀ e ∈ items, ¬p.arena.InGap (scope.valuation p W) δ e) ∧
      ∀ x', (∀ v < s.program.vars.size, x' v = x v) → s.program.SatisfiesBeyond s'.program x' →
        ∀ (k : Nat) (hk : k < items.length),
          Indicates p (scope.valuation p W) δ items[k] (x' (s.program.vars.size + k)) := by
  obtain ⟨s', h⟩ := disjunction_succeeds hp hfeastol hscope hs hitems hfree
  have hmeans {x' : VarId → Exact} (hagrees : ∀ v < s.program.vars.size, x' v = x v) :
      s.Means p horizon W x' := hs.of_grows (.refl (N := ∅) (M := ∅) hs.wellFormed) rfl hagrees
  have hexact {x' : VarId → Exact} (hagrees : ∀ v < s.program.vars.size, x' v = x v) :=
    exact_of_satisfies hp hfeastol hδ hscope (hmeans hagrees) hitems h
  refine ⟨s', h, ?_, ⟨?_, ?_⟩, fun x' hagrees hx' => (hexact hagrees hx').2.2⟩
  · obtain ⟨zs, s₁, hzs, rfl⟩ := disjunction_eq_ok hp h
    rw [List.range_eq_range']
    exact (hzs.switches_eq hs.wellFormed).1
  · rintro ⟨x', hagrees, hx'⟩
    obtain ⟨hholds, hgaps, -⟩ := hexact hagrees hx'
    exact ⟨hholds, hgaps⟩
  · rintro ⟨⟨e, he, hholds⟩, hgaps⟩
    obtain ⟨op, q, r, -, hcompares, -⟩ := hitems e he
    obtain ⟨zs, s₁, hzs, rfl⟩ := disjunction_eq_ok hp h
    obtain ⟨x', hextends⟩ := completes_switches hfeastol hbigM hδ.le hscope hzs
      (fun e he => (hitems e he).decides (hgaps e he)) he hcompares (hcompares.respects_iff.1 hholds) x hs
    exact ⟨x', hextends.agrees, hextends.beyond⟩

end Encoding

/-! ### Waiting not longer or longer than three units of time -/

namespace Problem.Waits

open Encoding

variable {op : Comparison} {p : Problem Exact} (h : p.Waits op)
include h

/-- The names of switches and rows are free when the variables have been declared. -/
theorem spares {s : State Exact} (hs : (State.begin Exact 1).Declares (planVars p 1) s)
    (hrows : s.program.rowNames = ∅) (objective : List (VarId × Exact)) (label : String) (n : Nat) :
    (s.withObjective objective).Spares label 0 n := by
  obtain ⟨v, hvars, -, hname, -, hrole, hglobal⟩ := h.exists_duration
  have hplan : planVars p 1 = [declared p v (stageVar "Dt" 0), earned 0] := by
    simp [planVars, globalVars, boundaryVars, Encoding.stageVars, Domain.states, Domain.decisions, hvars,
      hname, hrole, hglobal]
  have hswitch (j : Nat) : (switchName label j).toList.head? = some 'A' := by
    change ("Aux_" ++ label ++ "_" ++ toString j).toList.head? = some 'A'
    simp only [String.toList_append, List.append_assoc]
    rfl
  have hrows : (s.withObjective objective).program.rowNames = ∅ := hrows
  refine ⟨fun j _ _ => ?_, by simp [hrows], by simp [hrows]⟩
  refine Option.eq_none_iff_forall_ne_some.2 fun k hk => ?_
  obtain ⟨w, hw, hwname⟩ := (hs.wellFormed.program.index _ _).1 hk
  have hmem : w ∈ planVars p 1 := by
    rw [← hs.vars_eq]
    exact List.mem_of_getElem? (Array.getElem?_toList.trans hw)
  have hhead := hswitch j
  rw [← hwname] at hhead
  rw [hplan] at hmem
  rcases List.mem_cons.1 hmem with rfl | hmem
  · exact absurd hhead (show (stageVar "Dt" 0).toList.head? ≠ some 'A' by decide)
  · obtain rfl := List.mem_singleton.1 hmem
    exact absurd hhead (show (rewardVar 0).toList.head? ≠ some 'A' by decide)

/-- The value of the duration, over an assignment for the variables. -/
theorem valuation_eq {s : State Exact} (hs : (s.program.varOf? (stageVar "Dt" 0)).isSome) (d : Exact) :
    (Scope.stage 0).valuation p (s.valuation fun _ => d) "Dt" = some d := by
  obtain ⟨v, -, hdeclared, hname, -, -, hglobal⟩ := h.exists_duration
  obtain ⟨i, hi⟩ := Option.isSome_iff_exists.1 hs
  have hreading : reading? p (.stage 0) "Dt" = some (.inr (stageVar "Dt" 0)) := by
    rw [reading?, Domain.resolve?_eq_var.2 hdeclared]
    simp [varName, hglobal, hname, Scope.time]
  rw [Scope.valuation_of_name hreading, State.valuation, hi]
  rfl

omit h in
/-- The duration can be compared in the opposite way, too. -/
theorem exists_opposite (h : p.Waits .le) (hp : p.arena.WellFormed) :
    ∃ (q : Problem Exact) (e e' : ExprId), q.Waits .le ∧ q.arena.WellFormed ∧ q.feastol = p.feastol ∧
      q.bigM = p.bigM ∧ ∀ (v : Valuation Exact) (d : ℝ), v "Dt" = some (real d) →
        q.arena.Compares v e .le d 3 ∧ q.arena.Compares v e' .gt d 3 := by
  obtain ⟨c, -, y, z, he, hy, hz⟩ := h.temporal
  obtain ⟨a, e', hle, ha, he'⟩ := hp.exists_interned (.compare .gt y z) fun i hi => by
    rcases List.mem_cons.1 hi with rfl | hi
    · exact Arena.lt_size_of_getElem? hy
    · exact List.mem_singleton.1 hi ▸ Arena.lt_size_of_getElem? hz
  refine ⟨p.withArena a, c.expr, e', h.grows ⟨a, rfl, hle, fun _ => ha⟩, ha, rfl, rfl, fun v d hv => ?_⟩
  have hy' : a.Denotes v y d := .sym (Arena.node_eq_of_getElem? (hle hy)) hv
  have hz' : a.Denotes v z 3 := .num (Arena.node_eq_of_getElem? (hle hz))
  exact ⟨⟨y, z, Arena.node_eq_of_getElem? (hle he), hy', hz'⟩,
    ⟨y, z, Arena.node_eq_of_getElem? he', hy', hz'⟩⟩

end Problem.Waits

/-- A duration of one is not longer than three. -/
theorem Encoding.disjunction_exact_waiting : ∃ (p : Problem Exact) (s s' : State Exact)
    (W : Valuation Exact) (e e' : ExprId), p.Waits .le ∧
      p.arena.Compares ((Scope.stage 0).valuation p W) e .le 1 3 ∧
      p.arena.Compares ((Scope.stage 0).valuation p W) e' .gt 1 3 ∧
      (disjunction p (.stage 0) "temporal_0_0" [e, e']).run s = .ok ((), s') ∧
      (∃ x', (∀ v < s.program.vars.size, x' v = real 1) ∧ s.program.SatisfiesBeyond s'.program x') ∧
      ∀ x', (∀ v < s.program.vars.size, x' v = real 1) → s.program.SatisfiesBeyond s'.program x' →
        x' s.program.vars.size = real 0 ∧ x' (s.program.vars.size + 1) = real 1 := by
  obtain ⟨P, -, -, hP, hfeastol, hbigM⟩ := Waiting.exists_default .le
  obtain ⟨p, e, e', hp, harena, hfeastol', hbigM', hcompares⟩ :=
    hP.exists_opposite P.resolved.made.domain.arena
  have hpositive : Scalar.lt p.bigM Scalar.zero = false := by
    rw [hbigM', hbigM, Exact.zero_eq, ← Bool.not_eq_true, Exact.lt_real]
    norm_num
  obtain ⟨s, hdeclare, hdt, -, hrows⟩ := hp.declareAll_succeeds hpositive
  obtain ⟨hdeclares, -⟩ := declareAll_eq_ok hdeclare (State.wellFormed_begin 1)
  have hs := hdeclares.means Nat.one_pos [(1, Scalar.one)] fun _ => real 1
  obtain ⟨hc, hc'⟩ := hcompares _ 1 (hp.valuation_eq hdt (real 1))
  have hscope : Scope.Within 1 (.stage 0) := Nat.one_pos
  have hbound : |(1 : ℝ) - 3| ≤ 1000 - 1 * 10 ^ (-6 : ℤ) := by norm_num
  have hitems : ∀ i ∈ [e, e'], p.arena.ComparesWithin _ (1000 - 1 * 10 ^ (-6 : ℤ)) i :=
    List.forall_mem_cons.2 ⟨⟨.le, 1, 3, by decide, hc, hbound⟩,
      List.forall_mem_singleton.2 ⟨.gt, 1, 3, by decide, hc', hbound⟩⟩
  obtain ⟨s', hrun, -, hiff, hswitches⟩ := disjunction_exact harena (hfeastol'.trans hfeastol)
    (hbigM'.trans hbigM) (by positivity) hscope hs hitems (hp.spares hdeclares hrows _ "temporal_0_0" 2)
  have hholds : (1 : ℝ) ≤ 3 := by norm_num
  have hfails : ¬(3 : ℝ) + 1 * 10 ^ (-6 : ℤ) ≤ 1 := by norm_num
  have hgap : ¬((0 : ℝ) < 1 - 3 ∧ (1 : ℝ) - 3 < 1 * 10 ^ (-6 : ℤ)) := by norm_num
  have hgap' : ¬(-(1 * 10 ^ (-6 : ℤ)) < (3 : ℝ) - 1 ∧ (3 : ℝ) - 1 < 0) := by norm_num
  refine ⟨p, _, s', _, e, e', hp, hc, hc', hrun, hiff.2 ⟨?_, ?_⟩, fun x' hx' hbeyond => ⟨?_, ?_⟩⟩
  · exact ⟨e, List.mem_cons_self, hc.respects_iff.2 hholds⟩
  · exact List.forall_mem_cons.2 ⟨hc.inGap_iff.not.2 hgap,
      List.forall_mem_singleton.2 (hc'.inGap_iff.not.2 hgap')⟩
  · rcases hswitches x' hx' hbeyond 0 (Nat.succ_pos 1) with ⟨-, hzero⟩ | ⟨hnot, -⟩
    · exact hzero
    · exact absurd (hc.respects_iff.2 hholds) hnot
  · rcases hswitches x' hx' hbeyond 1 (Nat.lt_succ_self 1) with ⟨hdoes, -⟩ | ⟨-, hone⟩
    · exact absurd (hc'.respects_iff.1 hdoes) hfails
    · exact hone

end HybridPlan
