import HybridPlan.Proofs.Encoding.Soundness

set_option autoImplicit false

/-! # What the rows of an encoding allow

The rows of a constraint rule nothing out that satisfies the constraint with the room that they ask
for: strict comparisons leave the tolerance between their sides, and so do the failing inequalities
of a disjunction, whose sides are no further apart than the large constant spans. Whatever has this
room can be completed by values for the switches. -/

namespace HybridPlan

open Exact (real part)

/-! ## Constraints with room -/

namespace Arena

/-- The inequality compares numbers that are not too far apart, and holds or fails clearly. -/
def Decides (a : Arena Exact) (v : Valuation Exact) (δ M : ℝ) (e : ExprId) : Prop :=
  ∃ op q r, a.Compares v e op q r ∧ |q - r| ≤ M - δ ∧ (op.HoldsBy δ q r ∨ op.FailsBy δ q r)

/-- A constraint holds with room: all comparisons outside disjunctions do, and of the inequalities of
a disjunction, all of which are decided clearly, there is one that does. -/
inductive HoldsBy (a : Arena Exact) (v : Valuation Exact) (δ M : ℝ) : ExprId → Prop
  | compare {e : ExprId} {op : Comparison} {q r : ℝ} (he : a.Compares v e op q r)
      (h : op.HoldsBy δ q r) : HoldsBy a v δ M e
  | and {e : ExprId} {items : List ExprId} (he : a.node e = .join .and items)
      (h : ∀ i ∈ items, HoldsBy a v δ M i) : HoldsBy a v δ M e
  | or {e : ExprId} {items : List ExprId} (he : a.node e = .join .or items)
      (hitems : ∀ i ∈ items, a.Decides v δ M i) {i : ExprId} {op : Comparison} {q r : ℝ}
      (hi : i ∈ items) (hc : a.Compares v i op q r) (h : op.HoldsBy δ q r) : HoldsBy a v δ M e

/-- What an expression compares is unique. -/
theorem Compares.unique {a : Arena Exact} {v : Valuation Exact} {e : ExprId}
    {op op' : Comparison} {q q' r r' : ℝ} (h : a.Compares v e op q r)
    (h' : a.Compares v e op' q' r') : op' = op ∧ q' = q ∧ r' = r := by
  obtain ⟨x, y, hnode, hx, hy⟩ := h
  obtain ⟨x', y', hnode', hx', hy'⟩ := h'
  rw [hnode] at hnode'
  cases hnode'
  exact ⟨rfl, hx'.unique hx, hy'.unique hy⟩

/-- Whether a constraint holds with room depends on the values of the symbols that it uses. -/
theorem HoldsBy.congr {a : Arena Exact} {v v' : Valuation Exact} {V : Vocabulary Exact} {δ M : ℝ}
    {e : ExprId} (h : a.HoldsBy v δ M e) (he : a.Uses V e)
    (hv : ∀ s u, V.symbol s → v s = some u → v' s = some u) :
    a.HoldsBy v' δ M e := by
  induction h with
  | compare hc hop => exact .compare (hc.congr he hv) hop
  | and hnode _ ih => exact .and hnode fun i hi => ih i hi (he.operand (by rw [hnode]; exact hi))
  | or hnode hitems hi hc hop =>
    refine .or hnode (fun j hj => ?_) hi (hc.congr (he.operand (by rw [hnode]; exact hi)) hv) hop
    obtain ⟨op, q, r, hcompares, hdecided⟩ := hitems j hj
    exact ⟨op, q, r, hcompares.congr (he.operand (by rw [hnode]; exact hj)) hv, hdecided⟩

end Arena

namespace Encoding

variable {p : Problem Exact} {horizon : Nat} {W : Valuation Exact} {x x₁ x' : VarId → Exact}
  {s s₁ s₂ s' : State Exact} {scope : Scope} {label : String} {t u z : TermId} {δ M : ℝ}

/-! ## Completed assignments -/

/-- From an assignment for the program of `s` to one for the larger program of `s'`: the variables
keep their values, and what is added is respected. -/
structure Extends (p : Problem Exact) (horizon : Nat) (W : Valuation Exact) (s : State Exact)
    (x : VarId → Exact) (s' : State Exact) (x' : VarId → Exact) : Prop where
  grows : s.Grows Set.univ Set.univ s'
  agrees : ∀ v < s.program.vars.size, x' v = x v
  means : s'.Means p horizon W x'
  beyond : s.program.SatisfiesBeyond s'.program x'

namespace Extends

/-- Additions of terms alone ask for nothing. -/
theorem of_terms (h : s.Grows ∅ ∅ s') (hs : s'.Means p horizon W x) :
    Extends p horizon W s x s' x where
  grows := h.mono (Set.empty_subset _) (Set.empty_subset _)
  agrees _ _ := rfl
  means := hs
  beyond := h.adds.satisfiesBeyond x

theorem refl (hs : s.Means p horizon W x) : Extends p horizon W s x s x :=
  .of_terms (.refl hs.wellFormed) hs

theorem trans (h : Extends p horizon W s x s₁ x₁) (h' : Extends p horizon W s₁ x₁ s' x') :
    Extends p horizon W s x s' x' where
  grows := h.grows.trans h'.grows
  agrees v hv := (h'.agrees v (Nat.lt_of_lt_of_le hv h.grows.adds.size_le)).trans (h.agrees v hv)
  means := h'.means
  beyond := h.beyond.trans h'.beyond h.grows.adds h'.grows.adds h.means.wellFormed.program
    h'.means.wellFormed.program h'.agrees

/-- A term keeps its value. -/
theorem eval (h : Extends p horizon W s x s' x') (hs : s.Means p horizon W x)
    (ht : t < s.program.terms.size) : s'.program.terms.eval x' t = s.program.terms.eval x t :=
  h.grows.adds.eval hs.wellFormed.program h.means.wellFormed.program h.agrees ht

/-- An assignment that respects the first program goes on to respect the second one. -/
theorem satisfies (h : Extends p horizon W s x s' x') (hs : s.Means p horizon W x)
    (hx : s.program.Satisfies x) : s'.program.Satisfies x' :=
  h.beyond.satisfies h.grows.adds hs.wellFormed.program h.means.wellFormed.program h.agrees hx

end Extends

/-- Every assignment for the program before a part can be completed to one for the program behind
it. -/
def Completes (p : Problem Exact) (horizon : Nat) (W : Valuation Exact) (s s' : State Exact) : Prop :=
  ∀ x, s.Means p horizon W x → ∃ x', Extends p horizon W s x s' x'

namespace Completes

theorem trans (h : Completes p horizon W s s₁) (h' : Completes p horizon W s₁ s') :
    Completes p horizon W s s' := by
  intro x hs
  obtain ⟨x₁, hx₁⟩ := h x hs
  obtain ⟨x', hx'⟩ := h' x₁ hx₁.means
  exact ⟨x', hx₁.trans hx'⟩

theorem steps {ι : Type} {Q : ι → State Exact → State Exact → Prop} {l : List ι}
    (h : Steps Q l s s') (hQ : ∀ i ∈ l, ∀ s s', Q i s s' → Completes p horizon W s s') :
    Completes p horizon W s s' := by
  induction h with
  | nil => exact fun x hs => ⟨x, .refl hs⟩
  | cons h _ ih =>
    exact (hQ _ List.mem_cons_self _ _ h).trans (ih fun i hi => hQ i (List.mem_cons_of_mem _ hi))

end Completes

theorem TermFor.extends {e : ExprId} (h : TermFor p scope e s t s') (hs : s.Means p horizon W x)
    (hscope : Scope.Within horizon scope) : Extends p horizon W s x s' x :=
  .of_terms (h.grows hs.wellFormed).1 (h.means hs hscope).1

/-! ## Rows -/

/-- A row whose body has a value between the bounds. -/
theorem extends_makesRow (name : String) (hs : s.Means p horizon W x) {C : Set TermId}
    {m : Terms.Make Exact TermId} (hm : Terms.Make.Yields s.program.vars.size C m ({·}))
    (hC : ∀ t ∈ C, t < s.program.terms.size) {bounds : Exact × Exact} {d : ℝ}
    (hd : m.value s.program.terms x = real d) (hlower : Scalar.le bounds.1 (real d))
    (hupper : Scalar.le (real d) bounds.2) :
    Extends p horizon W s x (s.makesRow name bounds m) x := by
  have hgrows := State.grows_makesRow (N := Set.univ) (M := Set.univ) hs.wellFormed
    (Set.mem_univ name) bounds hm hC
  refine ⟨hgrows, fun _ _ => rfl, hs.of_grows hgrows rfl fun _ _ => rfl, ?_, fun r hr => ?_⟩
  · intro i v hi hv
    exact absurd (Array.getElem?_eq_some_iff.1 hv).1 (Nat.not_lt.2 hi)
  · have hrows : (s.makesRow name bounds m).program.rows.toList =
        s.program.rows.toList ++ [⟨name, bounds.1, s.made m, bounds.2⟩] := Array.toList_push
    rw [hrows, List.drop_append, Array.length_toList, Nat.sub_self,
      List.drop_eq_nil_of_le (Nat.le_of_eq Array.length_toList), List.nil_append,
      List.drop_zero] at hr
    obtain rfl := List.mem_singleton.1 hr
    have hvalue : (s.makesRow name bounds m).program.terms.eval x (s.made m) = real d := hd
    unfold Row.Holds
    rw [hvalue]
    exact ⟨Exact.isFinite_real, hlower, hupper⟩

/-- A row over the difference of two terms. -/
theorem extends_differenceRow (name : String) (hs : s.Means p horizon W x)
    (ht : t < s.program.terms.size) (hu : u < s.program.terms.size) {bounds : Exact × Exact}
    {q r : ℝ} (hq : s.program.terms.eval x t = real q) (hr : s.program.terms.eval x u = real r)
    (hlower : Scalar.le bounds.1 (real (q - r))) (hupper : Scalar.le (real (q - r)) bounds.2) :
    Extends p horizon W s x (s.makesRow name bounds (Terms.sub t u)) x := by
  refine extends_makesRow name hs (C := {t, u}) (Terms.yields_sub (.inl rfl) (.inr rfl))
    (by rintro _ (rfl | rfl); exacts [ht, hu]) ?_ hlower hupper
  rw [← Exact.part_eq, Terms.part_value_sub hs.wellFormed.program.terms ht hu, hq, hr,
    Exact.real_sub_real]
  exact Exact.part_eq.2 rfl

theorem completes_comparison (hfeastol : p.feastol = real δ) (hscope : Scope.Within horizon scope)
    {op : Comparison} {e a b : ExprId} (he : p.arena.node e = .compare op a b)
    (ht : TermFor p scope a s t s₁) (hu : TermFor p scope b s₁ u s₂)
    (h : p.arena.HoldsBy (scope.valuation p W) δ M e) : Completes p horizon W s
      (s₂.makesRow label (comparisonBounds p.feastol op) (Terms.sub t u)) := by
  intro x hs
  cases h with
  | @compare _ op' q r hc hop =>
    obtain ⟨a', b', hnode, hq, hr⟩ := hc
    rw [he] at hnode
    cases hnode
    have hfirst := ht.extends hs hscope
    have hsecond := hu.extends hfirst.means hscope
    have htlt := (ht.grows (N := ∅) (M := ∅) hs.wellFormed).2
    have hult := (hu.grows (N := ∅) (M := ∅) hfirst.means.wellFormed).2
    obtain ⟨hlower, hupper⟩ := comparisonBounds_iff.2 hop
    refine ⟨x, (hfirst.trans hsecond).trans (extends_differenceRow label hsecond.means
      (Nat.lt_of_lt_of_le htlt hsecond.grows.terms_size) hult (q := q) (r := r) ?_ ?_ ?_ ?_)⟩
    · rw [hsecond.eval hfirst.means htlt]
      exact ((ht.means hs hscope).2 q).2 hq
    · exact ((hu.means hfirst.means hscope).2 r).2 hr
    · rwa [hfeastol]
    · rwa [hfeastol]
  | and hnode | or hnode => exact absurd (he.symm.trans hnode) (by rintro ⟨⟩)

/-! ## Disjunctions -/

/-- A value for the switch of an inequality: not set if the inequality holds, set if it fails. -/
def Allows (p : Problem Exact) (v : Valuation Exact) (δ M : ℝ) (item : ExprId) (ζ : ℝ) : Prop :=
  ∃ op q r, p.arena.Compares v item op q r ∧ |q - r| ≤ M - δ ∧
    (ζ = 0 ∧ op.HoldsBy δ q r ∨ ζ = 1 ∧ op.FailsBy δ q r)

/-- Not all switches have to be set if one of the inequalities holds. -/
theorem exists_allows {v : Valuation Exact} {items : List ExprId}
    (hitems : ∀ i ∈ items, p.arena.Decides v δ M i) {j : ExprId} (hj : j ∈ items)
    {op : Comparison} {q r : ℝ} (hc : p.arena.Compares v j op q r) (h : op.HoldsBy δ q r) :
    ∃ ζs : List ℝ, List.Forall₂ (Allows p v δ M) items ζs ∧ ζs.sum ≤ ζs.length - 1 := by
  classical
  let holds (i : ExprId) : Prop := ∃ op q r, p.arena.Compares v i op q r ∧ op.HoldsBy δ q r
  let ζ (i : ExprId) : ℝ := if holds i then 0 else 1
  have hle (i : ExprId) : ζ i ≤ 1 := by
    by_cases hi : holds i
    · simp [ζ, hi]
    · simp [ζ, hi]
  have hsum (l : List ExprId) : (l.map ζ).sum ≤ l.length := by
    induction l with
    | nil => simp
    | cons i l ih =>
      rw [List.map_cons, List.sum_cons, List.length_cons, Nat.cast_succ]
      linarith [hle i]
  refine ⟨items.map ζ, ?_, ?_⟩
  · rw [List.forall₂_map_right_iff, List.forall₂_same]
    intro i hi
    obtain ⟨op, q, r, hcompares, hbound, hdecided⟩ := hitems i hi
    refine ⟨op, q, r, hcompares, hbound, ?_⟩
    by_cases hholds : holds i
    · obtain ⟨op', q', r', hcompares', hop⟩ := hholds
      obtain ⟨rfl, rfl, rfl⟩ := hcompares.unique hcompares'
      exact .inl ⟨if_pos ⟨_, _, _, hcompares', hop⟩, hop⟩
    · refine .inr ⟨if_neg hholds, hdecided.resolve_left fun hop => hholds ⟨op, q, r, hcompares, hop⟩⟩
  · obtain ⟨l₁, l₂, rfl⟩ := List.append_of_mem hj
    have hzero : ζ j = 0 := if_pos ⟨op, q, r, hc, h⟩
    simp only [List.map_append, List.map_cons, List.sum_append, List.sum_cons, hzero,
      List.length_append, List.length_map, List.length_cons]
    push_cast
    linarith [hsum l₁, hsum l₂]

theorem sides_of_compares {v : Valuation Exact} {item a b : ExprId} {op : Comparison}
    {k : Inequality} (he : p.arena.node item = .compare op a b)
    (hk : Inequality.of? op a b = some k) {op' : Comparison} {q r : ℝ}
    (h : p.arena.Compares v item op' q r) :
    ∃ q' r', p.arena.Denotes v k.lhs q' ∧ p.arena.Denotes v k.rhs r' ∧ |q' - r'| = |q - r| ∧
      (op'.HoldsBy δ q r → k.op.HoldsBy δ q' r') ∧ (op'.FailsBy δ q r → k.op.FailsBy δ q' r') := by
  obtain ⟨a', b', hnode, hq, hr⟩ := h
  rw [he] at hnode
  cases hnode
  cases op with
  | lt | le =>
    cases hk
    exact ⟨q, r, hq, hr, rfl, id, id⟩
  | gt | ge =>
    cases hk
    exact ⟨r, q, hr, hq, abs_sub_comm r q, id, id⟩
  | eq => cases hk

theorem switchBounds_of_holdsBy {k : Inequality} {q r : ℝ} (hδ : 0 ≤ δ)
    (hbound : |q - r| ≤ M - δ) (h : k.op.HoldsBy δ q r) :
    Scalar.le (switchBounds (real M) (real δ) k.strict).1 (real (q - r)) ∧
      Scalar.le (real (q - r)) (switchBounds (real M) (real δ) k.strict).2 := by
  have hlower := (abs_le.1 hbound).1
  unfold Inequality.op at h
  cases hstrict : k.strict with
  | true =>
    rw [hstrict] at h
    have h : q + δ ≤ r := h
    simp [switchBounds]
    constructor <;> linarith
  | false =>
    rw [hstrict] at h
    have h : q ≤ r := h
    simp [switchBounds]
    constructor <;> linarith

theorem switchBounds_of_failsBy {k : Inequality} {q r : ℝ} (hδ : 0 ≤ δ)
    (hbound : |q - r| ≤ M - δ) (h : k.op.FailsBy δ q r) :
    Scalar.le (switchBounds (real M) (real δ) k.strict).1 (real (q - r - M)) ∧
      Scalar.le (real (q - r - M)) (switchBounds (real M) (real δ) k.strict).2 := by
  have hupper := (abs_le.1 hbound).2
  unfold Inequality.op at h
  cases hstrict : k.strict with
  | true =>
    rw [hstrict] at h
    have h : r ≤ q := h
    simp [switchBounds]
    constructor <;> linarith
  | false =>
    rw [hstrict] at h
    have h : r + δ ≤ q := h
    simp [switchBounds]
    constructor <;> linarith

/-- A new switch takes either value. -/
theorem extends_switch (hs : s.Means p horizon W x) {i : Nat}
    (hname : s.program.varOf? (switchName label i) = none) {ζ : ℝ} (hζ : ζ = 0 ∨ ζ = 1) :
    Extends p horizon W s x (s.withVar (switch label i))
      (Function.update x s.program.vars.size (real ζ)) := by
  have hgrows := State.grows_withVar (N := Set.univ) (M := Set.univ) hs.wellFormed
    (v := switch label i) hname (Set.mem_univ _)
  have hagrees : ∀ v < s.program.vars.size,
      Function.update x s.program.vars.size (real ζ) v = x v :=
    fun v hv => Function.update_of_ne (Nat.ne_of_lt hv) _ _
  refine ⟨hgrows, hagrees, hs.of_grows hgrows rfl hagrees, fun j v hj hv => ?_, fun r hr => ?_⟩
  · have hlt : j < (s.program.vars.push (switch label i)).size :=
      (Array.getElem?_eq_some_iff.1 hv).1
    rw [Array.size_push] at hlt
    obtain rfl : j = s.program.vars.size := Nat.le_antisymm (Nat.le_of_lt_succ hlt) hj
    obtain rfl : switch label i = v :=
      Option.some.inj (Array.getElem?_push_size.symm.trans hv)
    rw [Function.update_self]
    refine ⟨?_, ?_, fun _ => ?_⟩
    · rcases hζ with rfl | rfl <;> simp [switch, Program.newVar, Program.bounds]
    · rcases hζ with rfl | rfl <;> simp [switch, Program.newVar, Program.bounds]
    · simpa using hζ
  · have hr : r ∈ s.program.rows.toList.drop s.program.rows.size := hr
    rw [List.drop_eq_nil_of_le (Nat.le_of_eq Array.length_toList)] at hr
    exact absurd hr List.not_mem_nil

/-- The row over the sides of an inequality and its switch. -/
theorem extends_liftedRow (name : String) (hs : s.Means p horizon W x) (hbigM : p.bigM = real M)
    (ht : t < s.program.terms.size) (hu : u < s.program.terms.size)
    (hz : z < s.program.terms.size) {bounds : Exact × Exact} {q r ζ : ℝ}
    (hq : s.program.terms.eval x t = real q) (hr : s.program.terms.eval x u = real r)
    (hζ : s.program.terms.eval x z = real ζ)
    (hlower : Scalar.le bounds.1 (real (q - r - ζ * M)))
    (hupper : Scalar.le (real (q - r - ζ * M)) bounds.2) :
    Extends p horizon W s x (s.makesRow name bounds (lifted p.bigM t u z)) x :=
  extends_makesRow name hs (C := {t, u, z})
    (yields_lifted p.bigM (.inl rfl) (.inr (.inl rfl)) (.inr (.inr rfl)))
    (by rintro _ (rfl | rfl | rfl); exacts [ht, hu, hz])
    ((value_lifted hs.wellFormed.program.terms p.bigM ht hu hz).2
      ⟨q, r, ζ, M, hq, hr, hζ, hbigM, rfl⟩) hlower hupper

theorem DisjunctFor.extends (hfeastol : p.feastol = real δ) (hbigM : p.bigM = real M)
    (hδ : 0 ≤ δ) (hs : s.Means p horizon W x) (hscope : Scope.Within horizon scope) {i : Nat}
    {item : ExprId} (h : DisjunctFor p scope label i item s z s') {ζ : ℝ}
    (hζ : Allows p (scope.valuation p W) δ M item ζ) :
    ∃ x', Extends p horizon W s x s' x' ∧ s'.program.terms.eval x' z = real ζ := by
  obtain @⟨op, a, b, k, s₀, s₁, s₂, _, z, t, u, he, hk, hname, hz, hs₀, ht, hu, rfl⟩ := h
  obtain ⟨op', q, r, hcompares, hbound, hvalue⟩ := hζ
  obtain ⟨q', r', hq, hr, habs, hholdsBy, hfailsBy⟩ := sides_of_compares (δ := δ) he hk hcompares
  rw [← habs] at hbound
  -- the switch gets its value, and a term
  have hswitch := extends_switch hs hname (ζ := ζ) (hvalue.imp (·.1) (·.1))
  obtain ⟨hgrows, hzlt⟩ := State.grows_makes (N := ∅) (M := ∅) (C := ∅) hswitch.means.wellFormed
    (Terms.yields_var (size_withSwitch s label i)) fun _ h => h.elim
  rw [← hz, ← hs₀] at hzlt
  rw [← hs₀] at hgrows
  have hmakes := Extends.of_terms hgrows
    (hswitch.means.of_grows hgrows (by rw [hs₀]; rfl) fun _ _ => rfl)
  have hvar : s₀.program.terms.eval (Function.update x s.program.vars.size (real ζ)) z =
      real ζ := by
    rw [hz, hs₀]
    refine (Terms.value_var hswitch.means.wellFormed.program.terms (size_withSwitch s label i)).trans ?_
    exact Function.update_self _ _ _
  -- the sides, and the row over them
  have hfirst := ht.extends hmakes.means hscope
  have hsecond := hu.extends hfirst.means hscope
  have hsides := hfirst.trans hsecond
  have htlt := (ht.grows (N := ∅) (M := ∅) hmakes.means.wellFormed).2
  have hult := (hu.grows (N := ∅) (M := ∅) hfirst.means.wellFormed).2
  have hzlt₂ := Nat.lt_of_lt_of_le hzlt hsides.grows.terms_size
  have hζ₂ := (hsides.eval hmakes.means hzlt).trans hvar
  have hbounds : Scalar.le (switchBounds p.bigM p.feastol k.strict).1 (real (q' - r' - ζ * M)) ∧
      Scalar.le (real (q' - r' - ζ * M)) (switchBounds p.bigM p.feastol k.strict).2 := by
    rw [hbigM, hfeastol]
    rcases hvalue with ⟨rfl, hop⟩ | ⟨rfl, hop⟩
    · rw [zero_mul, sub_zero]
      exact switchBounds_of_holdsBy hδ hbound (hholdsBy hop)
    · rw [one_mul]
      exact switchBounds_of_failsBy hδ hbound (hfailsBy hop)
  have hrow := extends_liftedRow s!"{label}_or_{i}" hsecond.means hbigM
    (Nat.lt_of_lt_of_le htlt hsecond.grows.terms_size) hult hzlt₂
    ((hsecond.eval hfirst.means htlt).trans (((ht.means hmakes.means hscope).2 q').2 hq))
    (((hu.means hfirst.means hscope).2 r').2 hr) hζ₂ hbounds.1 hbounds.2
  exact ⟨_, ((hswitch.trans hmakes).trans hsides).trans hrow,
    (hrow.eval hsecond.means hzlt₂).trans hζ₂⟩

theorem DisjunctsFor.extends (hfeastol : p.feastol = real δ) (hbigM : p.bigM = real M)
    (hδ : 0 ≤ δ) (hs : s.Means p horizon W x) (hscope : Scope.Within horizon scope) {i : Nat}
    {items : List ExprId} {zs : List TermId} (h : DisjunctsFor p scope label i items s zs s')
    {ζs : List ℝ} (hζs : List.Forall₂ (Allows p (scope.valuation p W) δ M) items ζs) :
    ∃ x', Extends p horizon W s x s' x' ∧
      List.Forall₂ (fun z ζ => s'.program.terms.eval x' z = real ζ) zs ζs := by
  induction h generalizing x ζs with
  | nil =>
    cases hζs
    exact ⟨x, .refl hs, .nil⟩
  | @cons i item items z zs s s₁ s' h _ ih =>
    cases hζs with
    | @cons _ ζ _ ζs hζ hζs =>
      obtain ⟨x₁, hfirst, hvalue⟩ := h.extends hfeastol hbigM hδ hs hscope hζ
      obtain ⟨x', hrest, hvalues⟩ := ih hfirst.means hζs
      have hz := (h.grows hs.wellFormed).2
      exact ⟨x', hfirst.trans hrest, .cons ((hrest.eval hfirst.means hz).trans hvalue) hvalues⟩

/-- The rows of disjuncts and the row that counts their switches. -/
theorem completes_switches (hfeastol : p.feastol = real δ) (hbigM : p.bigM = real M)
    (hδ : 0 ≤ δ) (hscope : Scope.Within horizon scope) {items : List ExprId} {zs : List TermId}
    (h : DisjunctsFor p scope label 0 items s zs s₁)
    (hitems : ∀ i ∈ items, p.arena.Decides (scope.valuation p W) δ M i) {j : ExprId} (hj : j ∈ items)
    {op : Comparison} {q r : ℝ} (hc : p.arena.Compares (scope.valuation p W) j op q r)
    (hop : op.HoldsBy δ q r) : Completes p horizon W s
      (s₁.makesRow s!"{label}_or" (-Scalar.infinity, Scalar.nat zs.length - Scalar.one)
        (Terms.sum zs)) := by
  intro x hs
  obtain ⟨ζs, hζs, hsum⟩ := exists_allows hitems hj hc hop
  obtain ⟨x', hextends, hvalues⟩ := h.extends hfeastol hbigM hδ hs hscope hζs
  have hzs := (h.grows hs.wellFormed).2
  refine ⟨x', hextends.trans (extends_makesRow _ hextends.means (C := {z | z ∈ zs})
    (Terms.yields_sum fun _ hz => hz) hzs (d := ζs.sum) ?_ ?_ ?_)⟩
  · rw [← Exact.part_eq, Terms.part_value_sum hextends.means.wellFormed.program.terms zs hzs]
    clear hzs hsum hζs h
    induction hvalues with
    | nil => rfl
    | cons hz _ ih => rw [List.map_cons, List.sum_cons, ih, List.sum_cons, hz]; rfl
  · exact Exact.neg_infinity_le_real
  · simpa [hvalues.length_eq] using hsum

theorem completes_disjunction (hfeastol : p.feastol = real δ) (hbigM : p.bigM = real M)
    (hδ : 0 ≤ δ) (hscope : Scope.Within horizon scope) {e : ExprId} {items : List ExprId}
    {zs : List TermId} (he : p.arena.node e = .join .or items)
    (h : DisjunctsFor p scope label 0 items s zs s₁)
    (hholds : p.arena.HoldsBy (scope.valuation p W) δ M e) : Completes p horizon W s
      (s₁.makesRow s!"{label}_or" (-Scalar.infinity, Scalar.nat zs.length - Scalar.one)
        (Terms.sum zs)) := by
  cases hholds with
  | @or _ items' hnode hitems j op q r hj hc hop =>
    rw [he] at hnode
    cases hnode
    exact completes_switches hfeastol hbigM hδ hscope h hitems hj hc hop
  | compare hc =>
    obtain ⟨a, b, hnode, -⟩ := hc
    exact absurd (he.symm.trans hnode) (by rintro ⟨⟩)
  | and hnode => exact absurd (he.symm.trans hnode) (by rintro ⟨⟩)

/-! ## Constraints -/

/-- The rows of a constraint can be completed where the constraint holds with room. -/
theorem constraint_completes (hp : p.arena.WellFormed) (hfeastol : p.feastol = real δ)
    (hbigM : p.bigM = real M) (hδ : 0 ≤ δ) (hscope : Scope.Within horizon scope) {e : ExprId}
    (h : (constraint p scope label e).run s = .ok ((), s'))
    (hholds : p.arena.HoldsBy (scope.valuation p W) δ M e) : Completes p horizon W s s' := by
  revert hholds
  refine constraint_induction hp (Q := fun _ e s s' =>
    p.arena.HoldsBy (scope.valuation p W) δ M e → Completes p horizon W s s') ?_ ?_ ?_ h
  · intro label op e a b s s₁ s₂ t u he ht hu hholds
    exact completes_comparison hfeastol hscope he ht hu hholds
  · intro label e items s s₁ zs he hzs hholds
    exact completes_disjunction hfeastol hbigM hδ hscope he hzs hholds
  · intro label e items s s' he hsteps hholds
    cases hholds with
    | and hnode hitems =>
      rw [he] at hnode
      cases hnode
      exact .steps hsteps fun i hi s s' hQ => hQ (hitems i.1 (List.fst_mem_of_mem_zipIdx hi))
    | compare hc =>
      obtain ⟨a, b, hnode, -⟩ := hc
      exact absurd (he.symm.trans hnode) (by rintro ⟨⟩)
    | or hnode => exact absurd (he.symm.trans hnode) (by rintro ⟨⟩)

theorem ConstraintsFor.completes (hp : p.arena.WellFormed) (hfeastol : p.feastol = real δ)
    (hbigM : p.bigM = real M) (hδ : 0 ≤ δ) (hscope : Scope.Within horizon scope)
    {kind ending : String} {cs : List Constraint}
    (h : ConstraintsFor p scope kind ending cs s s')
    (hholds : ∀ c ∈ cs, p.arena.HoldsBy (scope.valuation p W) δ M c.expr) :
    Completes p horizon W s s' :=
  .steps h fun c hc _ _ hrun => constraint_completes hp hfeastol hbigM hδ hscope hrun
    (hholds c.1 (List.fst_mem_of_mem_zipIdx hc))

/-! ## Plans -/

/-- The variable of a name has a value, which an expression denotes. -/
def Takes (p : Problem Exact) (W : Valuation Exact) (scope : Scope) (y : String) (e : ExprId) :
    Prop :=
  ∃ r, W y = some (real r) ∧ p.arena.Denotes (scope.valuation p W) e r

theorem DefinitionFor.completes (hscope : Scope.Within horizon scope) {y row : String} {e : ExprId}
    (h : DefinitionFor p scope y e row s s') (htakes : Takes p W scope y e) :
    Completes p horizon W s s' := by
  intro x hs
  obtain @⟨v, t, s₁, _, hv, ht, rfl⟩ := h
  obtain ⟨r, hr, hdenotes⟩ := htakes
  have hlt := hs.wellFormed.program.lt_size hv
  obtain ⟨hgrows, hzlt⟩ := State.grows_makes (N := ∅) (M := ∅) (C := ∅) hs.wellFormed
    (Terms.yields_var hlt) fun _ h => h.elim
  have hmakes := Extends.of_terms hgrows (hs.of_grows hgrows rfl fun _ _ => rfl)
  have hterm := ht.extends hmakes.means hscope
  have htlt := (ht.grows (N := ∅) (M := ∅) hmakes.means.wellFormed).2
  -- the variable and the expression have the same value
  have hvar : (s.makes (Terms.var v)).program.terms.eval x (s.made (Terms.var v)) = real r := by
    obtain ⟨v', hv', hvalue⟩ := hs.named y _ hr
    obtain rfl := Option.some.inj (hv'.symm.trans hv)
    exact (Terms.value_var hs.wellFormed.program.terms hlt).trans hvalue
  refine ⟨x, (hmakes.trans hterm).trans (extends_differenceRow row hterm.means
    (Nat.lt_of_lt_of_le hzlt hterm.grows.terms_size) htlt
    ((hterm.eval hmakes.means hzlt).trans hvar) (((ht.means hmakes.means hscope).2 r).2 hdenotes)
    ?_ ?_)⟩
  · simp
  · simp

/-- What the rows of a stage allow. -/
structure StageMeets (p : Problem Exact) (W : Valuation Exact) (δ M : ℝ) (t : Nat) : Prop where
  instantaneous : ∀ c ∈ p.domain.instantaneous,
    p.arena.HoldsBy ((Scope.stage t).valuation p W) δ M c.expr
  temporal : ∀ c ∈ p.domain.temporal,
    p.arena.HoldsBy ((Scope.stage t).valuation p W) δ M c.expr
  transitions : ∀ y ∈ p.transitions, Takes p W (.stage t) (stageVar y.1 (t + 1)) y.2
  reward : Takes p W (.stage t) (rewardVar t) p.domain.reward.expr

theorem StageFor.completes (hp : p.arena.WellFormed) (hfeastol : p.feastol = real δ)
    (hbigM : p.bigM = real M) (hδ : 0 ≤ δ) {n : Nat} (hn : n < horizon)
    (h : StageFor p n s s') (hmeets : StageMeets p W δ M n) : Completes p horizon W s s' := by
  obtain ⟨hinstantaneous, htemporal, htransitions, hreward⟩ := h
  have hn : Scope.Within horizon (.stage n) := hn
  have h₁ := hinstantaneous.completes hp hfeastol hbigM hδ hn hmeets.instantaneous
  have h₂ := htemporal.completes hp hfeastol hbigM hδ hn hmeets.temporal
  have h₃ : Completes p horizon W _ _ := .steps htransitions fun y hy s s' hQ => by
    unfold TransitionFor at hQ
    exact hQ.completes hn (hmeets.transitions y hy)
  unfold RewardFor at hreward
  exact ((h₁.trans h₂).trans h₃).trans (hreward.completes hn hmeets.reward)

/-- What the rows of a program allow. -/
structure PlanMeets (p : Problem Exact) (horizon : Nat) (cs : List (Cut Exact))
    (W : Valuation Exact) (δ M : ℝ) : Prop where
  initials : ∀ c ∈ p.domain.initials, p.arena.HoldsBy ((Scope.stage 0).valuation p W) δ M c.expr
  stages : ∀ t < horizon, StageMeets p W δ M t
  goals : ∀ c ∈ p.domain.goals, p.arena.HoldsBy ((Scope.goal horizon).valuation p W) δ M c.expr
  cuts : ∀ c ∈ cs, c.stage < horizon →
    p.arena.HoldsBy ((Scope.stage c.stage).valuation p W) δ M c.expr

theorem RowsFor.completes (hp : p.arena.WellFormed) (hfeastol : p.feastol = real δ)
    (hbigM : p.bigM = real M) (hδ : 0 ≤ δ) (hhorizon : 0 < horizon) {cs : List (Cut Exact)}
    (h : RowsFor p horizon cs s s') (hmeets : PlanMeets p horizon cs W δ M) :
    Completes p horizon W s s' := by
  obtain @⟨s₁, s₂, s₃, _, hinitials, hstages, hgoals, hcuts⟩ := h
  rw [if_pos hhorizon] at hgoals
  have hstart : Scope.Within horizon (.stage 0) := hhorizon
  have hgoal : Scope.Within horizon (.goal horizon) := rfl
  have h₁ := hinitials.completes hp hfeastol hbigM hδ hstart hmeets.initials
  have h₂ : Completes p horizon W _ _ := .steps hstages
    fun n hn s s' hstage => hstage.completes hp hfeastol hbigM hδ (List.mem_range.1 hn)
      (hmeets.stages n (List.mem_range.1 hn))
  have h₃ := hgoals.completes hp hfeastol hbigM hδ hgoal hmeets.goals
  refine ((h₁.trans h₂).trans h₃).trans (.steps hcuts fun c hc s s' hcut => ?_)
  unfold CutFor at hcut
  split at hcut
  · next hlt =>
    have hscope : Scope.Within horizon (.stage c.1.stage) := hlt
    exact constraint_completes hp hfeastol hbigM hδ hscope hcut
      (hmeets.cuts c.1 (List.fst_mem_of_mem_zipIdx hc) hlt)
  · subst hcut
    exact fun x hs => ⟨x, .refl hs⟩

end Encoding

end HybridPlan
