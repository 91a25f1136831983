import HybridPlan.Proofs.Encoding.Meaning
import HybridPlan.Proofs.Expr.Judgement

set_option autoImplicit false

/-! # What the rows of an encoding ensure

An assignment that satisfies the rows of a constraint makes the constraint hold: the terms in the
rows mean what the compared expressions denote, and of the switches of a disjunction one is not
set. -/

namespace HybridPlan

open Exact (real part)

/-- The inequality fails, by the tolerance if it is not strict. -/
def Comparison.FailsBy (δ : ℝ) : Comparison → ℝ → ℝ → Prop
  | lt, x, y => y ≤ x
  | le, x, y => y + δ ≤ x
  | gt, x, y => x ≤ y
  | ge, x, y => x + δ ≤ y
  | eq, _, _ => False

namespace Encoding

/-! ## Parts of an encoding -/

/-- A part of the encoding keeps the meaning of terms, and whatever satisfies the rows that it adds
makes `K` true. -/
structure Ensures (p : Problem Exact) (horizon : Nat) (W : Valuation Exact) (x : VarId → Exact)
    (K : Prop) (s s' : State Exact) : Prop where
  grows : s.Grows Set.univ Set.univ s'
  means : s'.Means p horizon W x
  holds : s.program.SatisfiesBeyond s'.program x → K

variable {p : Problem Exact} {horizon : Nat} {W : Valuation Exact} {x : VarId → Exact}
  {s s₁ s₂ s' : State Exact} {scope : Scope} {label : String} {t u z : TermId} {K K' : Prop}

namespace Ensures

theorem refl (hs : s.Means p horizon W x) (hK : K) : Ensures p horizon W x K s s :=
  ⟨.refl hs.wellFormed, hs, fun _ => hK⟩

theorem imp (hK : K → K') (h : Ensures p horizon W x K s s') : Ensures p horizon W x K' s s' :=
  ⟨h.grows, h.means, fun hx => hK (h.holds hx)⟩

theorem trans (h : Ensures p horizon W x K s s₁)
    (h' : Ensures p horizon W x K' s₁ s') : Ensures p horizon W x (K ∧ K') s s' where
  grows := h.grows.trans h'.grows
  means := h'.means
  holds hx := ⟨h.holds (hx.left h'.grows.adds h.means.wellFormed.program
    h'.means.wellFormed.program), h'.holds (hx.right h.grows.adds)⟩

/-- Steps ensure what each of them does. -/
theorem steps {ι : Type} {Q : ι → State Exact → State Exact → Prop} {K : ι → Prop} {l : List ι}
    (hs : s.Means p horizon W x) (h : Steps Q l s s')
    (hQ : ∀ i ∈ l, ∀ s s', Q i s s' → s.Means p horizon W x → Ensures p horizon W x (K i) s s') :
    Ensures p horizon W x (∀ i ∈ l, K i) s s' := by
  induction h with
  | nil => exact refl hs fun i hi => absurd hi List.not_mem_nil
  | cons h _ ih =>
    have hfirst := hQ _ List.mem_cons_self _ _ h hs
    have hrest := ih hfirst.means fun i hi => hQ i (List.mem_cons_of_mem _ hi)
    exact (hfirst.trans hrest).imp List.forall_mem_cons.2

end Ensures

theorem TermFor.ensures {e : ExprId} (h : TermFor p scope e s t s') (hs : s.Means p horizon W x)
    (hscope : Scope.Within horizon scope) : Ensures p horizon W x True s s' :=
  ⟨(h.grows hs.wellFormed).1, (h.means hs hscope).1, fun _ => trivial⟩

/-- A term keeps its value. -/
theorem Ensures.eval (h : Ensures p horizon W x K s s') (hs : s.Means p horizon W x)
    (ht : t < s.program.terms.size) : s'.program.terms.eval x t = s.program.terms.eval x t :=
  h.grows.adds.eval hs.wellFormed.program h.means.wellFormed.program (fun _ _ => rfl) ht

/-! ## Rows -/

/-- The body of a row has a real value between the bounds. -/
theorem ensures_makesRow (name : String) (hs : s.Means p horizon W x) {C : Set TermId}
    {m : Terms.Make Exact TermId} (hm : Terms.Make.Yields s.program.vars.size C m ({·}))
    (hC : ∀ t ∈ C, t < s.program.terms.size) (bounds : Exact × Exact) :
    Ensures p horizon W x (∃ d, m.value s.program.terms x = real d ∧
      Scalar.le bounds.1 (real d) ∧ Scalar.le (real d) bounds.2) s (s.makesRow name bounds m) := by
  have hgrows := State.grows_makesRow (N := Set.univ) (M := Set.univ) hs.wellFormed
    (Set.mem_univ name) bounds hm hC
  refine ⟨hgrows, hs.of_grows hgrows rfl fun _ _ => rfl, fun hx => ?_⟩
  have hrow := hx.rows ⟨name, bounds.1, s.made m, bounds.2⟩
    (by simp [State.makesRow, State.withRow, Program.withRow, State.makes])
  obtain ⟨hfinite, hlower, hupper⟩ := hrow
  obtain ⟨d, hd⟩ := Exact.isFinite_iff.1 hfinite
  rw [hd] at hlower hupper
  exact ⟨d, hd, hlower, hupper⟩

/-- Rows over differences. -/
theorem ensures_differenceRow (name : String) (hs : s.Means p horizon W x)
    (ht : t < s.program.terms.size) (hu : u < s.program.terms.size) (bounds : Exact × Exact) :
    Ensures p horizon W x (∃ q r, s.program.terms.eval x t = real q ∧
      s.program.terms.eval x u = real r ∧ Scalar.le bounds.1 (real (q - r)) ∧
      Scalar.le (real (q - r)) bounds.2) s (s.makesRow name bounds (Terms.sub t u)) := by
  refine (ensures_makesRow name hs (C := {t, u}) (Terms.yields_sub (.inl rfl) (.inr rfl))
    (by rintro _ (rfl | rfl); exacts [ht, hu]) bounds).imp ?_
  rintro ⟨d, hd, hlower, hupper⟩
  rw [← Exact.part_eq, Terms.part_value_sub hs.wellFormed.program.terms ht hu, Exact.part_eq] at hd
  obtain ⟨q, r, hq, hr, rfl⟩ := Exact.sub_eq_real.1 hd
  exact ⟨q, r, hq, hr, hlower, hupper⟩

/-- The bounds of the row of a comparison say that it holds, by the tolerance if it is strict. -/
theorem comparisonBounds_iff {δ : ℝ} {op : Comparison} {q r : ℝ} :
    (Scalar.le (comparisonBounds (real δ) op).1 (real (q - r)) = true ∧
      Scalar.le (real (q - r)) (comparisonBounds (real δ) op).2 = true) ↔ op.HoldsBy δ q r := by
  cases op with
  | lt =>
    have hroom : q - r ≤ -δ ↔ q + δ ≤ r := by constructor <;> intro h <;> linarith
    simpa [comparisonBounds, Comparison.HoldsBy] using hroom
  | le => simp [comparisonBounds, Comparison.HoldsBy]
  | gt =>
    have hroom : δ ≤ q - r ↔ r + δ ≤ q := by constructor <;> intro h <;> linarith
    simpa [comparisonBounds, Comparison.HoldsBy] using hroom
  | ge => simp [comparisonBounds, Comparison.HoldsBy]
  | eq =>
    have hequal : (0 ≤ q - r ∧ q - r ≤ 0) ↔ q = r := by
      rw [and_comm, ← le_antisymm_iff, sub_eq_zero]
    simpa [comparisonBounds, Comparison.HoldsBy] using hequal

/-- The row of a comparison makes it hold. -/
theorem ensures_comparison {δ : ℝ} (hfeastol : p.feastol = real δ)
    (hs : s.Means p horizon W x) (hscope : Scope.Within horizon scope) {op : Comparison}
    {e a b : ExprId} (he : p.arena.node e = .compare op a b) (ht : TermFor p scope a s t s₁)
    (hu : TermFor p scope b s₁ u s₂) :
    Ensures p horizon W x (p.arena.Respects δ (scope.valuation p W) e) s
      (s₂.makesRow label (comparisonBounds p.feastol op) (Terms.sub t u)) := by
  obtain ⟨hs₁, hvalue⟩ := ht.means hs hscope
  obtain ⟨hs₂, hvalue'⟩ := hu.means hs₁ hscope
  have hrest := hu.ensures hs₁ hscope
  have htlt := (ht.grows (N := ∅) (M := ∅) hs.wellFormed).2
  have hult := (hu.grows (N := ∅) (M := ∅) hs₁.wellFormed).2
  have hrow := ensures_differenceRow label hs₂
    (Nat.lt_of_lt_of_le htlt hrest.grows.terms_size) hult (comparisonBounds p.feastol op)
  refine (((ht.ensures hs hscope).trans hrest).trans hrow).imp ?_
  rintro ⟨-, q, r, hq, hr, hlower, hupper⟩
  rw [hrest.eval hs₁ htlt, hvalue] at hq
  rw [hvalue'] at hr
  rw [hfeastol] at hlower hupper
  exact .compare ⟨a, b, he, hq, hr⟩ (comparisonBounds_iff.1 ⟨hlower, hupper⟩)

/-! ## Disjunctions -/

/-- The comparison that an inequality is, its smaller side coming first. -/
def Inequality.op (k : Inequality) : Comparison := if k.strict then .lt else .le

/-- An inequality compares what the comparison compares. -/
theorem compares_of_of? {v : Valuation Exact} {item a b : ExprId} {op : Comparison}
    {k : Inequality} (he : p.arena.node item = .compare op a b)
    (hk : Inequality.of? op a b = some k) {q r : ℝ} (hq : p.arena.Denotes v k.lhs q)
    (hr : p.arena.Denotes v k.rhs r) :
    ∃ q' r', p.arena.Compares v item op q' r' ∧ ∀ δ, (k.op.HoldsBy δ q r → op.HoldsBy δ q' r') ∧
      (k.op.FailsBy δ q r → op.FailsBy δ q' r') := by
  cases op with
  | lt | le =>
    cases hk
    exact ⟨q, r, ⟨a, b, he, hq, hr⟩, fun _ => ⟨id, id⟩⟩
  | gt | ge =>
    cases hk
    exact ⟨r, q, ⟨a, b, he, hr, hq⟩, fun _ => ⟨id, id⟩⟩
  | eq => cases hk

/-- A new switch is not set or set. -/
theorem ensures_switch (hs : s.Means p horizon W x) {i : Nat}
    (hname : s.program.varOf? (switchName label i) = none) :
    Ensures p horizon W x (x s.program.vars.size = real 0 ∨ x s.program.vars.size = real 1) s
      (s.withVar (switch label i)) := by
  have hgrows := State.grows_withVar (N := Set.univ) (M := Set.univ) hs.wellFormed
    (v := switch label i) hname (Set.mem_univ _)
  refine ⟨hgrows, hs.of_grows hgrows rfl fun _ _ => rfl, fun hx => ?_⟩
  have hadmits := hx.vars (v := switch label i) (Nat.le_refl _) Array.getElem?_push_size
  simpa using hadmits.binary rfl

/-- What a disjunct and its switch have to do with each other: if the switch is not set, the
disjunct holds, and if it is set, the disjunct fails. -/
def Switched (p : Problem Exact) (δ : ℝ) (v : Valuation Exact) (ts : Terms Exact)
    (x : VarId → Exact) (item : ExprId) (z : TermId) : Prop :=
  ∃ op q r, p.arena.Compares v item op q r ∧
    (ts.eval x z = real 0 ∧ op.HoldsBy δ q r ∨ ts.eval x z = real 1 ∧ op.FailsBy δ q r)

theorem holdsBy_of_switchBounds {δ : ℝ} {k : Inequality} {bigM : Exact} {q r : ℝ}
    (h : Scalar.le (real (q - r)) (switchBounds bigM (real δ) k.strict).2) :
    k.op.HoldsBy δ q r := by
  unfold Inequality.op
  cases hstrict : k.strict with
  | true =>
    have hle : q - r ≤ -δ := by simpa [switchBounds, hstrict] using h
    exact le_sub_iff_add_le.1 (by linarith : q ≤ r - δ)
  | false =>
    have hle : q ≤ r := by simpa [switchBounds, hstrict] using h
    exact hle

theorem failsBy_of_switchBounds {δ M : ℝ} {k : Inequality} {q r : ℝ}
    (h : Scalar.le (switchBounds (real M) (real δ) k.strict).1 (real (q - r - M))) :
    k.op.FailsBy δ q r := by
  unfold Inequality.op
  cases hstrict : k.strict with
  | true =>
    have hle : -M ≤ q - r - M := by simpa [switchBounds, hstrict] using h
    exact (by linarith : r ≤ q)
  | false =>
    have hle : δ - M ≤ q - r - M := by simpa [switchBounds, hstrict] using h
    exact (by linarith : r + δ ≤ q)

/-- The row of a disjunct and its switch. -/
theorem ensures_liftedRow (name : String) (hs : s.Means p horizon W x)
    (ht : t < s.program.terms.size) (hu : u < s.program.terms.size) (hz : z < s.program.terms.size)
    (bounds : Exact × Exact) :
    Ensures p horizon W x (∃ q r ζ M, s.program.terms.eval x t = real q ∧
      s.program.terms.eval x u = real r ∧ s.program.terms.eval x z = real ζ ∧ p.bigM = real M ∧
      Scalar.le bounds.1 (real (q - r - ζ * M)) ∧ Scalar.le (real (q - r - ζ * M)) bounds.2) s
      (s.makesRow name bounds (lifted p.bigM t u z)) := by
  refine (ensures_makesRow name hs (C := {t, u, z})
    (yields_lifted p.bigM (.inl rfl) (.inr (.inl rfl)) (.inr (.inr rfl)))
    (by rintro _ (rfl | rfl | rfl); exacts [ht, hu, hz]) bounds).imp ?_
  rintro ⟨d, hd, hlower, hupper⟩
  obtain ⟨q, r, ζ, M, hq, hr, hζ, hM, rfl⟩ :=
    (value_lifted hs.wellFormed.program.terms p.bigM ht hu hz).1 hd
  exact ⟨q, r, ζ, M, hq, hr, hζ, hM, hlower, hupper⟩

theorem DisjunctFor.ensures {δ : ℝ} (hfeastol : p.feastol = real δ)
    (hs : s.Means p horizon W x) (hscope : Scope.Within horizon scope) {i : Nat} {item : ExprId}
    (h : DisjunctFor p scope label i item s z s') :
    Ensures p horizon W x (Switched p δ (scope.valuation p W) s'.program.terms x item z) s s' := by
  obtain @⟨op, a, b, k, s₀, s₁, s₂, _, z, t, u, he, hk, hname, hz, hs₀, ht, hu, rfl⟩ := h
  have hswitch := ensures_switch hs hname
  have hvar : s₀.program.terms.eval x z = x s.program.vars.size := by
    rw [hz, hs₀]
    exact Terms.value_var hswitch.means.wellFormed.program.terms (size_withSwitch s label i)
  obtain ⟨-, hgrows, hzlt⟩ := State.grows_switch (M := Set.univ) hs.wellFormed hname (Set.mem_univ _)
  rw [← hz, ← hs₀] at hzlt
  rw [← hs₀] at hgrows
  have hmakes : Ensures p horizon W x True (s.withVar (switch label i)) s₀ :=
    ⟨hgrows, hswitch.means.of_grows hgrows (by rw [hs₀]; rfl) fun _ _ => rfl, fun _ => trivial⟩
  -- the sides, and the row over them
  have hfirst := ht.ensures hmakes.means hscope
  have hsecond := hu.ensures hfirst.means hscope
  have hsides := hfirst.trans hsecond
  have htlt := (ht.grows (N := ∅) (M := ∅) hmakes.means.wellFormed).2
  have hult := (hu.grows (N := ∅) (M := ∅) hfirst.means.wellFormed).2
  have hzlt₂ := Nat.lt_of_lt_of_le hzlt hsides.grows.terms_size
  have hrow := ensures_liftedRow s!"{label}_or_{i}" hsecond.means
    (Nat.lt_of_lt_of_le htlt hsecond.grows.terms_size) hult hzlt₂
    (switchBounds p.bigM p.feastol k.strict)
  refine ((hswitch.trans (hmakes.trans hsides)).trans hrow).imp ?_
  rintro ⟨⟨hbinary, -⟩, q, r, ζ, M, hq, hr, hζ, hbigM, hlower, hupper⟩
  rw [hsecond.eval hfirst.means htlt, (ht.means hmakes.means hscope).2] at hq
  rw [(hu.means hfirst.means hscope).2] at hr
  obtain ⟨q', r', hcompares, hclear⟩ := compares_of_of? he hk hq hr
  have hzeval : s₂.program.terms.eval x z = x s.program.vars.size :=
    (hsides.eval hmakes.means hzlt).trans hvar
  refine ⟨op, q', r', hcompares, ?_⟩
  rw [hrow.eval hsecond.means hzlt₂, hzeval]
  rcases hbinary with hzero | hone
  · -- the switch is not set, so nothing is added to the bounds
    obtain rfl : ζ = 0 := Exact.real.inj (hζ.symm.trans (hzeval.trans hzero))
    rw [zero_mul, sub_zero, hfeastol] at hupper
    exact .inl ⟨hzero, (hclear δ).1 (holdsBy_of_switchBounds hupper)⟩
  · -- the switch is set, so the large constant is taken off
    obtain rfl : ζ = 1 := Exact.real.inj (hζ.symm.trans (hzeval.trans hone))
    rw [one_mul, hfeastol, hbigM] at hlower
    exact .inr ⟨hone, (hclear δ).2 (failsBy_of_switchBounds hlower)⟩

theorem DisjunctsFor.ensures {δ : ℝ} (hfeastol : p.feastol = real δ)
    (hs : s.Means p horizon W x) (hscope : Scope.Within horizon scope) {i : Nat}
    {items : List ExprId} {zs : List TermId} (h : DisjunctsFor p scope label i items s zs s') :
    Ensures p horizon W x
      (List.Forall₂ (Switched p δ (scope.valuation p W) s'.program.terms x) items zs) s s' := by
  induction h with
  | nil => exact .refl hs .nil
  | @cons i item items z zs s s₁ s' h _ ih =>
    have hfirst := h.ensures hfeastol hs hscope
    have hrest := ih hfirst.means
    have hz := (h.grows hs.wellFormed).2
    refine (hfirst.trans hrest).imp fun ⟨hitem, hitems⟩ => .cons ?_ hitems
    obtain ⟨op, q, r, hcompares, hswitch⟩ := hitem
    exact ⟨op, q, r, hcompares, by rwa [hrest.eval hfirst.means hz]⟩

/-- Not all switches can be set. -/
theorem exists_holds_of_switched {δ : ℝ} {v : Valuation Exact} {ts : Terms Exact}
    {items : List ExprId} {zs : List TermId} (h : List.Forall₂ (Switched p δ v ts x) items zs)
    (hsum : ∃ d, (zs.map fun z => part (ts.eval x z)).sum = (d : ℝ) ∧ d ≤ zs.length - 1) :
    ∃ i ∈ items, p.arena.Respects δ v i := by
  obtain ⟨d, hd, hle⟩ := hsum
  by_contra hnone
  have hall : (zs.map fun z => part (ts.eval x z)).sum = ((zs.length : ℝ) : WithTop ℝ) := by
    clear hd hle
    induction h with
    | nil => simp
    | @cons item z items zs hitem _ ih =>
      obtain ⟨op, q, r, hcompares, ⟨-, hholds⟩ | ⟨hone, -⟩⟩ := hitem
      · exact absurd ⟨item, List.mem_cons_self, .compare hcompares hholds⟩ hnone
      · have hrest := ih fun ⟨i, hi, hholds⟩ => hnone ⟨i, List.mem_cons_of_mem _ hi, hholds⟩
        rw [List.map_cons, List.sum_cons, hrest, Exact.part_eq.2 hone, List.length_cons,
          Nat.cast_succ, add_comm, WithTop.coe_add]
  rw [hall, WithTop.coe_inj] at hd
  linarith

/-- The rows of disjuncts and the row that counts their switches. -/
theorem ensures_switches {δ : ℝ} (hfeastol : p.feastol = real δ)
    (hs : s.Means p horizon W x) (hscope : Scope.Within horizon scope) {items : List ExprId}
    {zs : List TermId} (h : DisjunctsFor p scope label 0 items s zs s₁) :
    Ensures p horizon W x
      (List.Forall₂ (Switched p δ (scope.valuation p W) s₁.program.terms x) items zs ∧
        ∃ i ∈ items, p.arena.Respects δ (scope.valuation p W) i) s
      (s₁.makesRow s!"{label}_or" (-Scalar.infinity, Scalar.nat zs.length - Scalar.one)
        (Terms.sum zs)) := by
  have hdisjuncts := h.ensures hfeastol hs hscope
  have hzs := (h.grows hs.wellFormed).2
  have hrow := ensures_makesRow s!"{label}_or" hdisjuncts.means (C := {z | z ∈ zs})
    (Terms.yields_sum fun _ hz => hz) hzs (-Scalar.infinity, Scalar.nat zs.length - Scalar.one)
  refine (hdisjuncts.trans hrow).imp ?_
  rintro ⟨hitems, d, hd, -, hupper⟩
  rw [← Exact.part_eq, Terms.part_value_sum hdisjuncts.means.wellFormed.program.terms zs hzs] at hd
  have hle : d ≤ zs.length - 1 := by simpa using hupper
  exact ⟨hitems, exists_holds_of_switched hitems ⟨d, hd, hle⟩⟩

theorem ensures_disjunction {δ : ℝ} (hfeastol : p.feastol = real δ)
    (hs : s.Means p horizon W x) (hscope : Scope.Within horizon scope) {e : ExprId}
    {items : List ExprId} {zs : List TermId} (he : p.arena.node e = .join .or items)
    (h : DisjunctsFor p scope label 0 items s zs s₁) :
    Ensures p horizon W x (p.arena.Respects δ (scope.valuation p W) e) s (s₁.makesRow s!"{label}_or"
      (-Scalar.infinity, Scalar.nat zs.length - Scalar.one) (Terms.sum zs)) := by
  refine (ensures_switches hfeastol hs hscope h).imp ?_
  rintro ⟨hitems, i, hi, hholds⟩
  refine .or he (fun j hj => ?_) hi hholds
  obtain ⟨k, hk, rfl⟩ := List.getElem_of_mem hj
  obtain ⟨op, q, r, hcompares, -⟩ := hitems.get hk (hitems.length_eq ▸ hk)
  exact ⟨op, q, r, hcompares⟩

/-! ## Constraints -/

theorem exists_zipIdx {ι : Type} {l : List ι} {i : ι} (hi : i ∈ l) : ∃ k, (i, k) ∈ l.zipIdx 0 := by
  obtain ⟨k, hk, rfl⟩ := List.getElem_of_mem hi
  exact ⟨k, List.mem_zipIdx_iff_getElem?.2 (List.getElem?_eq_getElem hk)⟩

/-- The rows of a constraint make it hold. -/
theorem constraint_ensures (hp : p.arena.WellFormed) {δ : ℝ} (hfeastol : p.feastol = real δ)
    (hscope : Scope.Within horizon scope) {e : ExprId}
    (h : (constraint p scope label e).run s = .ok ((), s')) (hs : s.Means p horizon W x) :
    Ensures p horizon W x (p.arena.Respects δ (scope.valuation p W) e) s s' := by
  revert hs
  refine constraint_induction hp (Q := fun _ e s s' => s.Means p horizon W x →
    Ensures p horizon W x (p.arena.Respects δ (scope.valuation p W) e) s s') ?_ ?_ ?_ h
  · intro label op e a b s s₁ s₂ t u he ht hu hs
    exact ensures_comparison hfeastol hs hscope he ht hu
  · intro label e items s s₁ zs he hzs hs
    exact ensures_disjunction hfeastol hs hscope he hzs
  · intro label e items s s' he hsteps hs
    have hall := Ensures.steps (K := fun i => p.arena.Respects δ (scope.valuation p W) i.1) hs
      hsteps fun i _ s s' hi hs => hi hs
    refine hall.imp fun hitems => .and he fun i hi => ?_
    obtain ⟨k, hk⟩ := exists_zipIdx hi
    exact hitems (i, k) hk

theorem ConstraintsFor.ensures (hp : p.arena.WellFormed) {δ : ℝ} (hfeastol : p.feastol = real δ)
    (hscope : Scope.Within horizon scope) {kind ending : String} {cs : List Constraint}
    (h : ConstraintsFor p scope kind ending cs s s') (hs : s.Means p horizon W x) :
    Ensures p horizon W x (∀ c ∈ cs, p.arena.Respects δ (scope.valuation p W) c.expr) s s' := by
  have hall := Ensures.steps (K := fun c => p.arena.Respects δ (scope.valuation p W) c.1.expr) hs h
    fun c _ s s' hc hs => constraint_ensures hp hfeastol hscope hc hs
  refine hall.imp fun hitems c hc => ?_
  obtain ⟨k, hk⟩ := exists_zipIdx hc
  exact hitems (c, k) hk

/-! ## Plans -/

/-- The variable of a name has the value that an expression denotes. -/
def Defines (p : Problem Exact) (W : Valuation Exact) (scope : Scope) (y : String) (e : ExprId) :
    Prop :=
  ∀ w, W y = some w → ∃ r, w = real r ∧ p.arena.Denotes (scope.valuation p W) e r

theorem DefinitionFor.ensures (hscope : Scope.Within horizon scope) {y row : String} {e : ExprId}
    (h : DefinitionFor p scope y e row s s') (hs : s.Means p horizon W x) :
    Ensures p horizon W x (Defines p W scope y e) s s' := by
  obtain @⟨v, t, s₁, _, hv, ht, rfl⟩ := h
  have hlt := hs.wellFormed.program.lt_size hv
  obtain ⟨hgrows, hzlt⟩ := State.grows_makes (N := Set.univ) (M := Set.univ) (C := ∅)
    hs.wellFormed (Terms.yields_var hlt) fun _ h => h.elim
  have hmakes : Ensures p horizon W x True s (s.makes (Terms.var v)) :=
    ⟨hgrows, hs.of_grows hgrows rfl fun _ _ => rfl, fun _ => trivial⟩
  have hvar : (s.makes (Terms.var v)).program.terms.eval x (s.made (Terms.var v)) = x v :=
    Terms.value_var hs.wellFormed.program.terms hlt
  have hterm := ht.ensures hmakes.means hscope
  have htlt := (ht.grows (N := ∅) (M := ∅) hmakes.means.wellFormed).2
  have hrow := ensures_differenceRow row hterm.means
    (Nat.lt_of_lt_of_le hzlt hterm.grows.terms_size) htlt (Scalar.zero, Scalar.zero)
  refine ((hmakes.trans hterm).trans hrow).imp ?_
  rintro ⟨-, q, r, hq, hr, hlower, hupper⟩ w hw
  rw [hterm.eval hmakes.means hzlt, hvar] at hq
  rw [(ht.means hmakes.means hscope).2] at hr
  rw [Exact.zero_eq, Exact.le_real] at hlower hupper
  obtain rfl : q = r := sub_eq_zero.1 (le_antisymm hupper hlower)
  obtain ⟨v', hv', rfl⟩ := hs.named y w hw
  obtain rfl := Option.some.inj (hv'.symm.trans hv)
  exact ⟨q, hq, hr⟩

/-- What the rows of a stage say. -/
structure StageHolds (δ : ℝ) (p : Problem Exact) (W : Valuation Exact) (t : Nat) : Prop where
  instantaneous : ∀ c ∈ p.domain.instantaneous,
    p.arena.Respects δ ((Scope.stage t).valuation p W) c.expr
  temporal : ∀ c ∈ p.domain.temporal, p.arena.Respects δ ((Scope.stage t).valuation p W) c.expr
  transitions : ∀ y ∈ p.transitions, Defines p W (.stage t) (stageVar y.1 (t + 1)) y.2
  reward : Defines p W (.stage t) (rewardVar t) p.domain.reward.expr

theorem StageFor.ensures (hp : p.arena.WellFormed) {δ : ℝ} (hfeastol : p.feastol = real δ)
    {n : Nat} (hn : n < horizon) (h : StageFor p n s s')
    (hs : s.Means p horizon W x) : Ensures p horizon W x (StageHolds δ p W n) s s' := by
  obtain ⟨hinstantaneous, htemporal, htransitions, hreward⟩ := h
  have hn : Scope.Within horizon (.stage n) := hn
  have h₁ := hinstantaneous.ensures hp hfeastol hn hs
  have h₂ := htemporal.ensures hp hfeastol hn h₁.means
  have h₃ := Ensures.steps (K := fun y => Defines p W (.stage n) (stageVar y.1 (n + 1)) y.2)
    h₂.means htransitions fun y _ s s' hy hs => by
      unfold TransitionFor at hy
      exact hy.ensures hn hs
  unfold RewardFor at hreward
  have h₄ := hreward.ensures hn h₃.means
  exact (((h₁.trans h₂).trans h₃).trans h₄).imp fun ⟨⟨⟨h₁, h₂⟩, h₃⟩, h₄⟩ => ⟨h₁, h₂, h₃, h₄⟩

/-- What the rows of a program say. -/
structure PlanHolds (δ : ℝ) (p : Problem Exact) (horizon : Nat) (cs : List (Cut Exact))
    (W : Valuation Exact) : Prop where
  initials : ∀ c ∈ p.domain.initials, p.arena.Respects δ ((Scope.stage 0).valuation p W) c.expr
  stages : ∀ t < horizon, StageHolds δ p W t
  goals : ∀ c ∈ p.domain.goals, p.arena.Respects δ ((Scope.goal horizon).valuation p W) c.expr
  cuts : ∀ c ∈ cs, c.stage < horizon →
    p.arena.Respects δ ((Scope.stage c.stage).valuation p W) c.expr

theorem CutFor.ensures (hp : p.arena.WellFormed) {δ : ℝ} (hfeastol : p.feastol = real δ)
    {c : Cut Exact × Nat} (h : CutFor p horizon c s s')
    (hs : s.Means p horizon W x) : Ensures p horizon W x (c.1.stage < horizon →
      p.arena.Respects δ ((Scope.stage c.1.stage).valuation p W) c.1.expr) s s' := by
  unfold CutFor at h
  split at h
  · next hlt =>
    have hscope : Scope.Within horizon (.stage c.1.stage) := hlt
    exact (constraint_ensures hp hfeastol hscope h hs).imp fun hc _ => hc
  · next hlt =>
    subst h
    exact .refl hs fun h => absurd h hlt

theorem RowsFor.ensures (hp : p.arena.WellFormed) {δ : ℝ} (hfeastol : p.feastol = real δ)
    (hhorizon : 0 < horizon) {cs : List (Cut Exact)} (h : RowsFor p horizon cs s s')
    (hs : s.Means p horizon W x) : Ensures p horizon W x (PlanHolds δ p horizon cs W) s s' := by
  obtain @⟨s₁, s₂, s₃, _, hinitials, hstages, hgoals, hcuts⟩ := h
  rw [if_pos hhorizon] at hgoals
  have hstart : Scope.Within horizon (.stage 0) := hhorizon
  have hgoal : Scope.Within horizon (.goal horizon) := rfl
  have h₁ := hinitials.ensures hp hfeastol hstart hs
  have h₂ := Ensures.steps (K := StageHolds δ p W) h₁.means hstages fun n hn s s' hstage hs =>
    hstage.ensures hp hfeastol (List.mem_range.1 hn) hs
  have h₃ := hgoals.ensures hp hfeastol hgoal h₂.means
  have h₄ := Ensures.steps (K := fun c => c.1.stage < horizon →
    p.arena.Respects δ ((Scope.stage c.1.stage).valuation p W) c.1.expr) h₃.means hcuts
    fun c _ s s' hc hs => hc.ensures hp hfeastol hs
  refine (((h₁.trans h₂).trans h₃).trans h₄).imp fun ⟨⟨⟨h₁, h₂⟩, h₃⟩, h₄⟩ =>
    ⟨h₁, fun t ht => h₂ t (List.mem_range.2 ht), h₃, fun c hc => ?_⟩
  obtain ⟨k, hk⟩ := exists_zipIdx hc
  exact h₄ (c, k) hk

end Encoding

end HybridPlan
