import HybridPlan.Proofs.Dynamics.Affine
import HybridPlan.Proofs.Dynamics.Integration
import HybridPlan.Proofs.Dynamics.Series
import HybridPlan.Proofs.Expr.Definedness
import HybridPlan.Proofs.Expr.Replacement
import Mathlib.Algebra.Polynomial.Roots

set_option autoImplicit false

/-! # Closed forms solve linear equations

The right-hand side of an equation is split into a rate, its derivative by the state, and a forcing,
its value where the state is zero and the other states follow their closed forms. Where no divisor of
it vanishes, the closed form starts at the state and changes by the rate times itself plus the forcing.
This is the right-hand side along the trajectory, if it is a polynomial in the state. -/

namespace HybridPlan

open Build
open Exact (real)

/-! ## Polynomials in one symbol -/

namespace Arena

/-- The expression is a polynomial in the symbol; its coefficients are free of the symbol. -/
inductive PolynomialIn (a : Arena Exact) (x : String) : ExprId → Prop
  | still {e : ExprId} (he : a.Free x e) : PolynomialIn a x e
  | sym {e : ExprId} (he : a.table.items[e]? = some (.sym x)) : PolynomialIn a x e
  | neg {e y : ExprId} (he : a.table.items[e]? = some (.neg y)) (hy : PolynomialIn a x y) :
      PolynomialIn a x e
  | add {e y z : ExprId} (he : a.table.items[e]? = some (.arith .add y z))
      (hy : PolynomialIn a x y) (hz : PolynomialIn a x z) : PolynomialIn a x e
  | sub {e y z : ExprId} (he : a.table.items[e]? = some (.arith .sub y z))
      (hy : PolynomialIn a x y) (hz : PolynomialIn a x z) : PolynomialIn a x e
  | mul {e y z : ExprId} (he : a.table.items[e]? = some (.arith .mul y z))
      (hy : PolynomialIn a x y) (hz : PolynomialIn a x z) : PolynomialIn a x e
  | div {e y z : ExprId} (he : a.table.items[e]? = some (.arith .div y z))
      (hy : PolynomialIn a x y) (hz : a.Free x z) : PolynomialIn a x e
  | pow {e y z : ExprId} {n : ℕ} (he : a.table.items[e]? = some (.arith .pow y z))
      (hy : PolynomialIn a x y) (hz : a.Literal z n) : PolynomialIn a x e

variable {a : Arena Exact} {x : String} {e : ExprId} {ξ : String → ℝ} {φ : ℝ}

theorem AffineIn.polynomialIn (h : a.AffineIn x e) : a.PolynomialIn x e := by
  induction h with
  | still he => exact .still he
  | sym he => exact .sym he
  | neg he _ ih => exact .neg he ih
  | add he _ _ ihy ihz => exact .add he ihy ihz
  | sub he _ _ ihy ihz => exact .sub he ihy ihz
  | mul he hy _ ih => exact .mul he (.still hy) ih

/-- Where it is defined, such an expression varies with the symbol as a polynomial does. -/
theorem PolynomialIn.exists_polynomial (h : a.PolynomialIn x e)
    (hφ : a.Denotes (fun s => some (real (ξ s))) e φ) : ∃ p : Polynomial ℝ, ∀ ζ,
      a.Varies x (Function.update ξ x ζ) e (p.eval ζ) (p.derivative.eval ζ) := by
  have helsewhere (ζ : ℝ) : ∀ s ≠ x, Function.update ξ x ζ s = ξ s := fun s hs => by simp [hs]
  induction h generalizing φ with
  | still he =>
    refine ⟨.C φ, fun ζ => ?_⟩
    rw [Polynomial.eval_C, Polynomial.derivative_C, Polynomial.eval_zero]
    exact .still he (hφ.of_free he (helsewhere ζ))
  | sym he =>
    refine ⟨.X, fun ζ => ?_⟩
    rw [Polynomial.eval_X, Polynomial.derivative_X, Polynomial.eval_one]
    exact (Varies.sym he).congr (by simp) rfl
  | neg he _ ih =>
    obtain ⟨q, hq, -⟩ := hφ.of_node (node_eq_of_getElem? he)
    obtain ⟨p, hp⟩ := ih hq
    exact ⟨-p, fun ζ => (Varies.neg he (hp ζ)).congr (by simp) (by simp)⟩
  | add he _ _ ihy ihz =>
    obtain ⟨q, q', hq, hq', -⟩ := hφ.of_node (node_eq_of_getElem? he)
    obtain ⟨p, hp⟩ := ihy hq
    obtain ⟨p', hp'⟩ := ihz hq'
    exact ⟨p + p', fun ζ => (Varies.add he (hp ζ) (hp' ζ)).congr (by simp) (by simp)⟩
  | sub he _ _ ihy ihz =>
    obtain ⟨q, q', hq, hq', -⟩ := hφ.of_node (node_eq_of_getElem? he)
    obtain ⟨p, hp⟩ := ihy hq
    obtain ⟨p', hp'⟩ := ihz hq'
    exact ⟨p - p', fun ζ => (Varies.sub he (hp ζ) (hp' ζ)).congr (by simp) (by simp)⟩
  | mul he _ _ ihy ihz =>
    obtain ⟨q, q', hq, hq', -⟩ := hφ.of_node (node_eq_of_getElem? he)
    obtain ⟨p, hp⟩ := ihy hq
    obtain ⟨p', hp'⟩ := ihz hq'
    exact ⟨p * p', fun ζ => (Varies.mul he (hp ζ) (hp' ζ)).congr (by simp)
      (by simp [Polynomial.derivative_mul])⟩
  | div he _ hz ih =>
    obtain ⟨q, w, hq, hw, hr⟩ := hφ.of_node (node_eq_of_getElem? he)
    obtain ⟨_, _, ⟨⟩, ⟨⟩, hne, -⟩ := Exact.div_eq_real.1 hr
    obtain ⟨p, hp⟩ := ih hq
    refine ⟨p * .C w⁻¹, fun ζ => ?_⟩
    refine (Varies.div he (hp ζ) hz (hw.of_free hz (helsewhere ζ)) hne).congr ?_ ?_
    · simp [div_eq_mul_inv]
    · simp [div_eq_mul_inv]
  | @pow e y z n he _ hz ih =>
    obtain ⟨q, w, hq, -, -⟩ := hφ.of_node (node_eq_of_getElem? he)
    obtain ⟨p, hp⟩ := ih hq
    refine ⟨p ^ n, fun ζ => (Varies.pow he (hp ζ) hz).congr (by simp) ?_⟩
    simp [Polynomial.derivative_pow]

end Arena

/-- A polynomial with a constant derivative. -/
theorem eval_of_derivative_eval {p : Polynomial ℝ} {α : ℝ} (h : ∀ ζ, p.derivative.eval ζ = α)
    (ζ : ℝ) : p.eval ζ = α * ζ + p.eval 0 := by
  have hconstant : (p - .C α * .X).derivative = 0 := by
    refine Polynomial.funext fun ζ => ?_
    simp [h ζ]
  have hdegree := Polynomial.derivative_eq_zero.1 hconstant
  obtain ⟨c, hc⟩ := Polynomial.natDegree_eq_zero.1 hdegree
  have heval (ζ : ℝ) : p.eval ζ - α * ζ = c := by
    simpa using (congrArg (Polynomial.eval ζ) hc).symm
  have hzero := heval 0
  linarith [heval ζ]

namespace Build

section

variable {α ε ι : Type} [Scalar α] {m : Build α ι} {a b : Arena α} {i : ι}

theorem Attempt.run_lift_eq_ok : (m : Attempt α ε ι).run.run a = (.ok i, b) ↔ m.run a = (i, b) := by
  have hrun : (m : Attempt α ε ι).run.run a = (.ok (m.run a).1, (m.run a).2) := rfl
  rw [hrun, Prod.ext_iff, Prod.ext_iff, Except.ok.injEq]

end

/-- A substitution by expressions that have the values of the symbols keeps the value. -/
theorem substitute_denotes {a : Arena Exact} {ρ ξ : String → ℝ} {σ : Substitution} {e : ExprId}
    {φ : ℝ} (ha : a.WellFormed) (he : a.Uses (.all Exact) e)
    (hφ : a.Denotes (fun s => some (real (ξ s))) e φ)
    (huses : ∀ s y, σ s = some y → a.Uses (.all Exact) y)
    (hvalue : ∀ s y, σ s = some y → a.Denotes (fun s => some (real (ρ s))) y (ξ s))
    (hkeeps : ∀ s, σ s = none → ξ s = ρ s) :
    Leads (substitute σ e) a fun b e' =>
      b.Uses (.all Exact) e' ∧ b.Denotes (fun s => some (real (ρ s))) e' φ := by
  have hreplaces : Replaces ArithOp.strictly a (fun s => some (real (ξ s)))
      (fun s => some (real (ρ s))) σ :=
    { uses := huses
      value := fun s y u hs hu => by
        cases hu
        exact ⟨_, Arena.denotes_iff_value.1 (hvalue s y hs), .rfl⟩
      keeps := fun s u hs hu => by rwa [← hkeeps s hs] }
  have hextends := extends_substitute (fun s y hs => (huses s y hs).lt_size) ha he.lt_size
  have htranslates := substitute_translates ArithOp.lawful_strictly ha hreplaces he
  obtain ⟨u, hu, hrefines⟩ := htranslates.value _ (Arena.denotes_iff_value.1 hφ)
  rw [hrefines φ rfl] at hu
  exact ⟨hextends.wellFormed, hextends.grows.le, htranslates.uses, Arena.denotes_iff_value.2 hu⟩

end Build

namespace Linear

/-! ## Equations -/

section

variable {a b : Arena Exact} {states : List String} {dt : String}
  {known : List (String × ExprId)} {r : Rate} {c : ExprId} {ρ ξ : String → ℝ} {α γ φ : ℝ}

/-- The rate and the forcing of an equation. -/
noncomputable def split (known : List (String × ExprId)) (r : Rate) :
    Attempt Exact DerivativeError (ExprId × ExprId) := do
  let rate ← derive r.state r.rhs
  let zeroExpr ← (zero : Build Exact ExprId)
  let g ← (substitute (.ofList (known ++ [(r.state, zeroExpr)])) r.rhs : Build Exact ExprId)
  return (rate, g)

/-- The closed form of a state of a system, from closed forms of other states. -/
structure Solved (states : List String) (dt : String) (known : List (String × ExprId)) (r : Rate)
    (a : Arena Exact) (c : ExprId) (b : Arena Exact) : Prop where
  start : a.WellFormed
  rhs : a.Uses (.all Exact) r.rhs
  state : r.state ∈ states
  duration : dt ∉ states
  others : ∀ k ∈ known, k.1 ∈ states ∧ a.Uses (.all Exact) k.2
  run : (closedForm states dt known r).run.run a = (.ok c, b)

/-- The valuation gives to the known states the values of their closed forms, and what they have to
all other symbols but the state `x`. -/
structure Follows (a : Arena Exact) (known : List (String × ExprId)) (x : String) (ρ ξ : String → ℝ) :
    Prop where
  closed : ∀ s e, Substitution.ofList known s = some e → s ≠ x →
    a.Denotes (fun s => some (real (ρ s))) e (ξ s)
  other : ∀ s, Substitution.ofList known s = none → s ≠ x → ξ s = ρ s

theorem ofList_append_singleton (known : List (String × ExprId)) (x s : String) (e : ExprId) :
    Substitution.ofList (known ++ [(x, e)]) s =
      if s = x then some e else Substitution.ofList known s := by
  unfold Substitution.ofList
  rw [List.reverse_append, List.reverse_singleton, List.singleton_append, List.find?_cons]
  by_cases hs : s = x
  · simp [hs]
  · simp [hs, Ne.symm hs]

/-- How a closed form is found: from the rate, which is free of the duration and of all states, and
the terms of the forcing `g`. -/
structure Found (states : List String) (dt : String) (known : List (String × ExprId)) (r : Rate)
    (a : Arena Exact) (rate : ExprId) (b₁ : Arena Exact) (z : ExprId) (b₂ : Arena Exact) (g : ExprId)
    (b₃ : Arena Exact) (forcing : List ExpTerm) (b₄ : Arena Exact) (c : ExprId) (b : Arena Exact) :
    Prop where
  derived : (derive r.state r.rhs).run.run a = (.ok rate, b₁)
  free : ∀ s ∈ dt :: states, b₁.dependsOn rate s = false
  zero : (zero : Build Exact ExprId).run b₁ = (z, b₂)
  substitute : (substitute (.ofList (known ++ [(r.state, z)])) r.rhs).run b₂ = (g, b₃)
  decompose : (ExpPolynomial.decompose? dt g).run b₃ = (some forcing, b₄)
  solution : (solution r.state dt rate forcing).run b₄ = (c, b)

theorem Solved.exists_found (h : Solved states dt known r a c b) :
    ∃ rate b₁ z b₂ g b₃ forcing b₄, Found states dt known r a rate b₁ z b₂ g b₃ forcing b₄ c b := by
  obtain ⟨rate, b₁, hrate, hrun⟩ := Attempt.run_bind_eq_ok.1 h.run
  change (ite _ _ _ : Attempt Exact TransitionError ExprId).run.run b₁ = _ at hrun
  split at hrun
  · cases congrArg Prod.fst hrun
  next hfree =>
  obtain ⟨z, b₂, hz, hrun⟩ := Attempt.run_bind_eq_ok.1 hrun
  obtain ⟨g, b₃, hg, hrun⟩ := Attempt.run_bind_eq_ok.1 hrun
  obtain ⟨forcing, b₄, hforcing, hrun⟩ := Attempt.run_bind_eq_ok.1 hrun
  cases forcing with
  | none => cases congrArg Prod.fst hrun
  | some forcing =>
    exact ⟨rate, b₁, z, b₂, g, b₃, forcing, b₄,
      { derived := Attempt.run_adapt_eq_ok.1 hrate
        free := by simpa using hfree
        zero := Attempt.run_lift_eq_ok.1 hz
        substitute := Attempt.run_lift_eq_ok.1 hg
        decompose := Attempt.run_lift_eq_ok.1 hforcing
        solution := Attempt.run_lift_eq_ok.1 hrun }⟩

section

variable {rate z g : ExprId} {b₁ b₂ b₃ b₄ : Arena Exact} {forcing : List ExpTerm}
  (h : Solved states dt known r a c b)
  (hfound : Found states dt known r a rate b₁ z b₂ g b₃ forcing b₄ c b)
include h hfound

/-- The arenas up to the forcing. -/
theorem Found.grows : (b₁.WellFormed ∧ a ≤ b₁ ∧ b₁.Uses (.all Exact) rate) ∧
    (b₂.WellFormed ∧ b₁ ≤ b₂ ∧ b₂.Literal z 0) ∧
    b₃.WellFormed ∧ b₂ ≤ b₃ ∧ b₃.Uses (.all Exact) g := by
  obtain ⟨hb₁, hab₁, hrate⟩ := (yields_derive (C := {r.rhs}) Vocabulary.closed_all r.state rfl).of_run
    hfound.derived h.start (by rintro _ rfl; exact h.rhs)
  obtain ⟨hb₂, hle₂, hz⟩ := (literal_num hb₁ Exact.zero_eq).of_run hfound.zero
  have hab₂ := le_trans hab₁ hle₂
  have huses : ∀ x ∈ {x | x = r.rhs ∨ x = z ∨ ∃ k ∈ known, k.2 = x}, b₂.Uses (.all Exact) x := by
    rintro x (rfl | rfl | ⟨k, hk, rfl⟩)
    · exact h.rhs.mono hab₂
    · exact Arena.Uses.all (V := .ofReals fun _ => True) hz.uses
    · exact (h.others k hk).2.mono hab₂
  have hyields := yields_substitute (C := {x | x = r.rhs ∨ x = z ∨ ∃ k ∈ known, k.2 = x})
    (σ := .ofList (known ++ [(r.state, z)])) Vocabulary.closed_all (fun s x hs => ?_) (.inl rfl)
    b₂ hb₂ huses
  · rw [hfound.substitute] at hyields
    exact ⟨⟨hb₁, hab₁, hrate _ rfl⟩, ⟨hb₂, hle₂, hz⟩, hyields.1, hyields.2.1, hyields.2.2 g rfl⟩
  · rcases List.mem_append.1 (mem_of_ofList hs) with hs | hs
    · exact .inr (.inr ⟨_, hs, rfl⟩)
    · obtain ⟨-, rfl⟩ : s = r.state ∧ x = z := by simpa using hs
      exact .inr (.inl rfl)

/-- The arenas from the forcing on. -/
theorem Found.grows_solution : b.WellFormed ∧ b₃ ≤ b := by
  obtain ⟨⟨hb₁, -, hrate⟩, ⟨hb₂, hle₂, -⟩, hb₃, hle₃, hg⟩ := hfound.grows h
  have hdecompose := ExpPolynomial.yields_decompose? (C := {g}) Vocabulary.closed_all dt rfl b₃ hb₃
    (by rintro _ rfl; exact hg)
  rw [hfound.decompose] at hdecompose
  obtain ⟨hb₄, hle₄, hparts⟩ := hdecompose
  have hyields : Yields (.all Exact) ({rate} ∪ ExpPolynomial.parts forcing)
      (Linear.solution r.state dt rate forcing) ({·}) :=
    yields_solution Vocabulary.closed_all trivial trivial (.inl rfl) Set.subset_union_right
  have hsolution := hyields b₄ hb₄ fun x hx => ?_
  · rw [hfound.solution] at hsolution
    exact ⟨hsolution.1, le_trans hle₄ hsolution.2.1⟩
  · rcases hx with rfl | hx
    · exact hrate.mono (le_trans hle₂ (le_trans hle₃ hle₄))
    · exact hparts x ⟨forcing, rfl, hx⟩

end

/-! ## Values along the trajectories -/

theorem Solved.state_ne (h : Solved states dt known r a c b) : r.state ≠ dt :=
  fun heq => h.duration (heq ▸ h.state)

theorem Solved.ofList_eq_none (h : Solved states dt known r a c b) {s : String}
    (hs : s ∉ states) : Substitution.ofList known s = none := by
  by_contra hne
  obtain ⟨e, he⟩ := Option.ne_none_iff_exists'.1 hne
  exact hs (h.others _ (mem_of_ofList he)).1

/-- Only states have other values along the trajectories. -/
theorem Solved.eq_of_follows (h : Solved states dt known r a c b) (hξ : Follows a known r.state ρ ξ)
    {s : String} (hs : s ∉ states) : ξ s = ρ s :=
  hξ.other s (h.ofList_eq_none hs) fun heq => hs (heq ▸ h.state)

/-- Replacing the state by `y` and the other states by their closed forms gives the value of the
right-hand side where the state has the value of `y`. -/
theorem Solved.leads_along (h : Solved states dt known r a c b) {d : Arena Exact} {y : ExprId}
    {u : ℝ} (hd : d.WellFormed) (had : a ≤ d) (hy : d.Uses (.all Exact) y)
    (hu : d.Denotes (fun s => some (real (ρ s))) y u) (hξ : Follows a known r.state ρ ξ)
    (hφ : a.Denotes (fun s => some (real (Function.update ξ r.state u s))) r.rhs φ) :
    Leads (substitute (.ofList (known ++ [(r.state, y)])) r.rhs) d fun b e' =>
      b.Uses (.all Exact) e' ∧ b.Denotes (fun s => some (real (ρ s))) e' φ := by
  have hagree := Arena.agreeBelow_of_le h.start had
  refine substitute_denotes hd (h.rhs.mono had) (hagree.denotes h.rhs.lt_size hφ)
    (fun s e hs => ?_) (fun s e hs => ?_) fun s hs => ?_
  · rw [ofList_append_singleton] at hs
    split at hs
    · cases hs
      exact hy
    · exact (h.others _ (mem_of_ofList hs)).2.mono had
  · rw [ofList_append_singleton] at hs
    split at hs
    · next heq =>
      cases hs
      subst heq
      rwa [Function.update_self]
    · next hne =>
      rw [Function.update_of_ne hne]
      exact hagree.denotes (h.others _ (mem_of_ofList hs)).2.lt_size (hξ.closed s e hs hne)
  · rw [ofList_append_singleton] at hs
    split at hs
    · cases hs
    · next hne =>
      rw [Function.update_of_ne hne]
      exact hξ.other s hs hne

/-- No divisor that occurs in the expression has the value zero. -/
def DivisorsNonzero (a : Arena Exact) (ρ : String → ℝ) (e : ExprId) : Prop :=
  ∀ z ∈ a.subterms e, ∀ x y, a.node z = .arith .div x y → ¬a.EvaluatesTo ρ y 0

theorem DivisorsNonzero.not_vanishes {s : String} {e : ExprId} (h : DivisorsNonzero a ρ e)
    (ha : a.WellFormed) : ¬a.Vanishes ρ s e := by
  intro hvanishes
  obtain ⟨z, hz, x, y, hnode, hy⟩ := hvanishes.exists_divisor ha
  exact h z hz x y hnode ((Arena.eval_eq_ok ha).2 hy.value)

/-- What has a value divides by nothing but numbers other than zero. -/
theorem divisorsNonzero_of_denotes {V : Vocabulary Exact} {e : ExprId} {u : ℝ} (ha : a.WellFormed)
    (he : a.Uses V e) (h : a.Denotes (fun s => some (real (ρ s))) e u) : DivisorsNonzero a ρ e := by
  intro z hz x y hnode hy
  have hparts : a.MadeOf (fun n => ∃ r, n.Denotes (fun s => some (real (ρ s)))
      (a.Denotes fun s => some (real (ρ s))) r) e := h.madeOf he fun n r _ hr => ⟨r, hr⟩
  obtain ⟨r, hr⟩ := (hparts.subterm hz).holds
  rw [hnode] at hr
  obtain ⟨q, q', -, hq', hr⟩ := hr
  obtain ⟨_, _, ⟨⟩, ⟨⟩, hne, -⟩ := Exact.div_eq_real.1 hr
  exact hne (Exact.real.inj (hq'.value.unique ((Arena.eval_eq_ok ha).1 hy)))

/-- Terms have values wherever the symbol is. -/
theorem totals_elsewhere {terms : List ExpTerm} {s : String} (h : ExpPolynomial.Totals a ρ s terms γ)
    (hξ : ∀ s' ≠ s, ξ s' = ρ s') : ∃ γ', ExpPolynomial.Totals a ξ s terms γ' := by
  induction h with
  | nil => exact ⟨0, .nil⟩
  | cons hκ hμ _ ih =>
    obtain ⟨γ', hγ'⟩ := ih
    exact ⟨_, .cons (hκ.elsewhere hξ) (hμ.elsewhere hξ) hγ'⟩

section

variable {rate z g : ExprId} {b₁ b₂ b₃ b₄ : Arena Exact} {forcing : List ExpTerm}
  (h : Solved states dt known r a c b)
  (hfound : Found states dt known r a rate b₁ z b₂ g b₃ forcing b₄ c b)
include h hfound

/-- The rate has a value where the right-hand side has one along the known trajectories. -/
theorem Found.exists_rate (hξ : Follows a known r.state ρ ξ)
    (hφ : a.Denotes (fun s => some (real (ξ s))) r.rhs φ) :
    b₁.Free r.state rate ∧ ∃ α, ExpPolynomial.Steady b₁ ρ dt rate α ∧
      b₁.Denotes (fun s => some (real (ξ s))) rate α := by
  have hreal : a.IsReal r.rhs := (hφ.uses h.rhs).isReal
  obtain ⟨hb₁, -, hrate, hα⟩ := (derive_denotes h.start hreal hφ).of_run hfound.derived
  have havoids := hrate.avoids hb₁ hfound.free
  have hstate : b₁.Free r.state rate := havoids.of_avoids (List.mem_cons_of_mem _ h.state)
  obtain ⟨α, hα⟩ := hα hstate
  refine ⟨hstate, α, ⟨havoids.of_avoids List.mem_cons_self, hα.congr havoids fun s u hs hu => ?_⟩, hα⟩
  have hother : s ∉ states := fun hmem => hs (List.mem_cons_of_mem _ hmem)
  rwa [← h.eq_of_follows hξ hother]

/-- If the right-hand side is a polynomial in the state, its value along the known trajectories is
the rate times the state, plus the forcing. -/
theorem Found.exists_affine (hξ : Follows a known r.state ρ ξ)
    (hφ : a.Denotes (fun s => some (real (ξ s))) r.rhs φ)
    (hpolynomial : a.PolynomialIn r.state r.rhs) : ∃ α γ, ExpPolynomial.Steady b₁ ρ dt rate α ∧
      b₃.Denotes (fun s => some (real (ρ s))) g γ ∧ ∀ ζ,
        a.Varies r.state (Function.update ξ r.state ζ) r.rhs (α * ζ + γ) α := by
  obtain ⟨⟨-, hab₁, -⟩, ⟨hb₂, hle₂, hz⟩, -⟩ := hfound.grows h
  obtain ⟨hfree, α, hrate, hα⟩ := hfound.exists_rate h hξ hφ
  obtain ⟨p, hp⟩ := hpolynomial.exists_polynomial hφ
  have hconstant (ζ : ℝ) : p.derivative.eval ζ = α := by
    obtain ⟨-, -, -, hslope⟩ := (derive_rate h.start (hp ζ)).of_run hfound.derived
    refine hslope.unique (hα.of_free hfree fun s hs => ?_)
    rw [Function.update_of_ne hs]
  have hlinear := eval_of_derivative_eval hconstant
  -- the forcing is the value of the polynomial at zero
  obtain ⟨-, -, -, hγ⟩ := (h.leads_along hb₂ (le_trans hab₁ hle₂)
    (Arena.Uses.all (V := .ofReals fun _ => True) hz.uses) hz.denotes hξ (hp 0).denotes).of_run
    hfound.substitute
  exact ⟨α, p.eval 0, hrate, hγ, fun ζ => (hp ζ).congr (hlinear ζ).symm (hconstant ζ).symm⟩

/-- Where the forcing has a value, the closed form starts at the state and solves the equation,
unless the rate has the value of a rate of the forcing. -/
theorem Found.solves (hrate : ExpPolynomial.Steady b₁ ρ dt rate α)
    (hγ : b₃.Denotes (fun s => some (real (ρ s))) g γ) :
    Solves b ρ dt (∃ term ∈ forcing, ExpPolynomial.Steady b₄ ρ dt term.rate α) α γ (ρ r.state) c ∧
      ∃ R γ₀, Solves b (Function.update ρ dt 0) dt R α γ₀ (ρ r.state) c := by
  obtain ⟨⟨hb₁, -, -⟩, ⟨-, hle₂, -⟩, hb₃, hle₃, hg⟩ := hfound.grows h
  obtain ⟨hb₄, hle₄, hterms⟩ :=
    (ExpPolynomial.leads_decompose? hb₃ (hγ.uses hg).isReal hγ).of_run hfound.decompose
  have hterms := hterms forcing rfl
  have hrate := hrate.mono hb₁ (le_trans hle₂ (le_trans hle₃ hle₄))
  obtain ⟨-, -, hsolves⟩ := (solves_solution h.state_ne hb₄ hrate hterms).of_run hfound.solution
  refine ⟨hsolves, ?_⟩
  -- the same run, where the duration is zero
  have helsewhere : ∀ s ≠ dt, Function.update ρ dt 0 s = ρ s := fun s hs => by simp [hs]
  obtain ⟨γ₀, hterms₀⟩ := totals_elsewhere hterms helsewhere
  obtain ⟨-, -, hsolves₀⟩ :=
    (solves_solution h.state_ne hb₄ (hrate.elsewhere helsewhere) hterms₀).of_run hfound.solution
  rw [helsewhere _ h.state_ne] at hsolves₀
  exact ⟨_, γ₀, hsolves₀⟩

end

/-- With a forcing that does not vary, the closed form has a value wherever the rate is not zero. -/
theorem Solved.divisorsNonzero (h : Solved states dt [] r a c b) (hrhs : a.Free dt r.rhs)
    (hpolynomial : a.PolynomialIn r.state r.rhs)
    (hα : a.Varies r.state ρ r.rhs φ α) (hne : α ≠ 0) : DivisorsNonzero b ρ c := by
  obtain ⟨rate, b₁, z, b₂, g, b₃, forcing, b₄, hfound⟩ := h.exists_found
  obtain ⟨⟨-, hab₁, -⟩, ⟨hb₂, hle₂, hz⟩, hb₃, hle₃, hg⟩ := hfound.grows h
  obtain ⟨hb, -⟩ := hfound.grows_solution h
  have hξ : Follows a [] r.state ρ ρ := ⟨fun s e hs => (by cases hs), fun _ _ _ => rfl⟩
  obtain ⟨α', γ, hrate, hγ, hlinear⟩ := hfound.exists_affine h hξ hα.denotes hpolynomial
  obtain rfl : α = α' := hα.rate_unique (by simpa using hlinear (ρ r.state))
  -- all rates of the forcing are zero
  obtain ⟨-, -, hfree⟩ := (leads_forcing hb₂ (hrhs.mono (le_trans hab₁ hle₂)) hz).of_run
    hfound.substitute
  obtain ⟨-, -, terms, hterms, hzero⟩ := (ExpPolynomial.decompose?_free hb₃ hfree).of_run
    hfound.decompose
  cases hterms
  obtain ⟨⟨hR, -⟩ | ⟨u, hu, -⟩, -⟩ := hfound.solves h hrate hγ
  · obtain ⟨term, hterm, hresonant⟩ := hR
    exact absurd (hresonant.denotes.unique (hzero term hterm).denotes) hne
  · exact divisorsNonzero_of_denotes hb hu.isReal hu.denotes

/-- The values of what solves an equation and of its derivative. -/
theorem Solves.evaluates {R R₀ : Prop} {u₀ γ₀ : ℝ} (hc : Solves b ρ dt R α γ u₀ c)
    (hc₀ : Solves b (Function.update ρ dt 0) dt R₀ α γ₀ u₀ c) (hb : b.WellFormed)
    (hdivisors : DivisorsNonzero b ρ c) :
    Leads (do let z ← zero; substitute (.ofList [(dt, z)]) c) b
        (fun d e => d.EvaluatesTo ρ e u₀) ∧
      ∃ u, b.IsReal c ∧ b.Denotes (fun s => some (real (ρ s))) c u ∧
        (derive dt c).Leads b fun d e => d.EvaluatesTo ρ e (α * u + γ) := by
  have hne : ¬b.Vanishes ρ dt c := hdivisors.not_vanishes hb
  constructor
  · -- at the start no other divisors vanish
    have hne₀ : ¬b.Vanishes (Function.update ρ dt 0) dt c := fun h =>
      hne (h.elsewhere fun s hs => by simp [hs])
    obtain ⟨u, hu, hstart⟩ := hc₀.resolve_left fun h => hne₀ h.2
    obtain rfl := hstart (by simp)
    refine .bind (literal_num hb Exact.zero_eq) fun z d hd hbd hz => ?_
    have hu := hu.mono hb hbd
    have hsubstituted := substitute_denotes hd hu.isReal.all hu.denotes (ρ := ρ)
      (σ := .ofList [(dt, z)]) (fun s y hs => ?_) (fun s y hs => ?_) fun s hs => ?_
    · exact ⟨hsubstituted.wellFormed, hsubstituted.le,
        (Arena.eval_eq_ok hsubstituted.wellFormed).2 hsubstituted.holds.2.value⟩
    · obtain ⟨rfl, rfl⟩ : s = dt ∧ y = z := by simpa using mem_of_ofList hs
      exact Arena.Uses.all hz.uses (V := .ofReals fun _ => True)
    · obtain ⟨rfl, rfl⟩ : s = dt ∧ y = z := by simpa using mem_of_ofList hs
      rw [Function.update_self]
      exact hz.denotes
    · have hne : s ≠ dt := by
        rintro rfl
        exact not_mem_of_ofList hs z List.mem_cons_self
      rw [Function.update_of_ne hne]
  · obtain ⟨u, hu, -⟩ := hc.resolve_left fun h => hne h.2
    exact ⟨u, hu.isReal, hu.denotes, (derive_rate hb hu).imp fun d e hd he =>
      (Arena.eval_eq_ok hd).2 he.2.value⟩

/-- The closed form of a linear equation solves it: where the right-hand side has a value along the
known trajectories and no divisor of the closed form vanishes, replacing the duration by zero gives
the value of the state, and the derivative by the duration has the value `rate * c + g`. If the
right-hand side is a polynomial in the state, then `g` has a value, and the derivative has the value
of the right-hand side along all trajectories. -/
theorem closedForm_solves (h : Solved states dt known r a c b) :
    (split known r).Leads a fun b' p => b' ≤ b ∧ ∀ (ρ ξ : String → ℝ) (φ : ℝ),
      Follows a known r.state ρ ξ → a.Denotes (fun s => some (real (ξ s))) r.rhs φ →
      DivisorsNonzero b ρ c →
      (∀ γ, b.Denotes (fun s => some (real (ρ s))) p.2 γ →
        Leads (do let z ← zero; substitute (.ofList [(dt, z)]) c) b
          (fun d e => d.EvaluatesTo ρ e (ρ r.state)) ∧
        ∃ α χ, b.EvaluatesTo ρ p.1 α ∧ b.EvaluatesTo ρ c χ ∧
          (derive dt c).Leads b fun d e => d.EvaluatesTo ρ e (α * χ + γ)) ∧
      (a.PolynomialIn r.state r.rhs → (∃ γ, b.Denotes (fun s => some (real (ρ s))) p.2 γ) ∧
        ∃ v, (derive dt c).Leads b (fun d e => d.EvaluatesTo ρ e v) ∧
          Leads (substitute (.ofList (known ++ [(r.state, c)])) r.rhs) b
            fun d e => d.EvaluatesTo ρ e v) := by
  obtain ⟨rate, b₁, z, b₂, g, b₃, forcing, b₄, hfound⟩ := h.exists_found
  obtain ⟨⟨hb₁, hab₁, -⟩, ⟨hb₂, hle₂, hz⟩, hb₃, hle₃, hg⟩ := hfound.grows h
  obtain ⟨hb, hle⟩ := hfound.grows_solution h
  have hsplit : (split known r).run.run a = (.ok (rate, g), b₃) :=
    Attempt.run_bind_eq_ok.2 ⟨rate, b₁, hfound.derived, Attempt.run_bind_eq_ok.2 ⟨z, b₂,
      Attempt.run_lift_eq_ok.2 hfound.zero, Attempt.run_bind_eq_ok.2 ⟨g, b₃,
        Attempt.run_lift_eq_ok.2 hfound.substitute, rfl⟩⟩⟩
  have hab : a ≤ b := le_trans hab₁ (le_trans hle₂ (le_trans hle₃ hle))
  refine ⟨(rate, g), b₃, hsplit, hb₃, le_trans hab₁ (le_trans hle₂ hle₃), hle, ?_⟩
  intro ρ ξ φ hξ hφ hdivisors
  have hsolves {α γ : ℝ} (hrate : ExpPolynomial.Steady b₁ ρ dt rate α)
      (hγ : b₃.Denotes (fun s => some (real (ρ s))) g γ) :
      Leads (do let z ← zero; substitute (.ofList [(dt, z)]) c) b
          (fun d e => d.EvaluatesTo ρ e (ρ r.state)) ∧
        ∃ χ, b.IsReal c ∧ b.Denotes (fun s => some (real (ρ s))) c χ ∧
          (derive dt c).Leads b fun d e => d.EvaluatesTo ρ e (α * χ + γ) := by
    obtain ⟨hc, R, γ₀, hc₀⟩ := hfound.solves h hrate hγ
    exact hc.evaluates hc₀ hb hdivisors
  refine ⟨fun γ hγ => ?_, fun hpolynomial => ?_⟩
  · obtain ⟨-, α, hrate, -⟩ := hfound.exists_rate h hξ hφ
    obtain ⟨hstart, χ, -, hχ, hderivative⟩ :=
      hsolves hrate ((Arena.agreeBelow_of_le hb₃ hle).symm.denotes hg.lt_size hγ)
    have hrate := hrate.mono hb₁ (le_trans hle₂ (le_trans hle₃ hle))
    exact ⟨hstart, α, χ, (Arena.eval_eq_ok hb).2 hrate.denotes.value,
      (Arena.eval_eq_ok hb).2 hχ.value, hderivative⟩
  · obtain ⟨α, γ, hrate, hγ, hlinear⟩ := hfound.exists_affine h hξ hφ hpolynomial
    obtain ⟨-, χ, hc, hχ, hderivative⟩ := hsolves hrate hγ
    refine ⟨⟨γ, (Arena.agreeBelow_of_le hb₃ hle).denotes hg.lt_size hγ⟩, _, hderivative, ?_⟩
    have halong := h.leads_along hb hab (Arena.Uses.all (V := .ofReals fun _ => True) hc) hχ hξ
      (hlinear χ).denotes
    exact ⟨halong.wellFormed, halong.le, (Arena.eval_eq_ok halong.wellFormed).2 halong.holds.2.value⟩

/-- The equation `dx/dt = k * x + 1`, where all symbols are one. -/
theorem growthEquation_solved : ∃ (a b : Arena Exact) (e c : ExprId),
    Solved ["x"] "Dt" [] ⟨"x", e⟩ a c b ∧ Follows a [] "x" (fun _ => 1) (fun _ => 1) ∧
    a.Denotes (fun _ => some (real 1)) e 2 ∧ DivisorsNonzero b (fun _ => 1) c ∧
    a.PolynomialIn "x" e ∧ ∃ v, (derive "Dt" c).Leads b (fun d e => d.EvaluatesTo (fun _ => 1) e v) ∧
      Leads (substitute (.ofList ([] ++ [("x", c)])) e) b
        fun d e => d.EvaluatesTo (fun _ => 1) e v := by
  obtain ⟨ha, -, haffine, huses, hvaries⟩ := leads_growthEquation
  generalize (growthEquation.run {}).1 = e at haffine huses hvaries
  generalize (growthEquation.run {}).2 = a at ha haffine huses hvaries
  have hvaries : a.Varies "x" (fun _ => 1) e 2 1 := (hvaries fun _ => 1).congr (by norm_num) rfl
  have hφ : a.Denotes (fun _ => some (real 1)) e 2 := hvaries.denotes
  have hstates : a.Uses (.ofReals fun s => s ∈ ["Dt", "x"] → s = "x") e :=
    huses.weaken fun s hs => by rcases hs with rfl | rfl <;> simp
  have hfree : a.Free "Dt" e := huses.weaken fun s hs => by rcases hs with rfl | rfl <;> decide
  have hleads : (closedForm ["x"] "Dt" [] ⟨"x", e⟩).Leads a fun _ _ => True :=
    leads_closedForm ha haffine hstates (show "x" ≠ "Dt" by decide) hφ
  obtain ⟨c, b, hrun, -⟩ := hleads
  have h : Solved ["x"] "Dt" [] ⟨"x", e⟩ a c b :=
    { start := ha
      rhs := huses.all
      state := List.mem_cons_self
      duration := by decide
      others := fun k hk => absurd hk List.not_mem_nil
      run := hrun }
  have hξ : Follows a [] "x" (fun _ => 1) (fun _ => 1) :=
    ⟨fun s e hs => (by cases hs), fun _ _ _ => rfl⟩
  have hdivisors : DivisorsNonzero b (fun _ => 1) c :=
    h.divisorsNonzero hfree haffine.polynomialIn hvaries one_ne_zero
  obtain ⟨p, b', -, -, -, -, hsolves⟩ := closedForm_solves h
  exact ⟨a, b, e, c, h, hξ, hφ, hdivisors, haffine.polynomialIn,
    ((hsolves _ _ 2 hξ hφ hdivisors).2 haffine.polynomialIn).2⟩

end

end Linear

end HybridPlan
