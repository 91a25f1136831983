import HybridPlan.Proofs.Dynamics.ClosedForm
import HybridPlan.Proofs.Dynamics.Decomposition

set_option autoImplicit false

/-! # Affine equations

An expression is affine in a symbol if the symbol is multiplied only by what is free of it. The
constructors fold the derivative of such an expression so far that it is free of the symbol. So an
equation that is affine in its state, and otherwise free of the duration and of all states, always has
a closed form. -/

namespace HybridPlan

open Build
open Exact (real)

namespace Arena

/-- The expression is affine in the symbol. -/
inductive AffineIn (a : Arena Exact) (x : String) : ExprId → Prop
  | still {e : ExprId} (he : a.Free x e) : AffineIn a x e
  | sym {e : ExprId} (he : a.table.items[e]? = some (.sym x)) : AffineIn a x e
  | neg {e y : ExprId} (he : a.table.items[e]? = some (.neg y)) (hy : AffineIn a x y) :
      AffineIn a x e
  | add {e y z : ExprId} (he : a.table.items[e]? = some (.arith .add y z)) (hy : AffineIn a x y)
      (hz : AffineIn a x z) : AffineIn a x e
  | sub {e y z : ExprId} (he : a.table.items[e]? = some (.arith .sub y z)) (hy : AffineIn a x y)
      (hz : AffineIn a x z) : AffineIn a x e
  | mul {e y z : ExprId} (he : a.table.items[e]? = some (.arith .mul y z)) (hy : a.Free x y)
      (hz : AffineIn a x z) : AffineIn a x e

theorem AffineIn.isReal {a : Arena Exact} {x : String} {e : ExprId} (h : a.AffineIn x e) :
    a.IsReal e := by
  induction h with
  | still he => exact he.isReal
  | sym he => exact .node he trivial fun y hy => absurd hy List.not_mem_nil
  | neg he _ ih => exact .node he trivial (by simpa [Node.operands] using ih)
  | add he _ _ ihy ihz | sub he _ _ ihy ihz =>
    exact .node he trivial (by simp [Node.operands, ihy, ihz])
  | mul he hy _ ih => exact .node he trivial (by simp [Node.operands, hy.isReal, ih])

section

variable {a : Arena Exact} {x : String} {e y z : ExprId}

/-- What an affine expression is where the symbol occurs in it. -/
theorem AffineIn.of_neg (h : a.AffineIn x e) (hmoves : ¬a.Free x e) (hn : a.node e = .neg y) :
    a.AffineIn x y := by
  cases h with
  | still he => exact absurd he hmoves
  | neg he hy =>
    cases (Arena.node_eq_of_getElem? he).symm.trans hn
    exact hy
  | sym he | add he | sub he | mul he => cases (Arena.node_eq_of_getElem? he).symm.trans hn

theorem AffineIn.of_arith {op : ArithOp} (h : a.AffineIn x e) (hmoves : ¬a.Free x e)
    (hn : a.node e = .arith op y z) : (op = .add ∨ op = .sub) ∧ a.AffineIn x y ∧ a.AffineIn x z ∨
      op = .mul ∧ a.Free x y ∧ a.AffineIn x z := by
  cases h with
  | still he => exact absurd he hmoves
  | add he hy hz =>
    cases (Arena.node_eq_of_getElem? he).symm.trans hn
    exact .inl ⟨.inl rfl, hy, hz⟩
  | sub he hy hz =>
    cases (Arena.node_eq_of_getElem? he).symm.trans hn
    exact .inl ⟨.inr rfl, hy, hz⟩
  | mul he hy hz =>
    cases (Arena.node_eq_of_getElem? he).symm.trans hn
    exact .inr ⟨rfl, hy, hz⟩
  | sym he | neg he => cases (Arena.node_eq_of_getElem? he).symm.trans hn

theorem AffineIn.not_call {f : Elementary} (h : a.AffineIn x e) (hmoves : ¬a.Free x e) :
    a.node e ≠ .call (.elementary f) [y] := by
  intro hn
  cases h with
  | still he => exact hmoves he
  | sym he | neg he | add he | sub he | mul he =>
    cases (Arena.node_eq_of_getElem? he).symm.trans hn

end

end Arena

namespace Build

section

variable {a b : Arena Exact} {x : String} {e y z d dy dz : ExprId}

/-- The expression `d` of the arena `b` is the derivative of `e` in the arena `a`, and free of the
symbol if `e` is affine. -/
structure AffineDifferential (x : String) (a b : Arena Exact) (e d : ExprId) : Prop
    extends Differential x a b e d where
  affine : a.AffineIn x e → b.Free x d

/-- It suffices to look at what the symbol occurs in. -/
theorem Differential.affine (h : Differential x a b e d)
    (haffine : ¬a.Free x e → a.AffineIn x e → b.Free x d) : AffineDifferential x a b e d := by
  refine ⟨h, fun he => ?_⟩
  by_cases hstill : a.Free x e
  · exact (h.free hstill).uses
  · exact haffine hstill he

/-- The derivative of a coefficient is folded away. -/
theorem free_deriveProduct (hb : b.WellFormed) (hdy : b.Literal dy 0) (hy : b.Free x y)
    (hz : b.IsReal z) (hdz : b.Free x dz) :
    Leads (deriveArith .mul e y z dy dz) b fun c d => c.Free x d := by
  refine .bind (literal_zero_mul hb hdy fun _ => hz.exists_real) fun l c hc hbc hl => ?_
  refine .bind (uses_arith .mul hc (hy.mono hbc) (hdz.mono hbc)) fun r d hd hcd hr => ?_
  exact uses_arith .add hd (hl.mono hcd).uses hr

/-- The rules of differentiation free affine expressions of the symbol. -/
theorem differentiates_affine (x : String) (ha : a.WellFormed) :
    Differentiates x a (AffineDifferential x a) where
  mono hb hbc h :=
    ⟨(differentiates_differential x ha).mono hb hbc ⟨h.uses, h.related.toDifferential⟩,
      fun he => (h.related.affine he).mono hbc⟩
  num hn hb hle huses :=
    ((differentiates_differential x ha).num hn hb hle huses).affine fun _ _ =>
      (literal_num hb Exact.zero_eq).holds.uses
  sym hn hb hle huses := by
    refine ((differentiates_differential x ha).sym hn hb hle huses).affine fun _ _ => ?_
    split
    · exact (literal_num hb Exact.one_eq).holds.uses
    · exact (literal_num hb Exact.zero_eq).holds.uses
  neg hn hb hy hle huses :=
    ((differentiates_differential x ha).neg hn hb ⟨hy.uses, hy.related.toDifferential⟩ hle
      huses).affine fun hmoves he =>
        (uses_neg hb (hy.related.affine (he.of_neg hmoves hn))).holds
  arith {b op e y z dy dz} hn huses₀ hb hab hy hz hle huses := by
    refine ((differentiates_differential x ha).arith hn huses₀ hb hab
      ⟨hy.uses, hy.related.toDifferential⟩ ⟨hz.uses, hz.related.toDifferential⟩ hle huses).affine
      fun hmoves he => ?_
    obtain ⟨rfl | rfl, haffine, haffine'⟩ | ⟨rfl, hfree, haffine⟩ := he.of_arith hmoves hn
    · exact (uses_arith .add hb (hy.related.affine haffine) (hz.related.affine haffine')).holds
    · exact (uses_arith .sub hb (hy.related.affine haffine) (hz.related.affine haffine')).holds
    · exact (free_deriveProduct hb (hy.related.free hfree) (hfree.mono hab)
        (haffine.isReal.mono hab) (hz.related.affine haffine)).holds
  call hn huses₀ hb hab hy hle huses :=
    ((differentiates_differential x ha).call hn huses₀ hb hab
      ⟨hy.uses, hy.related.toDifferential⟩ hle huses).affine fun hmoves he =>
        absurd hn (he.not_call hmoves)

/-- The derivative of an affine expression is free of the symbol. -/
theorem derive_affine {v : Valuation Exact} {r : ℝ} (ha : a.WellFormed) (he : a.AffineIn x e)
    (hr : a.Denotes v e r) : (derive x e).Leads a fun b d => b.Free x d := by
  obtain ⟨d, b, hrun, hb, hab, hstands⟩ :=
    (differentiates_affine x ha).derive ha (hr.differentiable he.isReal)
  exact ⟨d, b, hrun, hb, hab, hstands.related.affine he⟩

end

end Build

/-! ## Closed forms -/

namespace ExpPolynomial

/-- What is free of the variable is a term without a rate, unless it is zero. -/
theorem decompose?_free {a : Arena Exact} {t : String} {e : ExprId}
    (ha : a.WellFormed) (he : a.Free t e) : Build.Leads (decompose? t e) a fun b o =>
      ∃ terms, o = some terms ∧ ∀ term ∈ terms, b.Literal term.rate 0 := by
  change Build.Leads (decomposeBelow t (2 * e + 1 + 1) e).run a _
  unfold decomposeBelow decomposeStep
  refine leads_run_lift (literal_num ha Exact.zero_eq) fun z b hb hab hz => leads_run_look ?_
  have hdepends : b.dependsOn e t = false :=
    Arena.Uses.dependsOn_eq_false (he.mono hab) fun h => h rfl
  rw [if_pos (by simp [hdepends])]
  refine Build.Leads.pure hb ⟨_, rfl, fun term hterm => ?_⟩
  split at hterm
  · exact absurd hterm List.not_mem_nil
  · rw [List.mem_singleton.1 hterm]
    exact hz

end ExpPolynomial

namespace Linear

section

variable {a : Arena Exact} {states : List String} {dt : String} {r : Rate} {v : Valuation Exact}
  {φ : ℝ}

/-- Replacing the state by zero keeps an equation free of the duration. -/
theorem leads_forcing {x : String} {z e : ExprId} (ha : a.WellFormed) (he : a.Free dt e)
    (hz : a.Literal z 0) :
    Leads (substitute (.ofList ([] ++ [(x, z)])) e) a fun b g => b.Free dt g := by
  refine Yields.leads (C := {e, z}) (yields_substitute (Vocabulary.closed_ofReals _)
    (fun s y hs => ?_) (.inl rfl)) ha ?_
  · obtain ⟨-, rfl⟩ : s = x ∧ y = z := by simpa using mem_of_ofList hs
    exact .inr rfl
  · rintro _ (rfl | rfl)
    · exact he
    · exact hz.uses

/-- An equation that is affine in its state and otherwise free of the duration and of all states has
a closed form. -/
theorem leads_closedForm (ha : a.WellFormed) (haffine : a.AffineIn r.state r.rhs)
    (hfree : a.Uses (.ofReals fun s => s ∈ dt :: states → s = r.state) r.rhs)
    (hstate : r.state ≠ dt) (hφ : a.Denotes v r.rhs φ) :
    (closedForm states dt [] r).Leads a fun _ _ => True := by
  obtain ⟨rate, b, hrun, hb, hab, hrate⟩ := derive_affine ha haffine hφ
  have hyields : Attempt.Yields (α := Exact) (.ofReals fun s => s ∈ dt :: states → s = r.state) {r.rhs}
      (derive r.state r.rhs) ({·}) := yields_derive (Vocabulary.closed_ofReals _) r.state rfl
  obtain ⟨-, -, hsymbols⟩ := hyields.of_run hrun ha (by rintro _ rfl; exact hfree)
  have havoids : ∀ s ∈ dt :: states, b.dependsOn rate s = false := by
    intro s hs
    by_cases heq : s = r.state
    · exact hrate.dependsOn_eq_false fun h => h heq
    · exact (hsymbols rate rfl).dependsOn_eq_false fun h => heq (h hs)
  have hderived : (derive r.state r.rhs).Leads a fun c e => c = b ∧ e = rate :=
    ⟨rate, b, hrun, hb, hab, rfl, rfl⟩
  refine .bind hderived.adapt fun e c hc hac ⟨hcb, he⟩ => .look ?_
  subst hcb he
  rw [if_neg (by simpa using havoids)]
  refine .bind (.lift (literal_num hc Exact.zero_eq)) fun z d hd hcd hz => ?_
  have hrhs : a.Free dt r.rhs := hfree.weaken fun s hs heq => by
    subst heq
    exact hstate (hs List.mem_cons_self).symm
  refine .bind (.lift (leads_forcing hd (hrhs.mono (le_trans hac hcd)) hz)) fun g b₁ hb₁ hdb₁ hg => ?_
  have hyields : Leads (ExpPolynomial.decompose? dt g) b₁ fun b o =>
      ∀ terms, o = some terms → ∀ x ∈ ExpPolynomial.parts terms, b.Uses (.all Exact) x := by
    obtain ⟨hb₂, hle₂, hparts⟩ := ExpPolynomial.yields_decompose? (C := {g}) Vocabulary.closed_all dt
      rfl b₁ hb₁ (by rintro _ rfl; exact hg.all)
    exact ⟨hb₂, hle₂, fun terms hterms x hx => hparts x ⟨terms, hterms, hx⟩⟩
  refine .bind (.lift ((ExpPolynomial.decompose?_free hb₁ hg).and hyields))
    fun o b₂ hb₂ hle₂ ⟨⟨forcing, ho, _⟩, hparts⟩ => ?_
  subst ho
  have hyields : Yields (.all Exact) ({e} ∪ ExpPolynomial.parts forcing)
      (solution r.state dt e forcing) ({·}) :=
    yields_solution Vocabulary.closed_all trivial trivial (.inl rfl) Set.subset_union_right
  have hsolution := hyields b₂ hb₂ fun y hy => ?_
  · exact .lift ⟨hsolution.1, hsolution.2.1, trivial⟩
  · rcases hy with rfl | hy
    · exact Arena.Uses.all (hrate.mono (le_trans hcd (le_trans hdb₁ hle₂)))
    · exact hparts forcing rfl y hy

/-- The equation `dx/dt = k * x + 1`. -/
noncomputable def growthEquation : Build Exact ExprId := do
  let k ← intern (.sym "k")
  let x ← intern (.sym "x")
  let product ← intern (.arith .mul k x)
  let one ← intern (.num (real 1))
  intern (.arith .add product one)

theorem leads_growthEquation : Leads growthEquation {} fun a e =>
    a.AffineIn "x" e ∧ a.Uses (.ofReals fun s => s = "k" ∨ s = "x") e ∧
      ∀ ρ : String → ℝ, a.Varies "x" ρ e (ρ "k" * ρ "x" + 1) (ρ "k") := by
  refine .bind (.intern Arena.wellFormed_empty (by simp [Node.operands]) fun _ _ _ h => h)
    fun k a ha _ hk => ?_
  refine .bind (.intern ha (by simp [Node.operands]) fun _ _ _ h => h) fun x b hb hab hx => ?_
  refine .bind (.intern hb ?_ fun _ _ _ h => h) fun product c hc hbc hproduct => ?_
  · simp [Node.operands, Arena.lt_size_of_getElem? (hab hk), Arena.lt_size_of_getElem? hx]
  refine .bind (.intern hc (by simp [Node.operands]) fun _ _ _ h => h) fun one d hd hcd hone => ?_
  refine .intern hd ?_ fun b' e hdb' he => ?_
  · simp [Node.operands, Arena.lt_size_of_getElem? (hcd hproduct), Arena.lt_size_of_getElem? hone]
  have hk := hdb' (hcd (hbc (hab hk)))
  have hx := hdb' (hcd (hbc hx))
  have hproduct := hdb' (hcd hproduct)
  have hone : b'.Literal one 1 := hdb' hone
  have hkfree : b'.Free "x" k := .node hk (by simp [Vocabulary.Allows, Vocabulary.ofReals])
    fun _ h => absurd h List.not_mem_nil
  refine ⟨?_, ?_, fun ρ => ?_⟩
  · exact .add he (.mul hproduct hkfree (.sym hx)) (.still hone.uses)
  · refine .node he trivial ?_
    have hsym {s : String} {y : ExprId} (hy : b'.table.items[y]? = some (.sym s))
        (hs : s = "k" ∨ s = "x") : b'.Uses (.ofReals fun s => s = "k" ∨ s = "x") y :=
      .node hy hs fun _ h => absurd h List.not_mem_nil
    have hm : b'.Uses (.ofReals fun s => s = "k" ∨ s = "x") product :=
      .node hproduct trivial
        (by simp [Node.operands, hsym hk (.inl rfl), hsym hx (.inr rfl)])
    have hu : b'.Uses (.ofReals fun s => s = "k" ∨ s = "x") one := hone.uses
    simp [Node.operands, hm, hu]
  · have hkvaries : b'.Varies "x" ρ k (ρ "k") 0 :=
      .still hkfree (.sym (Arena.node_eq_of_getElem? hk) rfl)
    exact (Arena.Varies.add he (.mul hproduct hkvaries (.sym hx)) hone.varies).congr rfl (by ring)

end

end Linear

end HybridPlan
