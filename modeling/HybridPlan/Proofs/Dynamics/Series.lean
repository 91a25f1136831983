import HybridPlan.Proofs.Dynamics.Taylor
import HybridPlan.Proofs.Expr.Differential
import HybridPlan.Proofs.Expr.Residual

set_option autoImplicit false

/-! # Series solve their equations

In a system whose right-hand sides stand for polynomials, the derivatives that a series is made of
stand for derivatives along the flow of the system, and what is summed up for the Taylor polynomial.
A series is returned only where it ends, so the closed forms of all states start at the states and
change at the rates that the equations give. -/

namespace HybridPlan

open Build
open Exact (real)
open MvPolynomial (X C pderiv bind₁)
open scoped Nat

/-! ## Replacements -/

section

variable {a : Arena Exact} {e z : ExprId} {p : Poly} {dt : String}

theorem represented_atStart (ha : a.WellFormed) (hz : a.Literal z 0) (he : a.Represents e p) :
    Represented (substitute (.ofList [(dt, z)]) e) a (atStart dt p) := by
  refine represented_substitute (fun s x hs => ?_) (fun s hs => ?_) ha he
  · obtain ⟨rfl, rfl⟩ : s = dt ∧ x = z := by simpa using mem_of_ofList hs
    rw [if_pos rfl, ← map_zero C]
    exact .num hz
  · rw [if_neg]
    rintro rfl
    exact not_mem_of_ofList hs z List.mem_cons_self

theorem represented_along {pairs : List (String × ExprId)} {c : String → Poly} (ha : a.WellFormed)
    (hpairs : ∀ y ∈ pairs, a.Represents y.2 (c y.1)) (he : a.Represents e p) :
    Represented (substitute (.ofList pairs) e) a (along (pairs.map (·.1)) c p) := by
  refine represented_substitute (fun s x hs => ?_) (fun s hs => ?_) ha he
  · have hx := mem_of_ofList hs
    rw [if_pos (List.mem_map.2 ⟨_, hx, rfl⟩)]
    exact hpairs _ hx
  · rw [if_neg]
    intro h
    obtain ⟨y, hy, rfl⟩ := List.mem_map.1 h
    exact not_mem_of_ofList hs y.2 hy

/-- The expression evaluates to a real number where all symbols have real values. -/
def Arena.EvaluatesTo (a : Arena Exact) (ρ : String → ℝ) (e : ExprId) (r : ℝ) : Prop :=
  a.eval (fun s => some (real (ρ s))) e = .ok (real r)

theorem Arena.Represents.evaluatesTo (ha : a.WellFormed) (h : a.Represents e p) (ρ : String → ℝ) :
    a.EvaluatesTo ρ e (MvPolynomial.eval ρ p) :=
  (Arena.eval_eq_ok ha).2 (h.denotes ρ).value

/-- What makes an expression that stands for a polynomial, makes one that evaluates to its
values. -/
theorem Represented.evaluates {m : Build Exact ExprId} (h : Represented m a p) (ρ : String → ℝ) :
    Leads m a fun b e => b.EvaluatesTo ρ e (MvPolynomial.eval ρ p) :=
  ⟨h.wellFormed, h.le, h.holds.evaluatesTo h.wellFormed ρ⟩

end

namespace Series

variable {a b : Arena Exact} {system : List Rate} {dt : String} {f : Rate → Poly}
  {g sum term duration zeroExpr : ExprId} {p q : Poly} {cs : List ExprId}

/-! ## Derivatives along the flow -/

/-- The change of `g` by the change of one state is added. -/
noncomputable def addChange (g sum : ExprId) (r : Rate) : Attempt Exact DerivativeError ExprId := do
  let dx ← derive r.state g
  let term ← (mul dx r.rhs : Build Exact ExprId)
  (add sum term : Build Exact ExprId)

theorem leads_addChange {r : Rate} (hr : a.Represents r.rhs (f r)) (ha : a.WellFormed)
    (hg : a.Represents g p) (hsum : a.Represents sum q) :
    (addChange g sum r).Leads a fun b e => b.Represents e (q + f r * pderiv r.state p) := by
  refine .bind (leads_derive r.state ha hg) fun dx b hb hab hdx => ?_
  refine .bind (.lift (represented_mul hb hdx (hr.mono hab))) fun term c hc hbc hterm => ?_
  rw [mul_comm]
  exact .lift (represented_add hc (hsum.mono (le_trans hab hbc)) hterm)

theorem leads_addChanges (hf : ∀ r ∈ system, a.Represents r.rhs (f r)) (ha : a.WellFormed)
    (hg : a.Represents g p) (hsum : a.Represents sum q) :
    (system.foldlM (addChange g) sum).Leads a
      fun b e => b.Represents e (q + (system.map fun r => f r * pderiv r.state p).sum) := by
  induction system generalizing a sum q with
  | nil =>
    rw [List.map_nil, List.sum_nil, add_zero]
    exact .pure ha hsum
  | cons r system ih =>
    rw [List.map_cons, List.sum_cons, ← add_assoc, List.foldlM_cons]
    refine .bind (leads_addChange (hf r List.mem_cons_self) ha hg hsum) fun sum b hb hab hsum => ?_
    exact ih (fun q hq => (hf q (List.mem_cons_of_mem _ hq)).mono hab) hb (hg.mono hab) hsum

theorem leads_lieDerivative (hf : ∀ r ∈ system, a.Represents r.rhs (f r)) (ha : a.WellFormed)
    (hg : a.Represents g p) :
    (lieDerivative system dt g).Leads a fun b e => b.Represents e (flow system dt f p) := by
  rw [flow_apply]
  refine .bind (leads_derive dt ha hg) fun explicit b hb hab hexplicit => ?_
  exact leads_addChanges (fun r hr => (hf r hr).mono hab) hb (hg.mono hab) hexplicit

/-! ## Terms of the series -/

theorem represented_summand (k : ℕ) {factorial : ℕ} (hfactorial : factorial ≠ 0)
    (ha : a.WellFormed) (hd : a.Represents duration (X dt)) (hterm : a.Represents term p) :
    Represented (summand duration term k factorial) a
      (C (factorial : ℝ)⁻¹ * (p * X dt ^ k)) := by
  refine .bind (represented_powInt ha hd k) fun power b hb hab hpower => ?_
  refine .bind (represented_mul hb (hterm.mono hab) hpower) fun scaled c hc hbc hscaled => ?_
  refine .bind (literal_num hc (Exact.nat_eq factorial)) fun denominator d hd hcd hdenominator => ?_
  exact represented_div hd (hscaled.mono hcd) hdenominator (Nat.cast_ne_zero.2 hfactorial)

/-- The expression is a Taylor polynomial of `g` along the flow, and the series of `g` ends
there. -/
def Ends (system : List Rate) (dt : String) (f : Rate → Poly) (g : Poly) (b : Arena Exact)
    (c : ExprId) : Prop :=
  ∃ n, (flow system dt f)^[n + 1] g = 0 ∧ b.Represents c (taylorSum (flow system dt f) dt g n)

/-- A step of the series keeps the last derivative, the sum and the factorial in line. -/
theorem leads_extend {h : Poly} (n k : ℕ) (hf : ∀ r ∈ system, a.Represents r.rhs (f r))
    (ha : a.WellFormed) (hd : a.Represents duration (X dt)) (hz : a.Literal zeroExpr 0)
    (hterm : a.Represents term ((flow system dt f)^[k] h))
    (hsum : a.Represents sum (taylorSum (flow system dt f) dt h k)) :
    (extend system dt duration zeroExpr n k (k !) term sum).Leads a
      fun b o => ∀ c, o = some c → Ends system dt f h b c := by
  induction n generalizing k a term sum with
  | zero => exact .pure ha fun c hc => by cases hc
  | succ n ih =>
    refine .bind (leads_lieDerivative hf ha hterm) fun term b hb hab hterm => .look ?_
    rw [← Function.iterate_succ_apply' (flow system dt f)] at hterm
    split
    · next hzero =>
      -- the next derivative vanishes, so the series has ended
      refine .pure hb fun c hc => ?_
      cases hc
      exact ⟨k, eq_zero_of_represents_isNum hterm hzero, hsum.mono hab⟩
    · refine .bind (.lift (represented_atStart hb (hz.mono hab) hterm))
        fun coefficient c hc hbc hcoefficient => ?_
      have hac : a ≤ c := le_trans hab hbc
      have hsummand := represented_summand (k + 1) (Nat.factorial_ne_zero (k + 1)) hc
        (hd.mono hac) hcoefficient
      rw [Nat.factorial_succ, Nat.mul_comm] at hsummand
      refine .bind (.lift hsummand) fun s d hd' hcd hs => ?_
      have had : a ≤ d := le_trans hac hcd
      refine .bind (.lift (represented_add hd' (hsum.mono had) hs)) fun sum b' hb' hdb' hsum => ?_
      have hab' : a ≤ b' := le_trans had hdb'
      rw [Nat.mul_comm, ← Nat.factorial_succ]
      refine ih (k + 1) (fun r hr => (hf r hr).mono hab') hb' (hd.mono hab') (hz.mono hab')
        (hterm.mono (le_trans hbc (le_trans hcd hdb'))) ?_
      rw [taylorSum_succ, Nat.factorial_succ, Nat.mul_comm]
      exact hsum

/-- What is returned for a state is a Taylor polynomial at which its series ends. -/
theorem leads_closedForm? {s : String} (hf : ∀ r ∈ system, a.Represents r.rhs (f r))
    (ha : a.WellFormed) (hs : s ≠ dt) :
    (closedForm? system dt s).Leads a
      fun b o => ∀ c, o = some c → Ends system dt f (X s) b c := by
  refine .bind (.lift (represented_sym ha ⟨dt, none⟩)) fun duration b hb hab hduration => ?_
  refine .bind (.lift (literal_num hb Exact.zero_eq)) fun z c hc hbc hz => ?_
  refine .bind (.lift (represented_sym hc ⟨s, none⟩)) fun start d hd hcd hstart => ?_
  have had : a ≤ d := le_trans hab (le_trans hbc hcd)
  refine leads_extend maxOrder 0 (fun r hr => (hf r hr).mono had) hd
    (hduration.mono (le_trans hbc hcd)) (hz.mono hcd) hstart ?_
  rw [taylorSum_zero, atStart_X_of_ne hs]
  exact hstart

/-! ## A constant rate -/

section

variable {x : String} {one : ExprId} {r : ℝ}

/-- In the equation `dx/dt = 1`, a quantity changes by the sum of its two derivatives. -/
theorem literal_lieDerivative {q q' : ℝ} (hone : a.Literal one 1)
    (hdt : (derive dt g).Leads a fun b d => b.Literal d q)
    (hx : ∀ b, b.WellFormed → a ≤ b → (derive x g).Leads b fun c d => c.Literal d q') :
    (lieDerivative [⟨x, one⟩] dt g).Leads a fun b e => b.Literal e (q + q') := by
  refine .bind hdt fun explicit b hb hab hexplicit => ?_
  rw [List.foldlM_cons]
  refine .bind (P := fun c e => c.Literal e (q + q')) ?_ fun e c hc hbc he => .pure hc he
  refine .bind (hx b hb hab) fun dx c hc hbc hdx => ?_
  have hone := hone.mono (le_trans hab hbc)
  refine .bind (.lift (literal_mul hc hdx hone)) fun term d hd hcd hterm => ?_
  rw [mul_one] at hterm
  exact .lift (literal_add hd (hexplicit.mono (le_trans hbc hcd)) hterm)

/-- The series of the equation `dx/dt = 1` ends after the second derivative. -/
theorem leads_closedForm?_one (hx : x ≠ dt) (ha : a.WellFormed) (hone : a.Literal one 1) :
    (closedForm? [⟨x, one⟩] dt x).Leads a fun _ o => ∃ c, o = some c := by
  have hnumber {b : Arena Exact} {e : ExprId} {q : ℝ} (hb : b.WellFormed) (he : b.Literal e q)
      (t : String) : (derive t e).Leads b fun c d => c.Literal d 0 :=
    derive_free hb (.node he trivial fun y hy => absurd hy List.not_mem_nil) he.uses
  refine .bind (.lift (represented_sym ha ⟨dt, none⟩)) fun duration b hb hab hduration => ?_
  refine .bind (.lift (literal_num hb Exact.zero_eq)) fun z c hc hbc hz => ?_
  have hsym : Leads (sym ⟨x, none⟩) c fun d e => d.table.items[e]? = some (.sym x) :=
    .intern hc (by simp [Node.operands]) fun _ _ _ he => he
  refine .bind (.lift hsym) fun start d hd hcd hstart => ?_
  have hac := le_trans hab hbc
  have hdt : (derive dt start).Leads d fun b e => b.Literal e 0 :=
    derive_free hd (.node hstart trivial fun y hy => absurd hy List.not_mem_nil)
      (.node hstart hx fun y hy => absurd hy List.not_mem_nil)
  -- the first derivative is one
  refine .bind (literal_lieDerivative (hone.mono (le_trans hac hcd)) hdt
    fun b' hb' hdb' => derive_sym hb' (hdb' hstart)) fun term b₁ hb₁ h₁ hterm => .look ?_
  rw [zero_add] at hterm
  rw [if_neg (by simp [Arena.isZero, hterm.num?, Exact.isZero_iff])]
  have hc₁ := le_trans hcd h₁
  refine .bind (.lift (represented_atStart hb₁ (hz.mono hc₁) (.num hterm)))
    fun coefficient b₂ hb₂ h₂ hcoefficient => ?_
  have hc₂ := le_trans hc₁ h₂
  refine .bind (.lift (represented_summand 1 one_ne_zero hb₂ (hduration.mono (le_trans hbc hc₂))
    hcoefficient)) fun s b₃ hb₃ h₃ hs => ?_
  have hc₃ := le_trans hc₂ h₃
  have hstart : b₃.Represents start (X x) := .sym (le_trans h₁ (le_trans h₂ h₃) hstart)
  refine .bind (.lift (represented_add hb₃ hstart hs)) fun sum b₄ hb₄ h₄ hsum => ?_
  -- and the second one is zero
  have hterm := hterm.mono (le_trans h₂ (le_trans h₃ h₄))
  refine .bind (literal_lieDerivative (hone.mono (le_trans hac (le_trans hc₃ h₄)))
    (hnumber hb₄ hterm dt) fun b' hb' hle => hnumber hb' (hterm.mono hle) x)
    fun term b₅ hb₅ h₅ hterm => .look ?_
  rw [add_zero] at hterm
  rw [if_pos hterm.isZero]
  exact .pure hb₅ ⟨sum, rfl⟩

end

/-! ## Systems -/

/-- The closed forms of a system, all from series that end. -/
structure ClosedForms (system : List Rate) (dt : String) (a : Arena Exact) (cs : List ExprId)
    (b : Arena Exact) : Prop where
  start : a.WellFormed
  nodup : (system.map (·.state)).Nodup
  duration : dt ∉ system.map (·.state)
  polynomial : ∀ r ∈ system, ∃ p, a.Represents r.rhs p
  run : (system.mapM fun r => closedForm? system dt r.state).run.run a = (.ok (cs.map some), b)

theorem ClosedForms.state_ne (h : ClosedForms system dt a cs b) {r : Rate} (hr : r ∈ system) :
    r.state ≠ dt :=
  fun heq => h.duration (heq ▸ List.mem_map_of_mem hr)

theorem ClosedForms.ends (h : ClosedForms system dt a cs b)
    (hf : ∀ r ∈ system, a.Represents r.rhs (f r)) : b.WellFormed ∧ a ≤ b ∧
      List.Forall₂ (fun r c => Ends system dt f (X r.state) b c) system cs := by
  have hleads : Attempt.Leads (system.mapM fun r => closedForm? system dt r.state) a
      fun b os => List.Forall₂ (fun r o => ∀ c, o = some c → Ends system dt f (X r.state) b c)
        system os := by
    refine .mapM (fun r b c o hbc ho e he => ?_) h.start fun r hr b hb hab => ?_
    · obtain ⟨n, hn, hrepresents⟩ := ho e he
      exact ⟨n, hn, hrepresents.mono hbc⟩
    · exact leads_closedForm? (fun q hq => (hf q hq).mono hab) hb (h.state_ne hr)
  obtain ⟨hb, hab, hall⟩ := hleads.of_run h.run
  refine ⟨hb, hab, ?_⟩
  rw [List.forall₂_map_right_iff] at hall
  exact hall.imp fun r c hc => hc c rfl

/-- The closed forms stand for Taylor polynomials of the states, which satisfy the equations. -/
theorem ClosedForms.exists_polynomials (h : ClosedForms system dt a cs b) :
    b.WellFormed ∧ a ≤ b ∧ cs.length = system.length ∧
      ∃ (f : Rate → Poly) (c : String → Poly), (∀ r ∈ system, a.Represents r.rhs (f r)) ∧
        (∀ y ∈ system.zip cs, b.Represents y.2 (c y.1.state)) ∧
        ∀ r ∈ system, atStart dt (c r.state) = X r.state ∧
          pderiv dt (c r.state) = along (system.map (·.state)) c (f r) := by
  choose! f hf using h.polynomial
  obtain ⟨hb, hab, hends⟩ := h.ends hf
  have hlength : cs.length = system.length := hends.length_eq.symm
  have hstates : ∀ s ∈ system.map (·.state), ∃ n, (flow system dt f)^[n + 1] (X s) = 0 := by
    intro s hs
    obtain ⟨r, hr, rfl⟩ := List.mem_map.1 hs
    obtain ⟨c, -, n, hn, -⟩ := exists_of_forall₂ hends.flip hr
    exact ⟨n, hn⟩
  choose! n hn using hstates
  refine ⟨hb, hab, hlength, f, fun s => taylorSum (flow system dt f) dt (X s) (n s), hf,
    fun y hy => ?_, fun r hr => ⟨?_, pderiv_taylorSum h.nodup h.duration hn hr⟩⟩
  · obtain ⟨m, hm, hrepresents⟩ := (List.forall₂_iff_zip.1 hends).2 hy
    have hstate : y.1.state ∈ system.map (·.state) := List.mem_map_of_mem (List.of_mem_zip hy).1
    rwa [taylorSum_unique hm (hn _ hstate)] at hrepresents
  · rw [atStart_taylorSum, atStart_X_of_ne (h.state_ne hr)]

/-- The closed forms solve the equations: where the duration is zero each has the value of its state,
and its derivative by the duration has the value of the right-hand side with all states replaced by
their closed forms. -/
theorem closedForms_solve (h : ClosedForms system dt a cs b) : cs.length = system.length ∧
      ∀ y ∈ system.zip cs, ∀ ρ : String → ℝ,
        Leads (do let z ← zero; substitute (.ofList [(dt, z)]) y.2) b
          (fun b e => b.EvaluatesTo ρ e (ρ y.1.state)) ∧
        ∃ v : ℝ, (derive dt y.2).Leads b (fun b e => b.EvaluatesTo ρ e v) ∧
          Leads (substitute (.ofList ((system.map (·.state)).zip cs)) y.1.rhs) b
            fun b e => b.EvaluatesTo ρ e v := by
  obtain ⟨hb, hab, hlength, f, c, hf, hc, hsolves⟩ := h.exists_polynomials
  refine ⟨hlength, fun y hy ρ => ?_⟩
  have hr : y.1 ∈ system := (List.of_mem_zip hy).1
  obtain ⟨hstart, hderivative⟩ := hsolves y.1 hr
  have hcb := hc y hy
  refine ⟨?_, MvPolynomial.eval ρ (pderiv dt (c y.1.state)), ?_, ?_⟩
  · have hreplaced : Represented (do let z ← zero; substitute (.ofList [(dt, z)]) y.2) b
        (atStart dt (c y.1.state)) :=
      .bind (literal_num hb Exact.zero_eq) fun z d hd hbd hz =>
        represented_atStart hd hz (hcb.mono hbd)
    have hvalue := Represented.evaluates hreplaced ρ
    rwa [hstart, MvPolynomial.eval_X] at hvalue
  · exact (leads_derive dt hb hcb).imp fun d e hd he => he.evaluatesTo hd ρ
  · rw [hderivative]
    have hpairs : ∀ x ∈ (system.map (·.state)).zip cs, b.Represents x.2 (c x.1) := fun x hx => by
      rw [List.zip_map_left] at hx
      obtain ⟨y, hy, rfl⟩ := List.mem_map.1 hx
      exact hc y hy
    have halong := represented_along hb hpairs ((hf y.1 hr).mono hab)
    rw [List.map_fst_zip (by simp [hlength])] at halong
    exact Represented.evaluates halong ρ

/-- A clock, whose state is the time that has passed. -/
theorem closedForms_clock : ∃ (a b : Arena Exact) (one c : ExprId),
    ClosedForms [⟨"x", one⟩] "Dt" a [c] b ∧ ∀ ρ : String → ℝ,
      Leads (do let z ← zero; substitute (.ofList [("Dt", z)]) c) b
        (fun b e => b.EvaluatesTo ρ e (ρ "x")) ∧
      ∃ v : ℝ, (derive "Dt" c).Leads b (fun b e => b.EvaluatesTo ρ e v) ∧
        Leads (substitute (.ofList [("x", c)]) one) b fun b e => b.EvaluatesTo ρ e v := by
  obtain ⟨ha, -, hone⟩ := literal_num Arena.wellFormed_empty Exact.one_eq
  generalize (num (Scalar.one : Exact)).run {} = p at ha hone
  obtain ⟨one, a⟩ := p
  have hleads : (closedForm? [⟨"x", one⟩] "Dt" "x").Leads a fun _ o => ∃ c, o = some c :=
    leads_closedForm?_one (by decide) ha hone
  obtain ⟨o, b, hrun, -, -, c, rfl⟩ := hleads
  have h : ClosedForms [⟨"x", one⟩] "Dt" a [c] b :=
    { start := ha
      nodup := by simp
      duration := by simp
      polynomial := fun r hr => by
        obtain rfl := List.mem_singleton.1 hr
        exact ⟨_, .num hone⟩
      run := by
        rw [List.mapM_cons]
        exact Attempt.run_bind_eq_ok.2 ⟨some c, b, hrun, rfl⟩ }
  exact ⟨a, b, one, c, h, (closedForms_solve h).2 (⟨"x", one⟩, c) List.mem_cons_self⟩

end Series

end HybridPlan
