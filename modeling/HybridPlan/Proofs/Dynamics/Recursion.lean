import HybridPlan.Dynamics.ExpPolynomial
import HybridPlan.Proofs.Expr.Arithmetical
import HybridPlan.Proofs.Expr.Enumeration
import HybridPlan.Proofs.Expr.Interning
import Mathlib.Logic.Function.Iterate

set_option autoImplicit false

/-! # The recursion of decompositions

A decomposition goes on with the operands of an expression and, for a difference, with the opposite of
its right side, which is a new expression. The opposite is at most one level higher than the right side,
so a number of levels is enough whatever would happen further down. What holds of the parts' decompositions
and is handed on by every step holds of the whole. -/

namespace HybridPlan.ExpPolynomial

open Build

variable {α : Type} [Scalar α]

/-! ## Constructions that need not have a result -/

section

variable {ι κ : Type} {a : Arena α} {f : ι → OptionT (Build α) κ} {Q : Arena α → Option κ → Prop}

/-- A construction that need not have a result goes on with the one that it has. -/
theorem leads_run_bind {m : OptionT (Build α) ι} {P : Arena α → ι → Prop}
    (hm : Leads m.run a fun b o => ∃ i, o = some i ∧ P b i)
    (hf : ∀ i b, b.WellFormed → a ≤ b → P b i → Leads (f i).run b Q) : Leads (m >>= f).run a Q := by
  rw [OptionT.run_bind]
  refine .bind hm fun o b hb hab ho => ?_
  obtain ⟨i, rfl, hi⟩ := ho
  exact hf i b hb hab hi

theorem leads_run_lift {m : Build α ι} {P : Arena α → ι → Prop} (hm : Leads m a P)
    (hf : ∀ i b, b.WellFormed → a ≤ b → P b i → Leads (f i).run b Q) :
    Leads ((m : OptionT (Build α) ι) >>= f).run a Q :=
  leads_run_bind (.bind hm fun i _ hb _ hi => .pure hb ⟨i, rfl, hi⟩) hf

/-- The arena may be looked at. -/
theorem leads_run_look {f : Arena α → OptionT (Build α) κ} (h : Leads (f a).run a Q) :
    Leads (getThe (Arena α) >>= f).run a Q := by
  change Leads (MonadState.get >>= fun a => (f a).run) a Q
  exact .get h

end

/-- Both constructions do the same from the arena, where they lead to a larger well-formed one, and
this holds of their result if they have one. -/
structure Agree {ι : Type} (m m' : OptionT (Build α) ι) (a : Arena α) (Q : Arena α → ι → Prop) :
    Prop where
  same : m.run.run a = m'.run.run a
  leads : Leads m'.run a fun b o => ∀ i, o = some i → Q b i

namespace Agree

variable {ι κ : Type} {m m' : OptionT (Build α) ι} {f f' : ι → OptionT (Build α) κ} {a : Arena α}
  {P : Arena α → ι → Prop} {Q : Arena α → κ → Prop}

theorem pure {i : ι} (ha : a.WellFormed) (h : P a i) : Agree (Pure.pure i) (Pure.pure i) a P := by
  refine ⟨rfl, .pure ha fun j hj => ?_⟩
  cases hj
  exact h

theorem failure (ha : a.WellFormed) :
    Agree (Alternative.failure : OptionT (Build α) ι) Alternative.failure a P :=
  ⟨rfl, .pure ha fun j hj => (by cases hj)⟩

theorem bind (hm : Agree m m' a P)
    (hf : ∀ i b, b.WellFormed → a ≤ b → P b i → Agree (f i) (f' i) b Q) :
    Agree (m >>= f) (m' >>= f') a Q := by
  have hrun (m : OptionT (Build α) ι) (f : ι → OptionT (Build α) κ) : (m >>= f).run =
      m.run >>= fun o => o.elim (Pure.pure none) fun i => (f i).run :=
    OptionT.run_bind ..
  have hnext (o : Option ι) (b : Arena α) (hb : b.WellFormed) (hab : a ≤ b)
      (ho : ∀ i, o = some i → P b i) :
      Agree (OptionT.mk (o.elim (Pure.pure none) fun i => (f i).run))
        (OptionT.mk (o.elim (Pure.pure none) fun i => (f' i).run)) b Q := by
    cases o with
    | none => exact failure hb
    | some i => exact hf i b hb hab (ho i rfl)
  constructor
  · rw [hrun, hrun, StateT.run_bind, StateT.run_bind, hm.same]
    exact (hnext _ _ hm.leads.wellFormed hm.leads.le hm.leads.holds).same
  · rw [hrun]
    exact .bind hm.leads fun o b hb hab ho => (hnext o b hb hab ho).leads

theorem lift {m : Build α ι} (h : Leads m a P) :
    Agree (m : OptionT (Build α) ι) (m : OptionT (Build α) ι) a P := by
  refine ⟨rfl, .bind h fun i b hb hab hi => .pure hb fun j hj => ?_⟩
  cases hj
  exact hi

theorem look {f f' : Arena α → OptionT (Build α) κ} (h : Agree (f a) (f' a) a Q) :
    Agree (getThe (Arena α) >>= f) (getThe (Arena α) >>= f') a Q :=
  ⟨h.same, leads_run_look h.leads⟩

end Agree

/-! ## One step -/

variable {a b : Arena α} {t : String} {e x y : ExprId} {n : ℕ} {terms : List ExpTerm}

/-- Step `e` may go on with `x` in the larger arena: with an operand, or with the opposite of the
right side of a difference. -/
def Calls (a : Arena α) (e : ExprId) (b : Arena α) (x : ExprId) : Prop :=
  x ∈ (a.node e).operands ∨ ∃ y z c, a.node e = .arith .sub y z ∧ a ≤ c ∧ c.WellFormed ∧
    x = ((neg z).run c).1 ∧ ((neg z).run c).2 ≤ b

/-- The expression is a literal of the arena. -/
def IsLiteral (a : Arena α) (x : ExprId) (u : α) : Prop :=
  a.table.items[x]? = some (.num (Scalar.unsignedZero u))

theorem leads_literal (ha : a.WellFormed) (u : α) : Leads (num u) a fun b x => IsLiteral b x u :=
  .intern ha (by simp [Node.operands]) fun _ _ _ h => h

/-- What every step hands on from the decompositions of parts to that of the whole, for expressions made
of certain nodes. -/
structure Inherited (t : String) (R : Node α → Prop) (Q : Arena α → ExprId → List ExpTerm → Prop) :
    Prop where
  opposite : ∀ {a x}, a.WellFormed → a.MadeOf R x → Leads (Build.neg x) a fun b => b.MadeOf R
  mono : ∀ {a b e terms}, a.WellFormed → a ≤ b → a.MadeOf R e → Q a e terms → Q b e terms
  free : ∀ {a e zeroExpr}, a.WellFormed → a.MadeOf R e → a.dependsOn e t = false →
    IsLiteral a zeroExpr Scalar.zero → Q a e (if a.isZero e then [] else [⟨e, 0, zeroExpr⟩])
  sym : ∀ {a e zeroExpr one}, a.WellFormed → a.MadeOf R e → a.node e = .sym t →
    IsLiteral a zeroExpr Scalar.zero → IsLiteral a one Scalar.one → Q a e [⟨one, 1, zeroExpr⟩]
  neg : ∀ {a e x terms}, a.WellFormed → a.MadeOf R e → a.node e = .neg x → Q a x terms →
    Leads (mapCoefficients Build.neg terms) a fun b => Q b e
  add : ∀ {a e x y ls rs}, a.WellFormed → a.MadeOf R e → a.node e = .arith .add x y → Q a x ls →
    Q a y rs → Q a e (ls ++ rs)
  sub : ∀ {a b e x y ls rs}, a.WellFormed → a.MadeOf R e → a.node e = .arith .sub x y → b.WellFormed →
    ((Build.neg y).run a).2 ≤ b → Q b x ls → Q b ((Build.neg y).run a).1 rs → Q b e (ls ++ rs)
  mul : ∀ {a e x y ls rs}, a.WellFormed → a.MadeOf R e → a.node e = .arith .mul x y → Q a x ls →
    Q a y rs → Leads (product ls rs) a fun b => Q b e
  div : ∀ {a e x y terms}, a.WellFormed → a.MadeOf R e → a.node e = .arith .div x y →
    a.dependsOn y t = false → Q a x terms → Leads (mapCoefficients (Build.div · y) terms) a fun b => Q b e
  pow : ∀ {a e x y u k base zeroExpr one}, a.WellFormed → a.MadeOf R e → a.node e = .arith .pow x y →
    a.num? y = some u → smallExponent? u = some k → Q a x base → IsLiteral a zeroExpr Scalar.zero →
    IsLiteral a one Scalar.one → Leads (power base k [⟨one, 0, zeroExpr⟩]) a fun b => Q b e
  exp : ∀ {a e x terms zeroExpr}, a.WellFormed → a.MadeOf R e →
    a.node e = .call (.elementary .exp) [x] → Q a x terms → IsLiteral a zeroExpr Scalar.zero →
    Leads (splitLinear zeroExpr zeroExpr terms) a fun b o => ∀ c₀ c₁, o = some (c₀, c₁) →
      Leads (call₁ .exp c₀) b fun c coefficient => Q c e [⟨coefficient, 0, c₁⟩]

/-- A symbol on which a symbol depends is that symbol. -/
theorem node_eq_of_dependsOn {s : String} (ha : a.WellFormed) (hn : a.node e = .sym s)
    (ht : a.dependsOn e t = true) : a.node e = .sym t := by
  obtain ⟨x, hx, hxt⟩ := (Arena.dependsOn_iff ha).1 ht
  rcases hx.cases_head with rfl | ⟨y, hy, -⟩
  · exact hxt
  · rw [hn] at hy
    exact absurd hy List.not_mem_nil

theorem Inherited.leads_opposite {R : Node α → Prop} {Q : Arena α → ExprId → List ExpTerm → Prop}
    (hQ : Inherited t R Q) (ha : a.WellFormed) (hx : a.MadeOf R x) : Leads (Build.neg x) a fun b y =>
      b.MadeOf R y ∧ b = ((Build.neg x).run a).2 ∧ y = ((Build.neg x).run a).1 := by
  obtain ⟨hb, hab, hy⟩ := hQ.opposite ha hx
  exact ⟨hb, hab, hy, rfl, rfl⟩

variable {R : Node α → Prop} {Q : Arena α → ExprId → List ExpTerm → Prop}

/-- Two parts are decomposed one after the other; what holds of the first still does after the second. -/
theorem Inherited.agree_both (hQ : Inherited t R Q) {f g : ExprId → OptionT (Build α) (List ExpTerm)}
    {k : List ExpTerm → List ExpTerm → OptionT (Build α) (List ExpTerm)}
    {P : Arena α → List ExpTerm → Prop} (hx : a.MadeOf R x)
    (hleft : Agree (f x) (g x) a fun b => Q b x)
    (hright : ∀ b, b.WellFormed → a ≤ b → Agree (f y) (g y) b fun c => Q c y)
    (h : ∀ ls rs b, b.WellFormed → a ≤ b → Q b x ls → Q b y rs → Agree (k ls rs) (k ls rs) b P) :
    Agree (do let ls ← f x; let rs ← f y; k ls rs) (do let ls ← g x; let rs ← g y; k ls rs) a P := by
  refine .bind hleft fun ls b hb hab hls => ?_
  refine .bind (hright b hb hab) fun rs c hc hbc hrs => ?_
  exact h ls rs c hc (le_trans hab hbc) (hQ.mono hb hbc (hx.mono hab) hls) hrs

/-- A step does the same with two decompositions that do the same for all parts, and hands on what holds
of them. -/
theorem agree_step (hQ : Inherited t R Q) {f g : ExprId → OptionT (Build α) (List ExpTerm)}
    (ha : a.WellFormed) (he : a.MadeOf R e)
    (h : ∀ b x, b.WellFormed → a ≤ b → b.MadeOf R x → Calls a e b x →
      Agree (f x) (g x) b fun c => Q c x) :
    Agree (decomposeStep t f e) (decomposeStep t g e) a fun b => Q b e := by
  unfold decomposeStep
  refine .bind (.lift (leads_literal ha _)) fun zeroExpr b hb hab hzero => .look ?_
  have heb : b.MadeOf R e := he.mono hab
  have hnode : b.node e = a.node e := Arena.node_mono hab he.lt_size
  have hlater {c : Arena α} (hbc : b ≤ c) {n : Node α} (hn : b.node e = n) : c.node e = n :=
    (Arena.node_mono hbc heb.lt_size).trans hn
  have hoperand {c : Arena α} {x : ExprId} (hc : c.WellFormed) (hbc : b ≤ c)
      (hx : x ∈ (b.node e).operands) : Agree (f x) (g x) c fun d => Q d x :=
    h c x hc (le_trans hab hbc) ((heb.operand hx).mono hbc) (.inl (hnode ▸ hx))
  split
  · next hfree => exact .pure hb (hQ.free hb heb (by simpa using hfree) hzero)
  next ht =>
  have ht : b.dependsOn e t = true := by simpa using ht
  split
  · next s hn =>
    refine .bind (.lift (leads_literal hb _)) fun one c hc hbc hone => .pure hc ?_
    exact hQ.sym hc (heb.mono hbc) (hlater hbc (node_eq_of_dependsOn hb hn ht)) (hbc hzero) hone
  · next x hn =>
    have hx : x ∈ (b.node e).operands := by simp [hn, Node.operands]
    refine .bind (hoperand hb (le_refl b) hx) fun terms c hc hbc hterms => .lift ?_
    exact hQ.neg hc (heb.mono hbc) (hlater hbc hn) hterms
  · next x y hn =>
    have hx : x ∈ (b.node e).operands := by simp [hn, Node.operands]
    have hy : y ∈ (b.node e).operands := by simp [hn, Node.operands]
    refine hQ.agree_both (heb.operand hx) (hoperand hb (le_refl b) hx)
      (fun c hc hbc => hoperand hc hbc hy) fun ls rs c hc hbc hls hrs => .pure hc ?_
    exact hQ.add hc (heb.mono hbc) (hlater hbc hn) hls hrs
  · next x y hn =>
    have hx : x ∈ (b.node e).operands := by simp [hn, Node.operands]
    have hy : y ∈ (b.node e).operands := by simp [hn, Node.operands]
    refine .bind (.lift (hQ.leads_opposite hb (heb.operand hy)))
      fun opposite c hc hbc hrun => ?_
    obtain ⟨hopposite, hcrun, horun⟩ := hrun
    -- the opposite is new, and the step says where it comes from
    have hright (d : Arena α) (hd : d.WellFormed) (hcd : c ≤ d) :
        Agree (f opposite) (g opposite) d fun d => Q d opposite :=
      h d opposite hd (le_trans hab (le_trans hbc hcd)) (hopposite.mono hcd)
        (.inr ⟨x, y, b, hnode ▸ hn, hab, hb, horun, hcrun ▸ hcd⟩)
    refine hQ.agree_both ((heb.operand hx).mono hbc) (hoperand hc hbc hx) hright
      fun ls rs d hd hcd hls hrs => .pure hd ?_
    exact hQ.sub hb heb hn hd (hcrun ▸ hcd) hls (horun ▸ hrs)
  · next x y hn =>
    have hx : x ∈ (b.node e).operands := by simp [hn, Node.operands]
    have hy : y ∈ (b.node e).operands := by simp [hn, Node.operands]
    refine hQ.agree_both (heb.operand hx) (hoperand hb (le_refl b) hx)
      (fun c hc hbc => hoperand hc hbc hy) fun ls rs c hc hbc hls hrs => .lift ?_
    exact hQ.mul hc (heb.mono hbc) (hlater hbc hn) hls hrs
  · next x y hn =>
    have hx : x ∈ (b.node e).operands := by simp [hn, Node.operands]
    have hy : b.MadeOf R y := heb.operand (by simp [hn, Node.operands])
    split
    · exact .failure hb
    next hfree =>
    rw [Bool.not_eq_true, Arena.dependsOn_eq_false_iff hb hy.lt_size] at hfree
    refine .bind (hoperand hb (le_refl b) hx) fun terms c hc hbc hterms => .lift ?_
    have hfree : c.dependsOn y t = false :=
      (Arena.dependsOn_eq_false_iff hc (hy.mono hbc).lt_size).2 (hfree.mono hbc)
    exact hQ.div hc (heb.mono hbc) (hlater hbc hn) hfree hterms
  · next x y hn =>
    have hx : x ∈ (b.node e).operands := by simp [hn, Node.operands]
    have hy : b.MadeOf R y := heb.operand (by simp [hn, Node.operands])
    split
    · exact .failure hb
    next k hk =>
    obtain ⟨u, hu, hk⟩ := Option.bind_eq_some_iff.1 hk
    refine .bind (hoperand hb (le_refl b) hx) fun base c hc hbc hbase => ?_
    refine .bind (.lift (leads_literal hc _)) fun one d hd hcd hone => .lift ?_
    have hbd := le_trans hbc hcd
    exact hQ.pow hd (heb.mono hbd) (hlater hbd hn) ((num?_mono hbd hy.lt_size).trans hu) hk
      (hQ.mono hc hcd ((heb.operand hx).mono hbc) hbase) (hbd hzero) hone
  · next x hn =>
    have hx : x ∈ (b.node e).operands := by simp [hn, Node.operands]
    refine .bind (hoperand hb (le_refl b) hx) fun terms c hc hbc hterms => ?_
    have hsplit := hQ.exp hc (heb.mono hbc) (hlater hbc hn) hterms (hbc hzero)
    refine .bind (P := fun d p => Leads (call₁ .exp p.1) d fun b' coefficient =>
      Q b' e [⟨coefficient, 0, p.2⟩]) ⟨rfl, hsplit.imp fun d o ho p hp => ho p.1 p.2 hp⟩ ?_
    intro p d hd hcd hcall
    exact .bind (.lift hcall) fun coefficient b' hb' hdb' hterm => .pure hb' hterm
  · exact .failure hb

/-! ## Enough levels -/

/-- The number of levels is enough for an expression of the arena. Opposites and numbers get along with
fewer levels than their places in the arena tell. -/
def Enough (a : Arena α) (n : ℕ) (e : ExprId) : Prop :=
  2 * (e + 1) ≤ n ∨ (∃ x, a.node e = .neg x ∧ 2 * (x + 1) < n) ∨ ((∃ u, a.node e = .num u) ∧ 0 < n)

theorem level_lt {x e n : ℕ} (hx : x < e) (he : 2 * (e + 1) ≤ n + 1) : 2 * (x + 1) < n := by omega

/-- What a step goes on with gets along with one level less. -/
theorem Enough.calls (ha : a.WellFormed) (he : a.Has e) (h : Enough a (n + 1) e)
    (hx : Calls a e b x) : Enough b n x := by
  rcases hx with hx | ⟨y, z, c, hn, hac, hc, rfl, hcb⟩
  · rcases h with h | ⟨z, hz, h⟩ | ⟨⟨u, hu⟩, -⟩
    · exact .inl (level_lt (ha.lt_of_mem_operands hx) h).le
    · rw [hz, Node.operands, List.mem_singleton] at hx
      exact .inl (hx ▸ Nat.le_of_lt_succ h)
    · rw [hu] at hx
      exact absurd hx List.not_mem_nil
  · have h : 2 * (e + 1) ≤ n + 1 := by
      rcases h with h | ⟨z, hz, -⟩ | ⟨⟨u, hu⟩, -⟩
      · exact h
      · rw [hn] at hz
        cases hz
      · rw [hn] at hu
        cases hu
    have hlt : z < e := ha.lt_of_mem_operands (by simp [hn, Node.operands])
    have hz : c.Has z := Nat.lt_trans hlt (he.mono hac)
    -- the opposite of a number is a number, and that of an opposite is smaller
    have hopposite : Leads (Build.neg z) c fun d x => Enough d n x := by
      refine .get ?_
      split
      · refine (leads_literal hc _).imp fun d x hx => .inr (.inr ⟨⟨_, Arena.node_eq_of_getElem? hx⟩, ?_⟩)
        exact Nat.zero_lt_of_lt (level_lt hlt h)
      · next w hw =>
        have hlt' : w < z := hc.lt_of_mem_operands (by simp [hw, Node.operands])
        exact .pure hc (.inl (level_lt (hlt'.trans hlt) h).le)
      · refine .intern hc ?_ fun d x hcd hx =>
          .inr (.inl ⟨z, Arena.node_eq_of_getElem? hx, level_lt hlt h⟩)
        intro x hx
        rwa [List.mem_singleton.1 hx]
    have hhas := (extends_neg hc hz).holds
    rcases hopposite.holds with h | ⟨w, hw, h⟩ | ⟨⟨u, hu⟩, h⟩
    · exact .inl h
    · exact .inr (.inl ⟨w, (Arena.node_mono hcb hhas).trans hw, h⟩)
    · exact .inr (.inr ⟨⟨u, (Arena.node_mono hcb hhas).trans hu⟩, h⟩)

/-- With enough levels it does not matter what is below them, and what every step hands on holds. -/
theorem agree_decomposeBelow (hQ : Inherited t R Q) (f : ExprId → OptionT (Build α) (List ExpTerm))
    (ha : a.WellFormed) (he : a.MadeOf R e) (hn : Enough a n e) :
    Agree ((decomposeStep t)^[n] f e) (decomposeBelow t n e) a fun b => Q b e := by
  induction n generalizing a e with
  | zero =>
    rcases hn with h | ⟨x, -, h⟩ | ⟨-, h⟩
    · exact absurd h (Nat.not_succ_le_zero _)
    · exact absurd h (Nat.not_lt_zero _)
    · exact absurd h (Nat.not_lt_zero _)
  | succ n ih =>
    rw [Function.iterate_succ_apply']
    exact agree_step hQ ha he fun b x hb hab hx hcalls => ih hb hx (hn.calls ha he.lt_size hcalls)

theorem Inherited.leads (hQ : Inherited t R Q) (ha : a.WellFormed) (he : a.MadeOf R e) :
    Leads (decompose? t e) a fun b o => ∀ terms, o = some terms → Q b e terms :=
  (agree_decomposeBelow hQ (fun _ => failure) ha he (.inl (le_refl _))).leads

/-! ## What sums are made of -/

/-- The coefficient and the rate of a term are made of certain nodes. -/
structure MadeOf (P : Node α → Prop) (a : Arena α) (term : ExpTerm) : Prop where
  coefficient : a.MadeOf P term.coefficient
  rate : a.MadeOf P term.rate

/-- All terms of a sum are made of certain nodes. -/
def Consists (P : Node α → Prop) (a : Arena α) (terms : List ExpTerm) : Prop :=
  ∀ term ∈ terms, MadeOf P a term

section

variable {P : Node α → Prop} {term : ExpTerm} {ls rs : List ExpTerm} {c₀ c₁ : ExprId}

theorem MadeOf.mono (hab : a ≤ b) (h : MadeOf P a term) : MadeOf P b term :=
  ⟨h.coefficient.mono hab, h.rate.mono hab⟩

theorem Consists.mono (hab : a ≤ b) (h : Consists P a terms) : Consists P b terms :=
  fun term hterm => (h term hterm).mono hab

theorem Consists.append (hl : Consists P a ls) (hr : Consists P a rs) : Consists P a (ls ++ rs) :=
  List.forall_mem_append.2 ⟨hl, hr⟩

theorem consists_singleton (h : MadeOf P a term) : Consists P a [term] :=
  List.forall_mem_singleton.2 h

theorem IsLiteral.madeOf {u : α} (hx : IsLiteral a x u) (hu : P (.num (Scalar.unsignedZero u))) :
    a.MadeOf P x :=
  .node hx hu fun _ h => absurd h List.not_mem_nil

theorem consists_mapCoefficients {f : ExprId → Build α ExprId}
    (hf : ∀ b x, b.WellFormed → a ≤ b → b.MadeOf P x → Leads (f x) b fun c => c.MadeOf P)
    (ha : a.WellFormed) (h : Consists P a terms) :
    Leads (mapCoefficients f terms) a (Consists P) := by
  refine .mapM (R := MadeOf P) MadeOf.mono ha fun term hterm b hb hab => ?_
  obtain ⟨hcoefficient, hrate⟩ := h term hterm
  exact .bind (hf b _ hb hab (hcoefficient.mono hab)) fun c d hd hbd hc =>
    .pure hd ⟨hc, hrate.mono (le_trans hab hbd)⟩

variable (hP : Arithmetical P)
include hP

theorem consists_product (ha : a.WellFormed) (hl : Consists P a ls) (hr : Consists P a rs) :
    Leads (product ls rs) a (Consists P) := by
  refine .bind (P := fun b rows => ∀ row ∈ rows, Consists P b row) ?_ fun rows b hb hab hrows =>
    .pure hb fun term hterm => ?_
  · refine .mapM (R := Consists P) Consists.mono ha fun l hlmem b hb hab => ?_
    refine .mapM (R := MadeOf P) MadeOf.mono hb fun r hrmem c hc hbc => ?_
    have hac := le_trans hab hbc
    obtain ⟨hlcoefficient, hlrate⟩ := hl.mono hac l hlmem
    obtain ⟨hrcoefficient, hrrate⟩ := hr.mono hac r hrmem
    refine .bind (hP.arith .mul hc hlcoefficient hrcoefficient) fun coefficient d hd hcd hcoefficient => ?_
    refine .bind (hP.arith .add hd (hlrate.mono hcd) (hrrate.mono hcd)) fun rate d' hd' hdd' hrate => ?_
    exact .pure hd' ⟨hcoefficient.mono hdd', hrate⟩
  · obtain ⟨row, hrow, hterm⟩ := List.mem_flatten.1 hterm
    exact hrows row hrow term hterm

theorem consists_power {base acc : List ExpTerm} (n : ℕ) (ha : a.WellFormed)
    (hbase : Consists P a base) (hacc : Consists P a acc) :
    Leads (power base n acc) a (Consists P) := by
  induction n generalizing a acc with
  | zero => exact .pure ha hacc
  | succ n ih =>
    exact .bind (consists_product hP ha hacc hbase) fun acc b hb hab hacc =>
      ih hb (hbase.mono hab) hacc

theorem madeOf_splitLinear (ha : a.WellFormed) (h₀ : a.MadeOf P c₀) (h₁ : a.MadeOf P c₁)
    (h : Consists P a terms) : Leads (splitLinear c₀ c₁ terms) a fun b o => ∀ k₀ k₁,
      o = some (k₀, k₁) → b.MadeOf P k₀ ∧ b.MadeOf P k₁ := by
  induction terms generalizing a c₀ c₁ with
  | nil =>
    refine .pure ha fun k₀ k₁ hk => ?_
    cases hk
    exact ⟨h₀, h₁⟩
  | cons term terms ih =>
    have hcoefficient := (h term List.mem_cons_self).1
    have hterms : Consists P a terms := fun term hterm => h term (List.mem_cons_of_mem _ hterm)
    refine .get ?_
    split
    · exact .pure ha fun _ _ hk => (by cases hk)
    · split
      · exact .bind (hP.arith .add ha h₀ hcoefficient) fun c b hb hab hc =>
          ih hb hc (h₁.mono hab) (hterms.mono hab)
      · exact .bind (hP.arith .add ha h₁ hcoefficient) fun c b hb hab hc =>
          ih hb (h₀.mono hab) hc (hterms.mono hab)
      · exact .pure ha fun _ _ hk => (by cases hk)

/-- If expressions of the one kind that are free of the variable are of the other kind, then sums that
expressions of the one kind come to are of the other kind. -/
theorem inherited_consists
    (hR : ∀ {a : Arena α} {x : ExprId}, a.WellFormed → a.MadeOf R x →
      Leads (Build.neg x) a fun b => b.MadeOf R)
    (hfree : ∀ {a : Arena α} {e : ExprId}, a.WellFormed → a.MadeOf R e → a.dependsOn e t = false →
      a.MadeOf P e) : Inherited t R fun a _ terms => Consists P a terms where
  opposite := hR
  mono _ hab _ h := h.mono hab
  free ha he hdepends hzero := by
    split
    · exact fun term hterm => absurd hterm List.not_mem_nil
    · exact consists_singleton ⟨hfree ha he hdepends, hzero.madeOf hP.zero⟩
  sym _ _ _ hzero hone := consists_singleton ⟨hone.madeOf hP.one, hzero.madeOf hP.zero⟩
  neg ha _ _ h := consists_mapCoefficients (fun _ _ hb _ hx => hP.neg hb hx) ha h
  add _ _ _ hl hr := hl.append hr
  sub _ _ _ _ _ hl hr := hl.append hr
  mul ha _ _ hl hr := consists_product hP ha hl hr
  div ha he hn hdepends h := by
    have hy := hfree ha (he.operand (by simp [hn, Node.operands])) hdepends
    exact consists_mapCoefficients (fun _ _ hb hab hx => hP.arith .div hb hx (hy.mono hab)) ha h
  pow ha _ _ _ _ h hzero hone :=
    consists_power hP _ ha h (consists_singleton ⟨hone.madeOf hP.one, hzero.madeOf hP.zero⟩)
  exp ha _ _ h hzero := by
    have hz := hzero.madeOf hP.zero
    obtain ⟨hb, hab, hsplit⟩ := madeOf_splitLinear hP ha hz hz h
    refine ⟨hb, hab, fun c₀ c₁ hc => ?_⟩
    obtain ⟨h₀, h₁⟩ := hsplit c₀ c₁ hc
    refine ⟨(hP.call .exp hb h₀).wellFormed, (hP.call .exp hb h₀).le, consists_singleton ⟨?_, ?_⟩⟩
    · exact (hP.call .exp hb h₀).holds
    · exact h₁.mono (hP.call .exp hb h₀).le

end

/-- Sums refer to expressions of the arena. -/
theorem inherited_has (t : String) :
    Inherited t (fun _ : Node α => True) fun a _ terms => Consists (fun _ => True) a terms :=
  have hall : Arithmetical fun _ : Node α => True := arithmetical_of_not_sym fun _ _ => trivial
  inherited_consists hall hall.neg fun _ he _ => he

/-- The terms that an expression comes to are free of the variable. -/
theorem free_decompose? (ha : a.WellFormed) (he : a.Has e) :
    Leads (decompose? t e) a fun b o => ∀ terms, o = some terms → ∀ term ∈ terms,
      b.dependsOn term.coefficient t = false ∧ b.dependsOn term.rate t = false := by
  have hfree : Inherited t (fun _ : Node α => True) fun a _ terms => Consists (· ≠ .sym t) a terms :=
    inherited_consists (arithmetical_of_not_sym fun n hn => hn t) (inherited_has t).opposite
      fun ha he hdepends => (Arena.dependsOn_eq_false_iff ha he.lt_size).1 hdepends
  obtain ⟨hb, hab, hterms⟩ := hfree.leads ha ((Arena.madeOf_iff ha he).2 fun _ _ => trivial)
  refine ⟨hb, hab, fun terms ho term hterm => ?_⟩
  obtain ⟨hcoefficient, hrate⟩ := hterms terms ho term hterm
  exact ⟨(Arena.dependsOn_eq_false_iff hb hcoefficient.lt_size).2 hcoefficient,
    (Arena.dependsOn_eq_false_iff hb hrate.lt_size).2 hrate⟩

/-! ## The number of levels -/

/-- Whatever is put in place of the recursion below that many levels, it is never asked. -/
theorem run_iterate (f : ExprId → OptionT (Build α) (List ExpTerm)) (ha : a.WellFormed) (he : a.Has e)
    (hn : Enough a n e) :
    ((decomposeStep t)^[n] f e).run.run a = (decomposeBelow t n e).run.run a :=
  (agree_decomposeBelow (inherited_has t) f ha ((Arena.madeOf_iff ha he).2 fun _ _ => trivial) hn).same

theorem decomposeBelow_eq (t : String) (n : ℕ) :
    decomposeBelow t n = (decomposeStep (α := α) t)^[n] fun _ => failure := by
  induction n with
  | zero => rfl
  | succ n ih =>
    rw [Function.iterate_succ_apply', ← ih]
    rfl

theorem run_decomposeBelow {m : ℕ} (ha : a.WellFormed) (he : a.Has e) (hm : Enough a m e)
    (hn : Enough a n e) : (decomposeBelow t m e).run.run a = (decomposeBelow t n e).run.run a := by
  wlog hmn : m ≤ n
  · exact (this ha he hn hm (Nat.le_of_not_le hmn)).symm
  · obtain ⟨k, rfl⟩ := Nat.exists_eq_add_of_le hmn
    rw [decomposeBelow_eq t (m + k), Function.iterate_add_apply]
    exact (run_iterate _ ha he hm).symm

/-- The decomposition goes on with itself, without a number of levels. -/
theorem run_decomposeStep (ha : a.WellFormed) (he : a.Has e) :
    (decomposeStep t (fun x => OptionT.mk (decompose? t x)) e).run.run a = (decompose? t e).run a := by
  have hhas {c : Arena α} {x : ExprId} (hc : c.WellFormed) (hx : c.Has x) :
      c.MadeOf (fun _ => True) x := (Arena.madeOf_iff hc hx).2 fun _ _ => trivial
  have hlevels : Enough a (2 * e + 1 + 1) e := .inl (le_refl _)
  refine (agree_step (g := decomposeBelow t (2 * e + 1)) (inherited_has t) ha (hhas ha he) ?_).same
  intro b x hb hab hx hcalls
  have hn : Enough b (2 * e + 1) x := hlevels.calls ha he hcalls
  refine ⟨run_decomposeBelow hb hx.lt_size (.inl (le_refl _)) hn, ?_⟩
  exact (agree_decomposeBelow (inherited_has t) (fun _ => failure) hb hx hn).leads

end HybridPlan.ExpPolynomial
