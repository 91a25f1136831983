import HybridPlan.Proofs.Expr.Deriving
import HybridPlan.Proofs.Expr.Substitution

set_option autoImplicit false

/-! # What a differentiation establishes

An expression for all parts of which there are rules has a derivative. Whatever the rules pass on from
the derivatives of operands, the differentiation passes on from symbols and numbers to expressions. -/

namespace HybridPlan

variable {α : Type} [Scalar α]

theorem Arena.MadeOf.uses {a : Arena α} {e : ExprId} (h : a.MadeOf Node.Differentiable e) :
    a.Uses (.all α) e := by
  refine h.imp fun n hn => ?_
  cases n with
  | join c items => exact hn.elim
  | num | sym | neg | arith | call | compare => trivial

namespace Build

/-! ## Relations that the rules pass on -/

/-- A relation between expressions of the arena `a` and expressions of larger arenas that is passed on
by the rules of differentiation. -/
structure Differentiates (t : String) (a : Arena α) (D : Arena α → ExprId → ExprId → Prop) : Prop
    extends Persists D where
  num : ∀ {b : Arena α} {e : ExprId} {x : α}, a.node e = .num x → b.WellFormed → Makes D b zero e
  sym : ∀ {b : Arena α} {e : ExprId} {s : String}, a.node e = .sym s → b.WellFormed →
    Makes D b (if s = t then one else zero) e
  neg : ∀ {b : Arena α} {e x dx : ExprId}, a.node e = .neg x → b.WellFormed → Stands D b x dx →
    Makes D b (neg dx) e
  arith : ∀ {b : Arena α} {op : ArithOp} {e x y dx dy : ExprId}, a.node e = .arith op x y →
    a.Uses (.all α) e → b.WellFormed → a ≤ b → Stands D b x dx → Stands D b y dy →
    Makes D b (deriveArith op e x y dx dy) e
  call : ∀ {b : Arena α} {f : Elementary} {e x dx : ExprId},
    a.node e = .call (.elementary f) [x] → a.Uses (.all α) e → b.WellFormed → a ≤ b →
    Stands D b x dx → Makes D b (do let outer ← deriveOuter f e x; mul outer dx) e

section

variable {t : String} {a : Arena α} {D : Arena α → ExprId → ExprId → Prop} {e : ExprId}

/-- What the rules pass on from parts for which there are rules, they carry over. -/
theorem Differentiates.carriesDerivative (hD : Differentiates t a D) :
    CarriesDerivative t a fun b e d => a.MadeOf Node.Differentiable e → Stands D b e d where
  mono hb hbc h he := hD.stands hb hbc (h.related he)
  num hn hb _ :=
    (hD.num hn hb).stands hb (C := ∅) (by simp) (yields_zero Vocabulary.closed_all)
  sym hn hb _ :=
    (hD.sym hn hb).stands hb (C := ∅) (by simp)
      (.ite (yields_one Vocabulary.closed_all) (yields_zero Vocabulary.closed_all))
  neg {b e x dx} hn hb hx he := by
    have hx := hx.related (he.operand (by simp [hn, Node.operands]))
    exact (hD.neg hn hb hx).stands hb (C := {dx}) (by rintro _ rfl; exact hx.uses)
      (yields_neg Vocabulary.closed_all rfl)
  arith {b op e x y dx dy} hn _ hb hab hx hy he := by
    have hx₀ : a.MadeOf Node.Differentiable x := he.operand (by simp [hn, Node.operands])
    have hy₀ : a.MadeOf Node.Differentiable y := he.operand (by simp [hn, Node.operands])
    refine (hD.arith hn he.uses hb hab (hx.related hx₀) (hy.related hy₀)).stands hb
      (C := {e, x, y, dx, dy}) ?_ (yields_deriveArith Vocabulary.closed_all op (by simp) (by simp)
        (by simp) (by simp) (by simp))
    rintro _ (rfl | rfl | rfl | rfl | rfl)
    exacts [he.uses.mono hab, hx₀.uses.mono hab, hy₀.uses.mono hab, (hx.related hx₀).uses,
      (hy.related hy₀).uses]
  call {b f e x dx} hn _ hb hab hx he := by
    have hx₀ : a.MadeOf Node.Differentiable x := he.operand (by simp [hn, Node.operands])
    refine (hD.call hn he.uses hb hab (hx.related hx₀)).stands hb (C := {e, x, dx}) ?_
      (.bind (yields_deriveOuter Vocabulary.closed_all f (by simp) (by simp)) fun outer =>
        yields_mul Vocabulary.closed_all (.inl rfl) (by simp))
    rintro _ (rfl | rfl | rfl)
    exacts [he.uses.mono hab, hx₀.uses.mono hab, (hx.related hx₀).uses]

/-- A relation that is passed on by the rules holds of an expression and its derivative. -/
theorem Differentiates.derive (hD : Differentiates t a D) (ha : a.WellFormed)
    (he : a.MadeOf Node.Differentiable e) : ∃ d b, (derive t e).run.run a = (.ok d, b) ∧
      b.WellFormed ∧ a ≤ b ∧ Stands D b e d := by
  obtain ⟨r, b, hrun, hb, hab, hok, herror⟩ := hD.carriesDerivative.derive ha he.lt_size
  cases r with
  | error error =>
    obtain ⟨x, hx, hnode, -⟩ := herror error rfl
    exact absurd ((Arena.madeOf_iff ha he.lt_size).1 he x hx) hnode
  | ok d => exact ⟨d, b, hrun, hb, hab.le, (hok d rfl).related.2 he⟩

end

end Build

end HybridPlan
