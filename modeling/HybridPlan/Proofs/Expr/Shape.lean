import HybridPlan.Proofs.Expr.Outcome
import HybridPlan.Proofs.Expr.Substitution

set_option autoImplicit false

/-! # The shape of constraints

A constraint compares two expressions, or is a disjunction of inequalities, or a conjunction of
constraints. A substitution keeps this shape: constraints are built by constructors that fold nothing
away, except that one constraint alone is not joined, which leaves a constraint too. -/

namespace HybridPlan

variable {α : Type} [Scalar α]

namespace Arena

/-! ## Shapes -/

/-- A comparison of expressions of a vocabulary, but no equation. -/
def Inequality (a : Arena α) (V : Vocabulary α) (e : ExprId) : Prop :=
  ∃ op x y, op ≠ .eq ∧ a.table.items[e]? = some (.compare op x y) ∧ a.Uses V x ∧ a.Uses V y

/-- A constraint over expressions of a vocabulary: a comparison, a disjunction of inequalities, or a
conjunction of constraints. -/
inductive Shaped (a : Arena α) (V : Vocabulary α) : ExprId → Prop
  | comparison {e x y : ExprId} {op : Comparison}
      (he : a.table.items[e]? = some (.compare op x y)) (hx : a.Uses V x) (hy : a.Uses V y) :
      Shaped a V e
  | disjunction {e : ExprId} {items : List ExprId} (he : a.table.items[e]? = some (.join .or items))
      (h : ∀ i ∈ items, a.Inequality V i) : Shaped a V e
  | conjunction {e : ExprId} {items : List ExprId} (he : a.table.items[e]? = some (.join .and items))
      (h : ∀ i ∈ items, Shaped a V i) : Shaped a V e

variable {a b : Arena α} {V V' : Vocabulary α} {e : ExprId}

theorem Inequality.shaped (h : a.Inequality V e) : a.Shaped V e := by
  obtain ⟨op, x, y, -, he, hx, hy⟩ := h
  exact .comparison he hx hy

theorem Inequality.mono (hab : a ≤ b) (h : a.Inequality V e) : b.Inequality V e := by
  obtain ⟨op, x, y, hop, he, hx, hy⟩ := h
  exact ⟨op, x, y, hop, hab he, hx.mono hab, hy.mono hab⟩

theorem Shaped.mono (hab : a ≤ b) (h : a.Shaped V e) : b.Shaped V e := by
  induction h with
  | comparison he hx hy => exact .comparison (hab he) (hx.mono hab) (hy.mono hab)
  | disjunction he h => exact .disjunction (hab he) fun i hi => (h i hi).mono hab
  | conjunction he _ ih => exact .conjunction (hab he) ih

theorem Inequality.imp (hV : ∀ n, V.Allows n → V'.Allows n) (h : a.Inequality V e) :
    a.Inequality V' e := by
  obtain ⟨op, x, y, hop, he, hx, hy⟩ := h
  exact ⟨op, x, y, hop, he, MadeOf.imp hV hx, MadeOf.imp hV hy⟩

theorem Shaped.imp (hV : ∀ n, V.Allows n → V'.Allows n) (h : a.Shaped V e) : a.Shaped V' e := by
  induction h with
  | comparison he hx hy => exact .comparison he (MadeOf.imp hV hx) (MadeOf.imp hV hy)
  | disjunction he h => exact .disjunction he fun i hi => (h i hi).imp hV
  | conjunction he _ ih => exact .conjunction he ih

/-- The node of a constraint is a comparison or a join. -/
theorem Shaped.node (h : a.Shaped V e) :
    (∃ op x y, a.node e = .compare op x y) ∨ ∃ c items, a.node e = .join c items := by
  cases h with
  | comparison he => exact .inl ⟨_, _, _, node_eq_of_getElem? he⟩
  | disjunction he => exact .inr ⟨_, _, node_eq_of_getElem? he⟩
  | conjunction he => exact .inr ⟨_, _, node_eq_of_getElem? he⟩

end Arena

/-! ## Substitution -/

namespace Build

variable {V V' : Vocabulary α} {σ : Substitution} {a b : Arena α} {e e' : ExprId}

/-- What is built in the place of an expression is of its kind, in another vocabulary. -/
structure Keeps (V V' : Vocabulary α) (a b : Arena α) (e e' : ExprId) : Prop where
  uses : a.Uses V e → b.Uses V' e'
  inequality : a.Inequality V e → b.Inequality V' e'
  shaped : a.Shaped V e → b.Shaped V' e'

/-- No constraint stands at a node of arithmetic. -/
theorem Keeps.of_arithmetic (hcompare : ∀ op x y, a.node e ≠ .compare op x y)
    (hjoin : ∀ c items, a.node e ≠ .join c items) (h : a.Uses V e → b.Uses V' e') :
    Keeps V V' a b e e' := by
  have hnot (hshaped : a.Shaped V e) : False := by
    rcases hshaped.node with ⟨op, x, y, hnode⟩ | ⟨c, items, hnode⟩
    · exact hcompare op x y hnode
    · exact hjoin c items hnode
  exact ⟨h, fun he => (hnot he.shaped).elim, fun he => (hnot he).elim⟩

theorem Keeps.compare {op : Comparison} {x y x' y' : ExprId} (he : a.node e = .compare op x y)
    (he' : b.table.items[e']? = some (.compare op x' y')) (hx : a.Uses V x → b.Uses V' x')
    (hy : a.Uses V y → b.Uses V' y') (huses : a.Uses V e → b.Uses V' e') :
    Keeps V V' a b e e' := by
  refine ⟨huses, ?_, fun h => ?_⟩
  · rintro ⟨op', x₁, y₁, hop, hnode, hx₁, hy₁⟩
    have hnode := (Arena.node_eq_of_getElem? hnode).symm.trans he
    cases hnode
    exact ⟨op, x', y', hop, he', hx hx₁, hy hy₁⟩
  · cases h with
    | comparison hnode hx₁ hy₁ =>
      have hnode := (Arena.node_eq_of_getElem? hnode).symm.trans he
      cases hnode
      exact .comparison he' (hx hx₁) (hy hy₁)
    | disjunction hnode => cases (Arena.node_eq_of_getElem? hnode).symm.trans he
    | conjunction hnode => cases (Arena.node_eq_of_getElem? hnode).symm.trans he

theorem Keeps.join {c : Connective} {items items' : List ExprId} (he : a.node e = .join c items)
    (he' : items' = [e'] ∨ b.table.items[e']? = some (.join c items'))
    (hitems : List.Forall₂ (Keeps V V' a b) items items') (huses : a.Uses V e → b.Uses V' e') :
    Keeps V V' a b e e' := by
  refine ⟨huses, ?_, fun h => ?_⟩
  · rintro ⟨op, x, y, -, hnode, -, -⟩
    cases (Arena.node_eq_of_getElem? hnode).symm.trans he
  · cases h with
    | comparison hnode => cases (Arena.node_eq_of_getElem? hnode).symm.trans he
    | disjunction hnode h =>
      cases (Arena.node_eq_of_getElem? hnode).symm.trans he
      have hall : ∀ i' ∈ items', b.Inequality V' i' := fun i' hi' => by
        obtain ⟨i, hi, hkeeps⟩ := exists_of_forall₂ hitems hi'
        exact hkeeps.inequality (h i hi)
      rcases he' with rfl | he'
      · exact (hall e' List.mem_cons_self).shaped
      · exact .disjunction he' hall
    | conjunction hnode h =>
      cases (Arena.node_eq_of_getElem? hnode).symm.trans he
      have hall : ∀ i' ∈ items', b.Shaped V' i' := fun i' hi' => by
        obtain ⟨i, hi, hkeeps⟩ := exists_of_forall₂ hitems hi'
        exact hkeeps.shaped (h i hi)
      rcases he' with rfl | he'
      · exact hall e' List.mem_cons_self
      · exact .conjunction he' hall

theorem Keeps.mono {c : Arena α} (hbc : b ≤ c) (h : Keeps V V' a b e e') : Keeps V V' a c e e' :=
  ⟨fun he => (h.uses he).mono hbc, fun he => (h.inequality he).mono hbc,
    fun he => (h.shaped he).mono hbc⟩

/-- Constructors keep the kinds of expressions. -/
theorem transports_keeps (hV : Leaves σ V V') (hσ : ∀ s x, σ s = some x → a.Uses V' x) :
    Transports (.all α) σ a (Keeps V V' a) := by
  have huses := transports_uses hV hσ
  have hstands {b : Arena α} {x x' : ExprId} (h : Stands (Keeps V V' a) b x x') :
      Stands (fun b e e' => a.Uses V e → b.Uses V' e') b x x' := ⟨h.uses, h.related.uses⟩
  exact {
    mono := fun _ hbc h => h.related.mono hbc
    num := fun he hn => .of_arithmetic (by simp [hn]) (by simp [hn]) (huses.num he hn)
    sym := fun he hn => .of_arithmetic (by simp [hn]) (by simp [hn]) (huses.sym he hn)
    neg := fun hn hb hx hle he' => .of_arithmetic (by simp [hn]) (by simp [hn])
      (huses.neg hn hb (hstands hx) hle he')
    arith := fun hn hb hx hy hle he' => .of_arithmetic (by simp [hn]) (by simp [hn])
      (huses.arith hn hb (hstands hx) (hstands hy) hle he')
    call := fun hn hb hargs hle he' => .of_arithmetic (by simp [hn]) (by simp [hn])
      (huses.call hn hb (hargs.imp fun _ _ => hstands) hle he')
    compare := fun hn hb hx hy hle he' => .compare hn (getElem?_intern _ none hb)
      (hx.related.mono hle).uses (hy.related.mono hle).uses
      (huses.compare hn hb (hstands hx) (hstands hy) hle he')
    join := by
      intro b c e items items' hn hne hb hitems hle he'
      refine .join hn ?_ (hitems.imp fun _ _ hi => hi.related.mono hle)
        (huses.join hn hne hb (hitems.imp fun _ _ => hstands) hle he')
      rcases items' with _ | ⟨x, _ | ⟨y, rest⟩⟩
      · exact absurd rfl hne
      · exact .inl rfl
      · exact .inr (getElem?_intern _ none hb) }

/-- A substitution turns a constraint into a constraint. -/
theorem leads_substitute_shaped (hV : Leaves σ V V') (hσ : ∀ s x, σ s = some x → a.Uses V' x)
    (ha : a.WellFormed) (huses : a.Uses (.all α) e) (he : a.Shaped V e) :
    Leads (substitute σ e) a fun b e' => b.Shaped V' e' := by
  obtain ⟨hb, hle, hstands⟩ := (transports_keeps hV hσ).substitute
    (fun s x hs => (hσ s x hs).all) ha huses
  exact ⟨hb, hle, hstands.related.shaped he⟩

end Build

end HybridPlan
