import HybridPlan.Proofs.Expr.Carrying
import HybridPlan.Proofs.Expr.Constructors

set_option autoImplicit false

/-! # What a substitution establishes

A substitution goes through an expression once and builds its result with the folding constructors.
So whatever the constructors pass on from operands to results, the substitution passes on from
expressions to what replaces them. -/

namespace HybridPlan.Build

variable {α : Type} [Scalar α]

/-! ## Relations that constructors pass on -/

/-- In the arena `b` there is an expression `e'` related to `e`. -/
structure Stands (T : Arena α → ExprId → ExprId → Prop) (b : Arena α) (e e' : ExprId) : Prop where
  uses : b.Uses (.all α) e'
  related : T b e e'

/-- What a construction makes in the arena `b` is related to `e`. -/
def Makes (T : Arena α → ExprId → ExprId → Prop) (b : Arena α) (m : Build α ExprId) (e : ExprId) :
    Prop :=
  b ≤ (m.run b).2 → (m.run b).2.Uses (.all α) (m.run b).1 → T (m.run b).2 e (m.run b).1

/-- The relation stays when the arena grows. -/
structure Persists (T : Arena α → ExprId → ExprId → Prop) : Prop where
  mono : ∀ {b c : Arena α} {e e' : ExprId}, b.WellFormed → b ≤ c → Stands T b e e' → T c e e'

/-- A relation between expressions of a vocabulary in the arena `a` and expressions in larger arenas
that holds of symbols and their replacements, and is passed on by constructors. -/
structure Transports (V : Vocabulary α) (σ : Substitution) (a : Arena α)
    (T : Arena α → ExprId → ExprId → Prop) : Prop extends Persists T where
  num : ∀ {e : ExprId} {x : α}, a.Uses V e → a.node e = .num x → T a e e
  sym : ∀ {e : ExprId} {s : String}, a.Uses V e → a.node e = .sym s → T a e ((σ s).getD e)
  neg : ∀ {b : Arena α} {e x x' : ExprId}, a.node e = .neg x → b.WellFormed →
    Stands T b x x' → Makes T b (neg x') e
  arith : ∀ {b : Arena α} {op : ArithOp} {e x y x' y' : ExprId}, a.node e = .arith op x y →
    b.WellFormed → Stands T b x x' → Stands T b y y' → Makes T b (arith op x' y') e
  call : ∀ {b : Arena α} {f : Func} {e : ExprId} {args args' : List ExprId},
    a.node e = .call f args → b.WellFormed → List.Forall₂ (Stands T b) args args' →
    Makes T b (call f args') e
  compare : ∀ {b : Arena α} {op : Comparison} {e x y x' y' : ExprId},
    a.node e = .compare op x y → b.WellFormed → Stands T b x x' → Stands T b y y' →
    Makes T b (compare op x' y') e
  join : ∀ {b : Arena α} {c : Connective} {e : ExprId} {items items' : List ExprId},
    a.node e = .join c items → items' ≠ [] → b.WellFormed →
    List.Forall₂ (Stands T b) items items' → Makes T b (join c items') e

section

variable {V : Vocabulary α} {σ : Substitution} {a b c : Arena α}
  {T : Arena α → ExprId → ExprId → Prop} {e e' : ExprId}

theorem Persists.stands (hT : Persists T) (hb : b.WellFormed) (hbc : b ≤ c)
    (h : Stands T b e e') : Stands T c e e' :=
  ⟨h.uses.mono hbc, hT.mono hb hbc h⟩

theorem uses_of_forall₂ {l l' : List ExprId} (h : List.Forall₂ (Stands T c) l l') :
    ∀ x ∈ l', c.Uses (.all α) x := by
  induction h with
  | nil => exact fun x hx => absurd hx List.not_mem_nil
  | cons he _ ih => exact List.forall_mem_cons.2 ⟨he.uses, ih⟩

/-! ## Substitution -/

/-- What a construction makes from expressions that are there stands for `e`. -/
theorem Makes.stands {m : Build α ExprId} {C : Set ExprId} (h : Makes T b m e) (hb : b.WellFormed)
    (hC : ∀ x ∈ C, b.Uses (.all α) x) (hm : Yields (.all α) C m ({·})) :
    Stands T (m.run b).2 e (m.run b).1 := by
  obtain ⟨-, hle, huses⟩ := hm b hb hC
  exact ⟨huses _ rfl, h hle (huses _ rfl)⟩

/-- What constructors pass on from expressions of a vocabulary, they carry over. -/
theorem Transports.carries (hT : Transports V σ a T)
    (hσ : ∀ s x, σ s = some x → a.Uses (.all α) x) :
    Carries σ a fun b e e' => a.Uses V e → Stands T b e e' where
  mono hb hbc h huses := hT.stands hb hbc (h.related huses)
  num _ hn huses := ⟨huses.all, hT.num huses hn⟩
  sym {e s} _ hn huses := by
    refine ⟨?_, hT.sym huses hn⟩
    cases hs : σ s with
    | none => exact huses.all
    | some e' => exact hσ s e' hs
  neg {b e x x'} hn hb hx huses := by
    have hx := hx.related (huses.operand (by simp [hn, Node.operands]))
    exact (hT.neg hn hb hx).stands hb (C := {x'}) (by rintro _ rfl; exact hx.uses)
      (yields_neg Vocabulary.closed_all rfl)
  arith {b op e x y x' y'} hn hb hx hy huses := by
    have hx := hx.related (huses.operand (by simp [hn, Node.operands]))
    have hy := hy.related (huses.operand (by simp [hn, Node.operands]))
    exact (hT.arith hn hb hx hy).stands hb (C := {x', y'})
      (by rintro _ (rfl | rfl); exacts [hx.uses, hy.uses])
      (yields_arith Vocabulary.closed_all op (.inl rfl) (.inr rfl))
  call {b f e args args'} hn hb hargs huses := by
    have hargs : List.Forall₂ (Stands T b) args args' := forall₂_imp_of_mem hargs
      fun x hx _ h => h.related (huses.operand (by simpa [hn, Node.operands] using hx))
    exact (hT.call hn hb hargs).stands hb (C := {x | x ∈ args'}) (uses_of_forall₂ hargs)
      (yields_call Vocabulary.closed_all trivial fun x hx => hx)
  compare {b op e x y x' y'} hn hb hx hy huses := by
    have hx := hx.related (huses.operand (by simp [hn, Node.operands]))
    have hy := hy.related (huses.operand (by simp [hn, Node.operands]))
    exact (hT.compare hn hb hx hy).stands hb (C := {x', y'})
      (by rintro _ (rfl | rfl); exacts [hx.uses, hy.uses])
      (yields_compare trivial (.inl rfl) (.inr rfl))
  join {b k e items items'} hn hb hitems huses := by
    have hitems : List.Forall₂ (Stands T b) items items' := forall₂_imp_of_mem hitems
      fun x hx _ h => h.related (huses.operand (by simpa [hn, Node.operands] using hx))
    have hallows := huses.holds
    rw [hn] at hallows
    have hne : items ≠ [] := hallows.2
    have hne' : items' ≠ [] := by
      rwa [← List.length_pos_iff, ← hitems.length_eq, List.length_pos_iff]
    exact (hT.join hn hne' hb hitems).stands hb (C := {x | x ∈ items'}) (uses_of_forall₂ hitems)
      (yields_join trivial hne' fun x hx => hx)

/-- A relation that is passed on by constructors holds of an expression and its replacement. -/
theorem Transports.substitute (hT : Transports V σ a T)
    (hσ : ∀ s x, σ s = some x → a.Uses (.all α) x) (ha : a.WellFormed) (he : a.Uses V e) :
    ((substitute σ e).run a).2.WellFormed ∧ a ≤ ((substitute σ e).run a).2 ∧
      Stands T ((substitute σ e).run a).2 e ((substitute σ e).run a).1 := by
  have h := (hT.carries hσ).substitute (fun s x hs => (hσ s x hs).lt_size) ha he.lt_size
  exact ⟨h.wellFormed, h.grows.le, h.holds.related he⟩

end

/-! ## Vocabularies -/

section

variable {V V' : Vocabulary α} {σ : Substitution} {a : Arena α} {C : Set ExprId} {e : ExprId}

/-- A vocabulary that is left when the symbols of a substitution are replaced: it has what the other
has, apart from the symbols that are replaced. -/
structure Leaves (σ : Substitution) (V V' : Vocabulary α) : Prop extends V'.Closed where
  literal : ∀ x, V.literal x → V'.literal x
  symbol : ∀ s, V.symbol s → σ s = none → V'.symbol s
  function : ∀ f n, V.function f n → V'.function f n
  constraint : V.constraint → V'.constraint

theorem Leaves.refl (hV : V.Closed) : Leaves σ V V :=
  ⟨hV, fun _ h => h, fun _ h _ => h, fun _ _ h => h, fun h => h⟩

/-- A substitution leaves an expression of the one vocabulary in the other. -/
theorem transports_uses (hV : Leaves σ V V') (hσ : ∀ s x, σ s = some x → a.Uses V' x) :
    Transports (.all α) σ a fun b e e' => a.Uses V e → b.Uses V' e' where
  mono _ hbc h he := (h.related he).mono hbc
  num {e x} he hn huses := by
    have hx := huses.holds
    rw [hn] at hx
    refine .node he.getElem? (hn ▸ hV.literal _ hx) fun y hy => ?_
    rw [hn] at hy
    exact absurd hy List.not_mem_nil
  sym {e s} he hn huses := by
    have hs := huses.holds
    rw [hn] at hs
    cases hσs : σ s with
    | some x => exact hσ s x hσs
    | none =>
      refine .node he.getElem? (hn ▸ hV.symbol s hs hσs) fun y hy => ?_
      rw [hn] at hy
      exact absurd hy List.not_mem_nil
  neg hn hb hx _ _ huses := by
    have hx := hx.related (huses.operand (by simp [hn, Node.operands]))
    exact (yields_neg hV.toClosed (C := {_}) rfl _ hb (by rintro _ rfl; exact hx)).2.2 _ rfl
  arith {b op e x y x' y'} hn hb hx hy _ _ huses := by
    have hx := hx.related (huses.operand (by simp [hn, Node.operands]))
    have hy := hy.related (huses.operand (by simp [hn, Node.operands]))
    exact (yields_arith hV.toClosed op (C := {x', y'}) (.inl rfl) (.inr rfl) _ hb
      (by rintro _ (rfl | rfl); exacts [hx, hy])).2.2 _ rfl
  call {b f e args args'} hn hb hargs _ _ huses := by
    have hf := huses.holds
    rw [hn] at hf
    refine (yields_call hV.toClosed (C := {x | x ∈ args'}) (hargs.length_eq ▸ hV.function f _ hf)
      (fun x hx => hx) _ hb fun x hx => ?_).2.2 _ rfl
    obtain ⟨i, hi, hstands⟩ := exists_of_forall₂ hargs hx
    exact hstands.related (huses.operand (by simpa [hn, Node.operands] using hi))
  compare {b op e x y x' y'} hn hb hx hy _ _ huses := by
    have hconstraint := huses.holds
    rw [hn] at hconstraint
    have hx := hx.related (huses.operand (by simp [hn, Node.operands]))
    have hy := hy.related (huses.operand (by simp [hn, Node.operands]))
    exact (yields_compare (hV.constraint hconstraint) (C := {x', y'}) (.inl rfl) (.inr rfl) _ hb
      (by rintro _ (rfl | rfl); exacts [hx, hy])).2.2 _ rfl
  join {b c e items items'} hn hne hb hitems _ _ huses := by
    have hconstraint := huses.holds
    rw [hn] at hconstraint
    refine (yields_join (hV.constraint hconstraint.1) hne (C := {x | x ∈ items'}) (fun x hx => hx) _
      hb fun x hx => ?_).2.2 _ rfl
    obtain ⟨i, hi, hstands⟩ := exists_of_forall₂ hitems hx
    exact hstands.related (huses.operand (by simpa [hn, Node.operands] using hi))

/-- A substitution stays in the vocabulary of the expression and of its replacements. -/
theorem yields_substitute (hV : V.Closed) (hσ : ∀ s x, σ s = some x → x ∈ C) (he : e ∈ C) :
    Yields V C (substitute σ e) ({·}) := by
  intro a ha hC
  have hreplaced : ∀ s x, σ s = some x → a.Uses V x := fun s x hs => hC x (hσ s x hs)
  obtain ⟨hwf, hle, hstands⟩ := (transports_uses (.refl hV) hreplaced).substitute
    (fun s x hs => (hreplaced s x hs).all) ha (hC e he).all
  exact ⟨hwf, hle, fun _ hx => hx ▸ hstands.related (hC e he)⟩

end

/-- The replacements of a list are those of its pairs. -/
theorem mem_of_ofList {pairs : List (String × ExprId)} {s : String} {x : ExprId}
    (h : Substitution.ofList pairs s = some x) : (s, x) ∈ pairs := by
  obtain ⟨pair, hpair, rfl⟩ := Option.map_eq_some_iff.1 h
  have hs := List.find?_some hpair
  rw [decide_eq_true_eq] at hs
  subst hs
  exact List.mem_reverse.1 (List.mem_of_find?_eq_some hpair)

theorem not_mem_of_ofList {pairs : List (String × ExprId)} {s : String}
    (h : Substitution.ofList pairs s = none) (x : ExprId) : (s, x) ∉ pairs := by
  rw [Substitution.ofList, Option.map_eq_none_iff, List.find?_eq_none] at h
  intro hx
  exact h (s, x) (List.mem_reverse.2 hx) (decide_eq_true rfl)

end HybridPlan.Build
