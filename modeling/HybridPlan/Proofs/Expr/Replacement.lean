import HybridPlan.Proofs.Expr.Judgement
import HybridPlan.Proofs.Expr.Substitution

set_option autoImplicit false

/-! # What a substitution keeps

If every symbol is replaced by an expression that has its value, an expression keeps its value as far
as this is real, and a constraint is judged as before. The table of results and the folding
constructors do not show. -/

namespace HybridPlan

open Exact (real Refines)

/-! ## Translations -/

namespace Arena

/-- What `e` says in the arena `a`, `e'` says in the arena `b`: it has the value, as far as this is
real, and is judged alike. -/
structure Conveys (ops : ArithOp → Exact → Exact → Exact) (a : Arena Exact)
    (v : Valuation Exact) (b : Arena Exact) (v' : Valuation Exact) (e e' : ExprId) : Prop where
  value : ∀ u, a.Value ops v e u → ∃ u', b.Value ops v' e' u' ∧ Refines u u'
  judges : ∀ {Ω : Type} (J : Judgement Ω) (ω : Ω), a.Judges ops J v e ω → b.Judges ops J v' e' ω

/-- What `e` says in the arena `a`, `e'` says in the arena `b`. -/
structure Translates (ops : ArithOp → Exact → Exact → Exact) (a : Arena Exact)
    (v : Valuation Exact) (b : Arena Exact) (v' : Valuation Exact) (e e' : ExprId) : Prop where
  uses : b.Uses (.all Exact) e'
  value : ∀ u, a.Value ops v e u → ∃ u', b.Value ops v' e' u' ∧ Refines u u'
  judges : ∀ {Ω : Type} (J : Judgement Ω) (ω : Ω), a.Judges ops J v e ω → b.Judges ops J v' e' ω

variable {ops : ArithOp → Exact → Exact → Exact} {a b c : Arena Exact} {v v' : Valuation Exact}
  {e e' : ExprId}

theorem Conveys.mono (hb : b.WellFormed) (hbc : b ≤ c) (he' : b.Has e')
    (h : a.Conveys ops v b v' e e') : a.Conveys ops v c v' e e' where
  value u hu := by
    obtain ⟨u', hu', hrefines⟩ := h.value u hu
    exact ⟨u', (agreeBelow_of_le hb hbc).value he' hu', hrefines⟩
  judges J ω hω := (agreeBelow_of_le hb hbc).judges he' (h.judges J ω hω)

theorem Translates.conveys (h : a.Translates ops v b v' e e') : a.Conveys ops v b v' e e' :=
  ⟨h.value, h.judges⟩

theorem Conveys.translates (h : a.Conveys ops v b v' e e') (he' : b.Uses (.all Exact) e') :
    a.Translates ops v b v' e e' :=
  ⟨he', h.value, h.judges⟩

theorem Translates.holdsIf {H : Comparison → ℝ → ℝ → Prop}
    (h : a.Translates ArithOp.strictly v b v' e e') (he : a.HoldsIf H v e) : b.HoldsIf H v' e' := by
  obtain ⟨p, hp, htrue⟩ := he
  exact ⟨p, h.judges _ p hp, htrue⟩

theorem Translates.mono (hb : b.WellFormed) (hbc : b ≤ c) (h : a.Translates ops v b v' e e') :
    a.Translates ops v c v' e e' :=
  (h.conveys.mono hb hbc h.uses.lt_size).translates (h.uses.mono hbc)

/-- What is translated may stand in another arena too. -/
theorem Translates.of_agreeBelow {n : Nat} (hagree : AgreeBelow n c a) (he : e < n)
    (h : a.Translates ops v b v' e e') : c.Translates ops v b v' e e' :=
  ⟨h.uses, fun u hu => h.value u (hagree.value he hu),
    fun J ω hω => h.judges J ω (hagree.judges he hω)⟩

/-- Arithmetic is not judged, so only its value matters. -/
theorem Conveys.of_number (hcompare : ∀ op x y, a.node e ≠ .compare op x y)
    (hjoin : ∀ c items, a.node e ≠ .join c items)
    (h : ∀ u, a.Value ops v e u → ∃ u', b.Value ops v' e' u' ∧ Refines u u') :
    a.Conveys ops v b v' e e' where
  value := h
  judges _ _ hω := absurd hω (not_judges hcompare hjoin)

theorem Conveys.of_compare {op : Comparison} {x y x' y' : ExprId}
    (he : a.node e = .compare op x y) (he' : b.node e' = .compare op x' y')
    (hx : a.Conveys ops v b v' x x') (hy : a.Conveys ops v b v' y y') :
    a.Conveys ops v b v' e e' := by
  refine ⟨fun u hu => ?_, fun J ω hω => ?_⟩
  · exact (hu.of_node he).elim
  · obtain ⟨q, r, hq, hr, rfl⟩ := (judges_compare he).1 hω
    obtain ⟨u', hu', hrefines⟩ := hx.value _ hq
    obtain ⟨w', hw', hrefines'⟩ := hy.value _ hr
    rw [hrefines q rfl] at hu'
    rw [hrefines' r rfl] at hw'
    exact .compare he' hu' hw'

/-- If the parts of a constraint are conveyed, so is the constraint. -/
theorem Conveys.of_join {k : Connective} {items items' : List ExprId}
    (he : a.node e = .join k items) (hitems : List.Forall₂ (a.Conveys ops v b v') items items')
    (he' : items' = [e'] ∨ b.node e' = .join k items') : a.Conveys ops v b v' e e' := by
  refine ⟨fun u hu => ?_, fun {Ω} J ω hω => ?_⟩
  · exact (hu.of_node he).elim
  · obtain ⟨f, hf, rfl⟩ := (judges_join he).1 hω
    rcases he' with rfl | he'
    · -- one part alone is the constraint
      cases hitems with
      | @cons i _ _ _ hi hrest =>
        cases hrest
        rw [List.map_singleton, J.join_singleton]
        exact hi.judges J _ (hf i List.mem_cons_self)
    · have hjudged : ∀ i' ∈ items', ∃ ω, b.Judges ops J v' i' ω := fun i' hi' => by
        obtain ⟨i, hi, hconveys⟩ := exists_of_forall₂ hitems hi'
        exact ⟨f i, hconveys.judges J _ (hf i hi)⟩
      have : Nonempty Ω := ⟨J.join k []⟩
      choose! f' hf' using hjudged
      rw [map_eq_of_forall₂ hitems fun i hi i' hi' hconveys =>
        (hconveys.judges J _ (hf i hi)).unique (hf' i' hi')]
      exact .join he' f' hf'

end Arena

/-! ## Replacements -/

namespace Build

/-- The symbols with a value under `v` have it under `v'`, or are replaced by expressions of `a` that
have it. -/
structure Rebinds (ops : ArithOp → Exact → Exact → Exact) (a : Arena Exact)
    (v v' : Valuation Exact) (σ : Substitution) : Prop where
  value : ∀ s e u, σ s = some e → v s = some u → ∃ u', a.Value ops v' e u' ∧ Refines u u'
  keeps : ∀ s u, σ s = none → v s = some u → v' s = some u

/-- The symbols of `a` with a value under `v` have it under `v'`, or are replaced by expressions that
have it. -/
structure Replaces (ops : ArithOp → Exact → Exact → Exact) (a : Arena Exact)
    (v v' : Valuation Exact) (σ : Substitution) : Prop where
  uses : ∀ s e, σ s = some e → a.Uses (.all Exact) e
  value : ∀ s e u, σ s = some e → v s = some u → ∃ u', a.Value ops v' e u' ∧ Refines u u'
  keeps : ∀ s u, σ s = none → v s = some u → v' s = some u

variable {ops : ArithOp → Exact → Exact → Exact} {a : Arena Exact} {v v' : Valuation Exact}
  {e : ExprId} {σ : Substitution}

/-- Constructors carry over what expressions say. -/
theorem carries_conveys (hops : ArithOp.Lawful ops) (hσ : Rebinds ops a v v' σ) :
    Carries σ a fun b e e' => a.Conveys ops v b v' e e' where
  mono hb hbc h := h.related.mono hb hbc h.has
  num {e x} _ hn := by
    refine .of_number (by simp [hn]) (by simp [hn]) fun u hu => ?_
    obtain rfl : x = u := hu.of_node hn
    exact ⟨x, .num hn, .rfl⟩
  sym {e s} _ hn := by
    refine .of_number (by simp [hn]) (by simp [hn]) fun u hu => ?_
    rw [Arena.value_iff, hn] at hu
    cases hs : σ s with
    | none => exact ⟨u, .sym hn (hσ.keeps s u hs hu), .rfl⟩
    | some e' => exact hσ.value s e' u hs hu
  neg {b e x x'} hn hb hx := by
    refine .of_number (by simp [hn]) (by simp [hn]) fun u hu => ?_
    obtain ⟨w, hw, rfl⟩ := hu.of_node hn
    obtain ⟨w', hw', hrefines⟩ := hx.related.value w hw
    exact (valued_neg hb hx.has hw').of_refines hrefines.neg
  arith {b op e x y x' y'} hn hb hx hy := by
    refine .of_number (by simp [hn]) (by simp [hn]) fun u hu => ?_
    obtain ⟨w₁, w₂, hw₁, hw₂, rfl⟩ := hu.of_node hn
    obtain ⟨w₁', hw₁', hrefines₁⟩ := hx.related.value w₁ hw₁
    obtain ⟨w₂', hw₂', hrefines₂⟩ := hy.related.value w₂ hw₂
    exact (valued_arith hb hx.has hy.has hw₁' hw₂' hops op).of_refines
      (hops.refines hrefines₁ hrefines₂)
  call {b f e args args'} hn hb hargs := by
    refine .of_number (by simp [hn]) (by simp [hn]) fun u hu => ?_
    rw [Arena.value_iff, hn] at hu
    rcases f with f | _
    · rcases args with _ | ⟨x, _ | _⟩
      · exact hu.elim
      · obtain ⟨w, hw, rfl⟩ := hu
        obtain ⟨x', _, hx, ⟨⟩, rfl⟩ := List.forall₂_cons_left_iff.1 hargs
        obtain ⟨w', hw', hrefines⟩ := hx.related.value w hw
        exact (valued_call hb hx.has hw' f).of_refines hrefines.value
      · exact hu.elim
    · exact hu.elim
  compare {b op e x y x' y'} hn hb hx hy := by
    have hle := le_intern b (.compare op x' y') none
    exact .of_compare hn (Arena.node_eq_of_getElem? (getElem?_intern _ none hb))
      (hx.related.mono hb hle hx.has) (hy.related.mono hb hle hy.has)
  join {b k e items items'} hn hb hitems := by
    have hle := (extends_join k hb (has_of_forall₂ hitems)).grows.le
    refine .of_join hn (hitems.imp fun _ _ hi => hi.related.mono hb hle hi.has) ?_
    rcases items' with _ | ⟨x, _ | ⟨y, rest⟩⟩
    · exact .inr (Arena.node_eq_of_getElem? (getElem?_intern _ none hb))
    · exact .inl rfl
    · exact .inr (Arena.node_eq_of_getElem? (getElem?_intern _ none hb))

theorem Replaces.rebinds (hσ : Replaces ops a v v' σ) : Rebinds ops a v v' σ :=
  ⟨hσ.value, hσ.keeps⟩

/-- A substitution whose replacements have the values of the symbols translates expressions. -/
theorem substitute_translates (hops : ArithOp.Lawful ops) (ha : a.WellFormed)
    (hσ : Replaces ops a v v' σ) (he : a.Uses (.all Exact) e) :
    a.Translates ops v ((substitute σ e).run a).2 v' e ((substitute σ e).run a).1 := by
  obtain ⟨-, -, huses⟩ := yields_substitute (C := {x | a.Uses (.all Exact) x})
    Vocabulary.closed_all hσ.uses he a ha fun x hx => hx
  have hconveys := (carries_conveys hops hσ.rebinds).substitute
    (fun s x hs => (hσ.uses s x hs).lt_size) ha he.lt_size
  exact hconveys.holds.related.translates (huses _ rfl)

end Build

end HybridPlan
