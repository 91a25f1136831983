import HybridPlan.Proofs.Encoding.Growth
import HybridPlan.Proofs.Expr.Denotation
import HybridPlan.Proofs.Program.Value

set_option autoImplicit false

/-! # What the terms of an encoding mean

Over exact numbers the term of an expression in a scope has a real value exactly if the expression
denotes this number, the symbols being read in that scope. The translation keeps this for all terms
that it knows, so that it may use them again. -/

namespace HybridPlan

open Exact (real part)

/-! ## Symbols -/

namespace Scope

/-- The scopes that a plan with the given number of stages has. -/
def Within (horizon : Nat) : Scope → Prop
  | stage t => t < horizon
  | goal h => h = horizon

variable {α : Type} [Scalar α] {p : Problem α} {W : Valuation α} {scope : Scope} {name : String}

/-- The values of symbols in a scope, by those of the variables of the program. -/
def valuation (p : Problem α) (W : Valuation α) (scope : Scope) : Valuation α := fun name =>
  match Encoding.reading? p scope name with
  | some (.inl c) => some c
  | some (.inr y) => W y
  | none => none

theorem valuation_of_number {c : α} (h : Encoding.reading? p scope name = some (.inl c)) :
    scope.valuation p W name = some c := by
  rw [valuation, h]

theorem valuation_of_name {y : String} (h : Encoding.reading? p scope name = some (.inr y)) :
    scope.valuation p W name = W y := by
  rw [valuation, h]

/-- A value in a scope is a number, or that of a variable. -/
theorem reading_of_valuation {value : String → α} (hW : ∀ y w, W y = some w → value y = w) {u : α}
    (h : scope.valuation p W name = some u) :
    ∃ r, Encoding.reading? p scope name = some r ∧ r.elim id value = u := by
  unfold valuation at h
  cases hr : Encoding.reading? p scope name with
  | none => rw [hr] at h; cases h
  | some r =>
    rw [hr] at h
    cases r with
    | inl c => exact ⟨_, rfl, Option.some.inj h⟩
    | inr y => exact ⟨_, rfl, hW y u h⟩

end Scope

namespace Encoding

/-- A state of the translation in which the named variables have the values `W`, and all known terms
mean what their expressions denote. -/
structure State.Means (p : Problem Exact) (horizon : Nat) (W : Valuation Exact) (x : VarId → Exact)
    (s : State Exact) : Prop where
  wellFormed : s.WellFormed
  covers : ∀ scope name y, Scope.Within horizon scope → reading? p scope name = some (.inr y) →
    (W y).isSome
  named : ∀ y w, W y = some w → ∃ v, s.program.varOf? y = some v ∧ x v = w
  known : ∀ e scope t, Scope.Within horizon scope → s.known[(e, scope)]? = some t →
    ∀ r, s.program.terms.eval x t = real r ↔ p.arena.Denotes (scope.valuation p W) e r

variable {p : Problem Exact} {horizon : Nat} {W : Valuation Exact} {x x' : VarId → Exact}
  {s s' : State Exact} {N M : Set String} {scope : Scope} {e : ExprId} {t u z : TermId}

namespace State.Means

/-- Terms and symbols mean the same when the program grows, whatever the values of new variables
are. -/
theorem of_grows (hs : s.Means p horizon W x) (h : s.Grows N M s') (hknown : s'.known = s.known)
    (hx : ∀ v < s.program.vars.size, x' v = x v) : s'.Means p horizon W x' where
  wellFormed := h.wellFormed
  covers := hs.covers
  named y w hw := by
    obtain ⟨v, hv, hvalue⟩ := hs.named y w hw
    refine ⟨v, h.adds.varOf? hs.wellFormed.program h.wellFormed.program hv, ?_⟩
    rw [hx v (hs.wellFormed.program.lt_size hv), hvalue]
  known e scope t hscope ht r := by
    rw [hknown] at ht
    rw [h.adds.eval hs.wellFormed.program h.wellFormed.program hx (hs.wellFormed.known ht)]
    exact hs.known e scope t hscope ht r

theorem learns (hs : s.Means p horizon W x) (ht : t < s.program.terms.size)
    (h : ∀ r, s.program.terms.eval x t = real r ↔ p.arena.Denotes (scope.valuation p W) e r) :
    (s.learns e scope t).Means p horizon W x where
  wellFormed := hs.wellFormed.learns ht
  covers := hs.covers
  named := hs.named
  known e' scope' t' hscope ht' := by
    rw [State.learns, Std.HashMap.getElem?_insert] at ht'
    split at ht'
    · next heq =>
      cases eq_of_beq heq
      cases ht'
      exact h
    · exact hs.known e' scope' t' hscope ht'

variable {C : Set TermId} {m : Terms.Make Exact TermId}

/-- A new term of an expression has to have the number of the expression. -/
theorem encodes (hs : s.Means p horizon W x)
    (hm : Terms.Make.Yields s.program.vars.size C m ({·}))
    (hC : ∀ t ∈ C, t < s.program.terms.size)
    (h : ∀ r, m.value s.program.terms x = real r ↔ p.arena.Denotes (scope.valuation p W) e r) :
    (s.encodes e scope m).Means p horizon W x ∧ ∀ r,
      (s.encodes e scope m).program.terms.eval x (s.made m) = real r ↔
        p.arena.Denotes (scope.valuation p W) e r := by
  obtain ⟨hgrows, hnew⟩ := grows_makes (N := ∅) (M := ∅) hs.wellFormed hm hC
  exact ⟨(hs.of_grows hgrows rfl fun _ _ => rfl).learns hnew h, h⟩

end State.Means

/-! ## Terms -/

theorem value_arith {ts : Terms Exact} {n : Nat} (hts : ts.WellFormed n) (op : ArithOp)
    (ht : t < ts.size) (hu : u < ts.size) {r : ℝ} :
    (arith op t u).value ts x = real r ↔ ∃ q q', ts.eval x t = real q ∧ ts.eval x u = real q' ∧
      op.apply (real q) (real q') = real r := by
  cases op with
  | add =>
    have hsum : part ((Terms.add t u).value ts x) = part (ts.eval x t + ts.eval x u) := by
      refine (Terms.part_value_sum hts [t, u] (by simp [ht, hu])).trans ?_
      rw [Exact.part_add, List.map_cons, List.map_singleton, List.sum_cons, List.sum_singleton]
    rw [arith, ← Exact.part_eq, hsum, Exact.part_eq, Exact.add_eq_real]
    simp [ArithOp.apply]
  | sub =>
    rw [arith, ← Exact.part_eq, Terms.part_value_sub hts ht hu, Exact.part_eq, Exact.sub_eq_real]
    simp [ArithOp.apply]
  | mul =>
    rw [arith, ← Exact.part_eq, Terms.part_value_mul hts ht hu, Exact.part_eq, Exact.mul_eq_real]
    simp [ArithOp.apply]
  | div =>
    rw [arith, ← Exact.part_eq, Terms.part_value_div hts ht hu, Exact.part_eq, Exact.div_eq_real]
    simp [ArithOp.apply, Exact.div_eq_real]
  | pow =>
    rw [arith, ← Exact.part_eq, Terms.part_value_pow hts ht hu, Exact.part_eq, Exact.pow_eq_real]
    simp [ArithOp.apply, Exact.powReal_real, Exact.pow_eq_real]

theorem value_lifted {ts : Terms Exact} {n : Nat} (hts : ts.WellFormed n) (bigM : Exact)
    (ht : t < ts.size) (hu : u < ts.size) (hz : z < ts.size) {r : ℝ} :
    (lifted bigM t u z).value ts x = real r ↔ ∃ q q' ζ M, ts.eval x t = real q ∧
      ts.eval x u = real q' ∧ ts.eval x z = real ζ ∧ bigM = real M ∧ q - q' - ζ * M = r := by
  -- the difference, the constant and the product are made first, each in the table of the last
  obtain ⟨hts₁, hle₁, hd⟩ := Terms.yields_sub (C := {t, u}) (.inl rfl) (.inr rfl) ts hts
    (by rintro _ (rfl | rfl); exacts [ht, hu])
  have hdifference := Terms.part_value_sub (x := x) hts ht hu
  rcases hrun₁ : (Terms.sub t u).run ts with ⟨d, ts₁⟩
  rw [Terms.Make.value, hrun₁] at hdifference
  rw [hrun₁] at hts₁ hle₁ hd
  obtain ⟨hts₂, hle₂, hb⟩ := Terms.yields_const (C := ∅) bigM ts₁ hts₁ fun _ h => h.elim
  have hconst := Terms.value_const (x := x) hts₁ bigM
  rcases hrun₂ : (Terms.const bigM).run ts₁ with ⟨b, ts₂⟩
  rw [Terms.Make.value, hrun₂] at hconst
  rw [hrun₂] at hts₂ hle₂ hb
  have hz₂ := Nat.lt_of_lt_of_le hz (Interner.size_mono (le_trans hle₁ hle₂))
  obtain ⟨hts₃, hle₃, hl⟩ := Terms.yields_mul (C := {z, b}) (.inl rfl) (.inr rfl) ts₂ hts₂
    (by rintro _ (rfl | rfl); exacts [hz₂, hb _ rfl])
  have hlift := Terms.part_value_mul (x := x) hts₂ hz₂ (hb _ rfl)
  rcases hrun₃ : (Terms.mul z b).run ts₂ with ⟨l, ts₃⟩
  rw [Terms.Make.value, hrun₃, hconst,
    Terms.eval_mono hts hts₂ (le_trans hle₁ hle₂) (fun _ _ => rfl) hz] at hlift
  rw [hrun₃] at hts₃ hle₃ hl
  have hd₃ := Nat.lt_of_lt_of_le (hd d rfl) (Interner.size_mono (le_trans hle₂ hle₃))
  rw [lifted, Terms.value_bind, hrun₁, Terms.value_bind, hrun₂, Terms.value_bind, hrun₃,
    ← Exact.part_eq, Terms.part_value_sub hts₃ hd₃ (hl l rfl), Exact.part_eq, Exact.sub_eq_real,
    Terms.eval_mono hts₁ hts₃ (le_trans hle₂ hle₃) (fun _ _ => rfl) (hd d rfl)]
  simp only [← Exact.part_eq, hdifference, hlift]
  simp only [Exact.part_eq, Exact.sub_eq_real, Exact.mul_eq_real]
  constructor
  · rintro ⟨_, _, ⟨q, q', hq, hq', rfl⟩, ⟨ζ, M, hζ, hM, rfl⟩, rfl⟩
    exact ⟨q, q', ζ, M, hq, hq', hζ, hM, rfl⟩
  · rintro ⟨q, q', ζ, M, hq, hq', hζ, hM, rfl⟩
    exact ⟨_, _, ⟨q, q', hq, hq', rfl⟩, ⟨ζ, M, hζ, hM, rfl⟩, rfl⟩

/-- The term of an expression means what the expression denotes. -/
theorem TermFor.means (h : TermFor p scope e s t s') (hs : s.Means p horizon W x)
    (hscope : Scope.Within horizon scope) : s'.Means p horizon W x ∧
      ∀ r, s'.program.terms.eval x t = real r ↔ p.arena.Denotes (scope.valuation p W) e r := by
  induction h with
  | known h => exact ⟨hs, hs.known _ scope _ hscope h⟩
  | constant he =>
    refine hs.encodes (C := ∅) (Terms.yields_const _) (fun _ h => h.elim) fun r => ?_
    rw [Terms.value_const hs.wellFormed.program.terms, Arena.denotes_iff]
    rcases he with he | ⟨name, he, hc⟩
    · rw [he]
      rfl
    · rw [he, Node.Denotes, Scope.valuation_of_number hc, Option.some.injEq]
  | var he hx hv =>
    have hlt := hs.wellFormed.program.lt_size hv
    refine hs.encodes (C := ∅) (Terms.yields_var hlt) (fun _ h => h.elim) fun r => ?_
    obtain ⟨w, hw⟩ := Option.isSome_iff_exists.1 (hs.covers scope _ _ hscope hx)
    obtain ⟨v', hv', rfl⟩ := hs.named _ w hw
    obtain rfl := Option.some.inj (hv'.symm.trans hv)
    rw [Terms.value_var hs.wellFormed.program.terms hlt, Arena.denotes_iff, he, Node.Denotes,
      Scope.valuation_of_name hx, hw, Option.some.injEq]
  | neg he ha iha =>
    obtain ⟨hmeans, hvalue⟩ := iha hs
    have ht := (ha.grows (N := ∅) (M := ∅) hs.wellFormed).2
    refine hmeans.encodes (C := {_}) (Terms.yields_neg rfl) (by rintro _ rfl; exact ht) fun r => ?_
    rw [Terms.value_neg hmeans.wellFormed.program.terms ht, Arena.denotes_iff, he, Node.Denotes,
      Exact.neg_eq_real]
    simp only [hvalue]
  | @arith op e a b s s₁ s₂ t u he ha hb iha ihb =>
    obtain ⟨hmeans, hvalue⟩ := iha hs
    obtain ⟨hmeans', hvalue'⟩ := ihb hmeans
    have ht := (ha.grows (N := ∅) (M := ∅) hs.wellFormed).2
    obtain ⟨hgrows, hu⟩ := hb.grows (N := ∅) (M := ∅) hmeans.wellFormed
    have heval := hgrows.adds.eval hmeans.wellFormed.program hmeans'.wellFormed.program
      (fun v _ => rfl) ht (x := x)
    have ht := Nat.lt_of_lt_of_le ht hgrows.terms_size
    refine hmeans'.encodes (C := {t, u}) (yields_arith op (.inl rfl) (.inr rfl))
      (by rintro _ (rfl | rfl); exacts [ht, hu]) fun r => ?_
    rw [value_arith hmeans'.wellFormed.program.terms op ht hu, Arena.denotes_iff, he, Node.Denotes,
      heval]
    simp only [hvalue, hvalue']
  | call he ha iha =>
    obtain ⟨hmeans, hvalue⟩ := iha hs
    have ht := (ha.grows (N := ∅) (M := ∅) hs.wellFormed).2
    refine hmeans.encodes (C := {_}) (Terms.yields_call _ rfl) (by rintro _ rfl; exact ht)
      fun r => ?_
    rw [Terms.value_call hmeans.wellFormed.program.terms ht, Arena.denotes_iff, he, Node.Denotes,
      Exact.value_eq_real]
    simp only [hvalue]

end Encoding

end HybridPlan
