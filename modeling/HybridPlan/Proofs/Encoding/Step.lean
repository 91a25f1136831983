import HybridPlan.Encoding
import HybridPlan.Proofs.Except
import HybridPlan.Proofs.Expr.Growth
import HybridPlan.Proofs.Program.Growth

set_option autoImplicit false

/-! # Steps of the encoding

What each part of the encoding does to the program when it succeeds, said once. A part is described
by the states before and behind it; all that is shown about programs follows from these
descriptions. -/

namespace HybridPlan

/-- From `s` to `s'` by one step for each item of a list, in their order. -/
inductive Steps {σ ι : Type} (Q : ι → σ → σ → Prop) : List ι → σ → σ → Prop
  | nil {s : σ} : Steps Q [] s s
  | cons {i : ι} {l : List ι} {s s₁ s' : σ} (h : Q i s s₁) (hl : Steps Q l s₁ s') :
      Steps Q (i :: l) s s'

theorem Steps.imp {σ ι : Type} {Q Q' : ι → σ → σ → Prop} {l : List ι} {s s' : σ}
    (hQ : ∀ i ∈ l, ∀ s s', Q i s s' → Q' i s s') (h : Steps Q l s s') : Steps Q' l s s' := by
  induction h with
  | nil => exact .nil
  | cons h _ ih =>
    exact .cons (hQ _ List.mem_cons_self _ _ h) (ih fun i hi => hQ i (List.mem_cons_of_mem _ hi))

variable {α : Type} [Scalar α]

namespace Encoding

variable {ι κ : Type} {s s' : State α}

/-! ## Successful steps -/

theorem run_bind (m : Encode α ι) (f : ι → Encode α κ) (s : State α) :
    (m >>= f).run s = m.run s >>= fun r => (f r.1).run r.2 := rfl

theorem run_bind_eq_ok {m : Encode α ι} {f : ι → Encode α κ} {k : κ} :
    (m >>= f).run s = .ok (k, s') ↔
      ∃ i s₁, m.run s = .ok (i, s₁) ∧ (f i).run s₁ = .ok (k, s') := by
  rw [run_bind]
  cases m.run s with
  | error e => simp [bind, Except.bind]
  | ok r =>
    constructor
    · intro h
      exact ⟨r.1, r.2, rfl, h⟩
    · rintro ⟨i, s₁, hr, h⟩
      cases hr
      exact h

theorem run_pure_eq_ok {i j : ι} :
    (pure i : Encode α ι).run s = .ok (j, s') ↔ j = i ∧ s' = s := by
  constructor
  · intro h
    cases h
    exact ⟨rfl, rfl⟩
  · rintro ⟨rfl, rfl⟩
    rfl

theorem run_get {f : State α → Encode α κ} : (get >>= f).run s = (f s).run s := rfl

theorem not_run_throw {e : EncodingError α} {i : ι} :
    (throw e : Encode α ι).run s ≠ .ok (i, s') := fun h => by cases h

/-! ## Changes of the state -/

namespace State

variable (s : State α)

/-- The number of a new term. -/
def made (m : Terms.Make α TermId) : TermId := (m.run s.program.terms).1

/-- The state with a new term. -/
def makes (m : Terms.Make α TermId) : State α :=
  { s with program := { s.program with terms := (m.run s.program.terms).2 } }

def withVar (v : ProgramVar α) : State α := { s with program := s.program.withVar v }

def withRow (r : Row α) : State α := { s with program := s.program.withRow r }

theorem makes_bind (m : Terms.Make α TermId) (f : TermId → Terms.Make α TermId) :
    s.makes (m >>= f) = (s.makes m).makes (f (s.made m)) := rfl

theorem made_bind (m : Terms.Make α TermId) (f : TermId → Terms.Make α TermId) :
    s.made (m >>= f) = (s.makes m).made (f (s.made m)) := rfl

/-- The state with a row over a new term. -/
def makesRow (name : String) (bounds : α × α) (m : Terms.Make α TermId) : State α :=
  (s.makes m).withRow ⟨name, bounds.1, s.made m, bounds.2⟩

/-- The state that knows the term of an expression. -/
def learns (e : ExprId) (scope : Scope) (t : TermId) : State α :=
  { s with known := s.known.insert (e, scope) t }

/-- The state with a new term for an expression. -/
def encodes (e : ExprId) (scope : Scope) (m : Terms.Make α TermId) : State α :=
  (s.makes m).learns e scope (s.made m)

end State

theorem make_eq_ok {m : Terms.Make α TermId} {t : TermId} :
    (make m).run s = .ok (t, s') ↔ t = s.made m ∧ s' = s.makes m := by
  constructor
  · intro h
    cases h
    exact ⟨rfl, rfl⟩
  · rintro ⟨rfl, rfl⟩
    rfl

theorem learn_eq_ok {e : ExprId} {scope : Scope} {t u : TermId} :
    (modify (fun s : State α => { s with known := s.known.insert (e, scope) t }) >>= fun _ =>
      (pure t : Encode α TermId)).run s = .ok (u, s') ↔ u = t ∧ s' = s.learns e scope t :=
  run_pure_eq_ok

/-- A new term is known from then on. -/
theorem make_learn_eq_ok {e : ExprId} {scope : Scope} {m : Terms.Make α TermId} {t : TermId} :
    (make m >>= fun u => modify (fun s : State α => { s with known := s.known.insert (e, scope) u }) >>=
      fun _ => pure u).run s = .ok (t, s') ↔ t = s.made m ∧ s' = s.encodes e scope m := by
  rw [run_bind_eq_ok]
  constructor
  · rintro ⟨u, s₁, hmake, hlearn⟩
    obtain ⟨rfl, rfl⟩ := make_eq_ok.1 hmake
    exact learn_eq_ok.1 hlearn
  · rintro ⟨rfl, rfl⟩
    exact ⟨_, _, make_eq_ok.2 ⟨rfl, rfl⟩, learn_eq_ok.2 ⟨rfl, rfl⟩⟩

theorem run_extend_of_ok {m : Program.Extend α ι} {i : ι} {q : Program α}
    (h : m.run.run s.program = (.ok i, q)) : (extend m).run s = .ok (i, { s with program := q }) := by
  rw [StateT.run, extend, h]

theorem run_extend_of_error {m : Program.Extend α ι} {e : ProgramError α} {q : Program α}
    (h : m.run.run s.program = (.error e, q)) : (extend m).run s = .error (.program e) := by
  rw [StateT.run, extend, h]

theorem extend_eq_ok {m : Program.Extend α ι} {i : ι} :
    (extend m).run s = .ok (i, s') ↔
      ∃ q, m.run.run s.program = (.ok i, q) ∧ s' = { s with program := q } := by
  rcases hresult : m.run.run s.program with ⟨r, q⟩
  cases r with
  | error e =>
    rw [run_extend_of_error hresult]
    constructor
    · intro h
      cases h
    · rintro ⟨q', h, -⟩
      cases h
  | ok j =>
    rw [run_extend_of_ok hresult]
    constructor
    · intro h
      cases h
      exact ⟨q, rfl, rfl⟩
    · rintro ⟨q', h, rfl⟩
      cases h
      rfl

theorem extend_eq_error {m : Program.Extend α ι} {e : EncodingError α}
    (h : (extend m).run s = .error e) :
    ∃ e' q, m.run.run s.program = (.error e', q) ∧ e = .program e' := by
  rcases hresult : m.run.run s.program with ⟨r, q⟩
  cases r with
  | ok i =>
    rw [run_extend_of_ok hresult] at h
    cases h
  | error e' =>
    rw [run_extend_of_error hresult] at h
    cases h
    exact ⟨e', q, rfl, rfl⟩

theorem addVar_eq_ok {name : String} {domain : VarDomain} {lower upper : α} {v : VarId} :
    (extend (Program.addVar name domain lower upper)).run s = .ok (v, s') ↔
      s.program.varOf? name = none ∧
        ¬Scalar.lt (Program.newVar name domain lower upper).upper
          (Program.newVar name domain lower upper).lower ∧
        v = s.program.vars.size ∧ s' = s.withVar (Program.newVar name domain lower upper) := by
  rw [extend_eq_ok]
  constructor
  · rintro ⟨q, h, rfl⟩
    obtain ⟨hname, hbounds, hv, rfl⟩ := Program.addVar_eq_ok.1 h
    exact ⟨hname, hbounds, hv, rfl⟩
  · rintro ⟨hname, hbounds, hv, rfl⟩
    exact ⟨_, Program.addVar_eq_ok.2 ⟨hname, hbounds, hv, rfl⟩, rfl⟩

theorem addRow_eq_ok {name : String} {lower : α} {body : TermId} {upper : α} :
    (extend (Program.addRow name lower body upper)).run s = .ok ((), s') →
      s' = s.withRow ⟨name, lower, body, upper⟩ := by
  intro h
  obtain ⟨q, hq, rfl⟩ := extend_eq_ok.1 h
  obtain ⟨-, rfl⟩ := Program.addRow_eq_ok.1 hq
  rfl

theorem makesRow_of_run {name : String} {bounds : α × α} {m : Terms.Make α TermId}
    (h : (make m >>= fun body => extend (Program.addRow name bounds.1 body bounds.2)).run s =
      .ok ((), s')) : s' = s.makesRow name bounds m := by
  obtain ⟨body, s₁, hbody, hrow⟩ := run_bind_eq_ok.1 h
  obtain ⟨rfl, rfl⟩ := make_eq_ok.1 hbody
  exact addRow_eq_ok hrow

theorem var_eq_ok {name : String} {v : VarId} :
    (var name).run s = .ok (v, s') ↔ s.program.varOf? name = some v ∧ s' = s := by
  unfold var
  rw [run_get]
  cases s.program.varOf? name with
  | none => exact ⟨fun h => (by cases h), fun h => by cases h.1⟩
  | some w =>
    rw [run_pure_eq_ok, Option.some.injEq]
    exact and_congr_left fun _ => eq_comm

/-! ## Terms -/

/-- What a symbol stands for in a scope: a number, or the variable of a name. -/
def reading? (p : Problem α) (scope : Scope) (name : String) : Option (α ⊕ String) :=
  match p.domain.resolve? name with
  | some (.constant c) => some (.inl c)
  | some .tolerance => some (.inl p.feastol)
  | some (.var v) => some (.inr (varName v scope))
  | some (.next v) =>
    match scope with
    | .stage t => some (.inr (stageVar v.name.text (t + 1)))
    | .goal _ => none
  | none => none

theorem symbol_eq_ok {p : Problem α} {scope : Scope} {label name : String} {t : TermId}
    (h : (symbol p scope label name).run s = .ok (t, s')) :
    (∃ c, reading? p scope name = some (.inl c) ∧ t = s.made (Terms.const c) ∧
      s' = s.makes (Terms.const c)) ∨
    ∃ x v, reading? p scope name = some (.inr x) ∧ s.program.varOf? x = some v ∧
      t = s.made (Terms.var v) ∧ s' = s.makes (Terms.var v) := by
  have hvariable {x : String} (hx : reading? p scope name = some (.inr x))
      (h : (var x >>= fun v => make (Terms.var v)).run s = .ok (t, s')) :
      ∃ x v, reading? p scope name = some (.inr x) ∧ s.program.varOf? x = some v ∧
        t = s.made (Terms.var v) ∧ s' = s.makes (Terms.var v) := by
    obtain ⟨v, s₁, hv, hmake⟩ := run_bind_eq_ok.1 h
    obtain ⟨hv, rfl⟩ := var_eq_ok.1 hv
    exact ⟨x, v, hx, hv, make_eq_ok.1 hmake⟩
  unfold symbol at h
  cases hresolve : p.domain.resolve? name with
  | none =>
    rw [hresolve] at h
    exact absurd h not_run_throw
  | some r =>
    rw [hresolve] at h
    cases r with
    | constant c => exact .inl ⟨c, by rw [reading?, hresolve], make_eq_ok.1 h⟩
    | tolerance => exact .inl ⟨p.feastol, by rw [reading?, hresolve], make_eq_ok.1 h⟩
    | var v => exact .inr (hvariable (by rw [reading?, hresolve]) h)
    | next v =>
      cases scope with
      | stage t => exact .inr (hvariable (by rw [reading?, hresolve]) h)
      | goal horizon => exact absurd h not_run_throw

/-- The term of an expression: one that is known, or a new one over the terms of the operands. -/
inductive TermFor (p : Problem α) (scope : Scope) : ExprId → State α → TermId → State α → Prop
  | known {e : ExprId} {s : State α} {t : TermId} (h : s.known[(e, scope)]? = some t) :
      TermFor p scope e s t s
  | constant {e : ExprId} {s : State α} {c : α}
      (he : p.arena.node e = .num c ∨
        ∃ name, p.arena.node e = .sym name ∧ reading? p scope name = some (.inl c)) :
      TermFor p scope e s (s.made (Terms.const c)) (s.encodes e scope (Terms.const c))
  | var {e : ExprId} {s : State α} {name x : String} {v : VarId} (he : p.arena.node e = .sym name)
      (hx : reading? p scope name = some (.inr x)) (hv : s.program.varOf? x = some v) :
      TermFor p scope e s (s.made (Terms.var v)) (s.encodes e scope (Terms.var v))
  | neg {e a : ExprId} {s s₁ : State α} {t : TermId} (he : p.arena.node e = .neg a)
      (ha : TermFor p scope a s t s₁) :
      TermFor p scope e s (s₁.made (Terms.neg t)) (s₁.encodes e scope (Terms.neg t))
  | arith {op : ArithOp} {e a b : ExprId} {s s₁ s₂ : State α} {t u : TermId}
      (he : p.arena.node e = .arith op a b) (ha : TermFor p scope a s t s₁)
      (hb : TermFor p scope b s₁ u s₂) :
      TermFor p scope e s (s₂.made (arith op t u)) (s₂.encodes e scope (arith op t u))
  | call {f : Elementary} {e a : ExprId} {s s₁ : State α} {t : TermId}
      (he : p.arena.node e = .call (.elementary f) [a]) (ha : TermFor p scope a s t s₁) :
      TermFor p scope e s (s₁.made (Terms.call f t)) (s₁.encodes e scope (Terms.call f t))

variable {p : Problem α} {scope : Scope} {label : String}

theorem termFor_of_run (hp : p.arena.WellFormed) {n : Nat} {e : ExprId} (hn : e < n) {t : TermId}
    (h : (termBelow p scope label n e).run s = .ok (t, s')) : TermFor p scope e s t s' := by
  induction n generalizing e s t s' with
  | zero => exact absurd hn (Nat.not_lt_zero e)
  | succ n ih =>
    have hoperand {x : ExprId} (hx : x ∈ (p.arena.node e).operands) : x < n :=
      Nat.lt_of_lt_of_le (hp.lt_of_mem_operands hx) (Nat.le_of_lt_succ hn)
    unfold termBelow at h
    rw [run_get] at h
    split at h
    · next t' hknown =>
      obtain ⟨rfl, rfl⟩ := run_pure_eq_ok.1 h
      exact .known hknown
    · -- a new term is made, and from then on it is known
      split at h
      · next c hc =>
        obtain ⟨rfl, rfl⟩ := make_learn_eq_ok.1 h
        exact .constant (.inl hc)
      · next name hname =>
        obtain ⟨u, s₁, hu, h⟩ := run_bind_eq_ok.1 h
        obtain ⟨rfl, rfl⟩ := learn_eq_ok.1 h
        rcases symbol_eq_ok hu with ⟨c, hc, rfl, rfl⟩ | ⟨x, v, hx, hv, rfl, rfl⟩
        · exact .constant (.inr ⟨name, hname, hc⟩)
        · exact .var hname hx hv
      · next a hnode =>
        obtain ⟨u, s₁, hu, h⟩ := run_bind_eq_ok.1 h
        obtain ⟨rfl, rfl⟩ := make_learn_eq_ok.1 h
        exact .neg hnode (ih (hoperand (by simp [hnode, Node.operands])) hu)
      · next op a b hnode =>
        obtain ⟨u, s₁, hu, h⟩ := run_bind_eq_ok.1 h
        obtain ⟨v, s₂, hv, h⟩ := run_bind_eq_ok.1 h
        obtain ⟨rfl, rfl⟩ := make_learn_eq_ok.1 h
        exact .arith hnode (ih (hoperand (by simp [hnode, Node.operands])) hu)
          (ih (hoperand (by simp [hnode, Node.operands])) hv)
      · next f a hnode =>
        obtain ⟨u, s₁, hu, h⟩ := run_bind_eq_ok.1 h
        obtain ⟨rfl, rfl⟩ := make_learn_eq_ok.1 h
        exact .call hnode (ih (hoperand (by simp [hnode, Node.operands])) hu)
      all_goals
        obtain ⟨u, s₁, hu, -⟩ := run_bind_eq_ok.1 h
        exact absurd hu not_run_throw

theorem term_eq_ok (hp : p.arena.WellFormed) {e : ExprId} {t : TermId}
    (h : (term p scope label e).run s = .ok (t, s')) : TermFor p scope e s t s' :=
  termFor_of_run hp (Nat.lt_succ_self e) h

/-! ## Rows -/

theorem comparison_eq_ok (hp : p.arena.WellFormed) {op : Comparison} {x y : ExprId}
    (h : (comparison p scope label op x y).run s = .ok ((), s')) :
    ∃ t s₁ u s₂, TermFor p scope x s t s₁ ∧ TermFor p scope y s₁ u s₂ ∧
      s' = s₂.makesRow label (comparisonBounds p.feastol op) (Terms.sub t u) := by
  obtain ⟨t, s₁, ht, h⟩ := run_bind_eq_ok.1 h
  obtain ⟨u, s₂, hu, h⟩ := run_bind_eq_ok.1 h
  exact ⟨t, s₁, u, s₂, term_eq_ok hp ht, term_eq_ok hp hu, makesRow_of_run h⟩

/-- The name of the switch of a disjunct. -/
def switchName (label : String) (position : Nat) : String := s!"Aux_{label}_{position}"

/-- The switch of a disjunct. -/
def switch (label : String) (position : Nat) : ProgramVar α :=
  Program.newVar (switchName label position) .binary Scalar.zero Scalar.one

/-- The body of the row of a disjunct: the difference of two terms, lifted by a switch. -/
def lifted (bigM : α) (t u z : TermId) : Terms.Make α TermId := do
  let difference ← Terms.sub t u
  let bigM ← Terms.const bigM
  let lift ← Terms.mul z bigM
  Terms.sub difference lift

theorem makesRow_lifted (s : State α) (name : String) (bounds : α × α) (bigM : α)
    (t u z : TermId) : s.makesRow name bounds (lifted bigM t u z) =
      let s₁ := s.makes (Terms.sub t u)
      let s₂ := s₁.makes (Terms.const bigM)
      let s₃ := s₂.makes (Terms.mul z (s₁.made (Terms.const bigM)))
      s₃.makesRow name bounds
        (Terms.sub (s.made (Terms.sub t u)) (s₂.made (Terms.mul z (s₁.made (Terms.const bigM))))) := by
  unfold lifted State.makesRow
  simp only [State.makes_bind, State.made_bind]

/-- The row of a disjunct, over the terms of its sides and of its new switch. -/
inductive DisjunctFor (p : Problem α) (scope : Scope) (label : String) (position : Nat)
    (item : ExprId) (s : State α) : TermId → State α → Prop
  | mk {op : Comparison} {x y : ExprId} {q : Inequality} {s₀ s₁ s₂ s' : State α}
      {z t u : TermId}
      (he : p.arena.node item = .compare op x y) (hq : Inequality.of? op x y = some q)
      (hname : s.program.varOf? (switchName label position) = none)
      (hz : z = (s.withVar (switch label position)).made (Terms.var s.program.vars.size))
      (hs₀ : s₀ = (s.withVar (switch label position)).makes (Terms.var s.program.vars.size))
      (ht : TermFor p scope q.lhs s₀ t s₁) (hu : TermFor p scope q.rhs s₁ u s₂)
      (hs : s' = s₂.makesRow s!"{label}_or_{position}"
        (switchBounds p.bigM p.feastol q.strict) (lifted p.bigM t u z)) :
      DisjunctFor p scope label position item s z s'

theorem disjunct_eq_ok (hp : p.arena.WellFormed) {position : Nat} {item : ExprId} {z : TermId}
    (h : (disjunct p scope label position item).run s = .ok (z, s')) :
    DisjunctFor p scope label position item s z s' := by
  unfold disjunct at h
  split at h
  · next op x y he =>
    split at h
    · exact absurd h not_run_throw
    · next q hq =>
      obtain ⟨v, s₁, hv, h⟩ := run_bind_eq_ok.1 h
      obtain ⟨hname, -, rfl, rfl⟩ := addVar_eq_ok.1 hv
      obtain ⟨z', s₂, hz, h⟩ := run_bind_eq_ok.1 h
      obtain ⟨rfl, rfl⟩ := make_eq_ok.1 hz
      obtain ⟨t, s₃, ht, h⟩ := run_bind_eq_ok.1 h
      obtain ⟨u, s₄, hu, h⟩ := run_bind_eq_ok.1 h
      obtain ⟨difference, s₅, hdifference, h⟩ := run_bind_eq_ok.1 h
      obtain ⟨rfl, rfl⟩ := make_eq_ok.1 hdifference
      obtain ⟨bigM, s₆, hbigM, h⟩ := run_bind_eq_ok.1 h
      obtain ⟨rfl, rfl⟩ := make_eq_ok.1 hbigM
      obtain ⟨lift, s₇, hlift, h⟩ := run_bind_eq_ok.1 h
      obtain ⟨rfl, rfl⟩ := make_eq_ok.1 hlift
      obtain ⟨body, s₈, hbody, h⟩ := run_bind_eq_ok.1 h
      obtain ⟨rfl, rfl⟩ := make_eq_ok.1 hbody
      obtain ⟨⟨⟩, s₉, hrow, h⟩ := run_bind_eq_ok.1 h
      obtain rfl := addRow_eq_ok hrow
      obtain ⟨rfl, rfl⟩ := run_pure_eq_ok.1 h
      refine .mk he hq hname rfl rfl (term_eq_ok hp ht) (term_eq_ok hp hu) ?_
      rw [makesRow_lifted]
      rfl
  · exact absurd h not_run_throw

/-- The rows of disjuncts, and the terms of their switches. -/
inductive DisjunctsFor (p : Problem α) (scope : Scope) (label : String) :
    Nat → List ExprId → State α → List TermId → State α → Prop
  | nil {i : Nat} {s : State α} : DisjunctsFor p scope label i [] s [] s
  | cons {i : Nat} {item : ExprId} {items : List ExprId} {z : TermId} {zs : List TermId}
      {s s₁ s' : State α} (h : DisjunctFor p scope label i item s z s₁)
      (hs : DisjunctsFor p scope label (i + 1) items s₁ zs s') :
      DisjunctsFor p scope label i (item :: items) s (z :: zs) s'

theorem disjuncts_eq_ok (hp : p.arena.WellFormed) {i : Nat} {items : List ExprId}
    {zs : List TermId} (h : (disjuncts p scope label i items).run s = .ok (zs, s')) :
    DisjunctsFor p scope label i items s zs s' := by
  induction items generalizing i s zs with
  | nil =>
    obtain ⟨rfl, rfl⟩ := run_pure_eq_ok.1 h
    exact .nil
  | cons item items ih =>
    obtain ⟨z, s₁, hz, h⟩ := run_bind_eq_ok.1 h
    obtain ⟨zs', s₂, hzs, h⟩ := run_bind_eq_ok.1 h
    obtain ⟨rfl, rfl⟩ := run_pure_eq_ok.1 h
    exact .cons (disjunct_eq_ok hp hz) (ih hzs)

theorem disjunction_eq_ok (hp : p.arena.WellFormed) {items : List ExprId}
    (h : (disjunction p scope label items).run s = .ok ((), s')) :
    ∃ zs s₁, DisjunctsFor p scope label 0 items s zs s₁ ∧
      s' = s₁.makesRow s!"{label}_or" (-Scalar.infinity, Scalar.nat zs.length - Scalar.one)
        (Terms.sum zs) := by
  obtain ⟨zs, s₁, hzs, h⟩ := run_bind_eq_ok.1 h
  exact ⟨zs, s₁, disjuncts_eq_ok hp hzs, makesRow_of_run h⟩

/-! ## Constraints -/

theorem labelled_eq_ok {f : String → ι → Encode α Unit} {i : Nat} {xs : List ι}
    (h : (labelled f label i xs).run s = .ok ((), s')) :
    Steps (fun x s s' => (f s!"{label}_{x.2}" x.1).run s = .ok ((), s')) (xs.zipIdx i) s s' := by
  induction xs generalizing i s with
  | nil =>
    obtain ⟨-, rfl⟩ := run_pure_eq_ok.1 h
    exact .nil
  | cons x xs ih =>
    obtain ⟨⟨⟩, s₁, hx, h⟩ := run_bind_eq_ok.1 h
    exact .cons hx (ih h)

/-- What a comparison, a disjunction and, if their parts have it, conjunctions have, constraints
have. -/
theorem constraint_induction (hp : p.arena.WellFormed)
    {Q : String → ExprId → State α → State α → Prop}
    (comparison : ∀ {label op e x y s s₁ s₂ t u}, p.arena.node e = .compare op x y →
      TermFor p scope x s t s₁ → TermFor p scope y s₁ u s₂ →
      Q label e s (s₂.makesRow label (comparisonBounds p.feastol op) (Terms.sub t u)))
    (disjunction : ∀ {label e items s s₁ zs}, p.arena.node e = .join .or items →
      DisjunctsFor p scope label 0 items s zs s₁ →
      Q label e s (s₁.makesRow s!"{label}_or"
        (-Scalar.infinity, Scalar.nat zs.length - Scalar.one) (Terms.sum zs)))
    (conjunction : ∀ {label e items s s'}, p.arena.node e = .join .and items →
      Steps (fun x => Q s!"{label}_{x.2}" x.1) (items.zipIdx 0) s s' → Q label e s s')
    {e : ExprId} (h : (constraint p scope label e).run s = .ok ((), s')) : Q label e s s' := by
  suffices ∀ n, e < n → (constraintBelow p scope n label e).run s = .ok ((), s') →
    Q label e s s' from this (e + 1) (Nat.lt_succ_self e) h
  clear h
  intro n
  induction n generalizing label e s s' with
  | zero => exact fun he => absurd he (Nat.not_lt_zero e)
  | succ n ih =>
    intro he h
    unfold constraintBelow at h
    split at h
    · next items hnode =>
      refine conjunction hnode ((labelled_eq_ok h).imp fun x hx s s' hrun => ih ?_ hrun)
      have hmem : x.1 ∈ (p.arena.node e).operands := by
        rw [hnode]
        exact (List.mem_zipIdx' hx).2 ▸ List.getElem_mem _
      exact Nat.lt_of_lt_of_le (hp.lt_of_mem_operands hmem) (Nat.le_of_lt_succ he)
    · next op x y hnode =>
      obtain ⟨t, s₁, u, s₂, ht, hu, rfl⟩ := comparison_eq_ok hp h
      exact comparison hnode ht hu
    · next items hnode =>
      obtain ⟨zs, s₁, hzs, rfl⟩ := disjunction_eq_ok hp h
      exact disjunction hnode hzs
    · exact absurd h not_run_throw

/-! ## Stages -/

/-- A loop is a step for each item. -/
theorem for_eq_ok {f : ι → PUnit → Encode α (ForInStep PUnit)} {l : List ι} {u : PUnit}
    {Q : ι → State α → State α → Prop}
    (hf : ∀ i ∈ l, ∀ s r s', (f i ⟨⟩).run s = .ok (r, s') → r = .yield ⟨⟩ ∧ Q i s s')
    (h : (forIn l PUnit.unit f).run s = .ok (u, s')) : Steps Q l s s' := by
  induction l generalizing s with
  | nil =>
    obtain ⟨-, rfl⟩ := run_pure_eq_ok.1 h
    exact .nil
  | cons i l ih =>
    rw [List.forIn_cons] at h
    obtain ⟨r, s₁, hr, h⟩ := run_bind_eq_ok.1 h
    obtain ⟨rfl, hQ⟩ := hf i List.mem_cons_self s r s₁ hr
    exact .cons hQ (ih (fun i hi => hf i (List.mem_cons_of_mem _ hi)) h)

/-- A loop whose body is a part without result. -/
theorem for_unit_eq_ok {f : ι → Encode α Unit} {l : List ι} {u : PUnit}
    (h : (forIn l PUnit.unit fun i _ => do
      f i
      pure (ForInStep.yield PUnit.unit)).run s = .ok (u, s')) :
    Steps (fun i s s' => (f i).run s = .ok ((), s')) l s s' := by
  refine for_eq_ok (fun i _ s r s' hr => ?_) h
  obtain ⟨⟨⟩, s₁, hi, hr⟩ := run_bind_eq_ok.1 hr
  obtain ⟨rfl, rfl⟩ := run_pure_eq_ok.1 hr
  exact ⟨rfl, hi⟩

/-- The row that makes a variable equal to an expression. -/
inductive DefinitionFor (p : Problem α) (scope : Scope) (x : String) (e : ExprId) (row : String)
    (s : State α) : State α → Prop
  | mk {v : VarId} {t : TermId} {s₁ s' : State α} (hv : s.program.varOf? x = some v)
      (ht : TermFor p scope e (s.makes (Terms.var v)) t s₁)
      (hs : s' = s₁.makesRow row (Scalar.zero, Scalar.zero)
        (Terms.sub (s.made (Terms.var v)) t)) :
      DefinitionFor p scope x e row s s'

theorem definition_eq_ok (hp : p.arena.WellFormed) {x : String} {e : ExprId} {row : String}
    (h : (do
      let v ← var x
      let v ← make (Terms.var v)
      let t ← term p scope label e
      let body ← make (Terms.sub v t)
      extend (Program.addRow row Scalar.zero body Scalar.zero)).run s = .ok ((), s')) :
    DefinitionFor p scope x e row s s' := by
  obtain ⟨v, s₁, hvar, h₁⟩ := run_bind_eq_ok.1 h
  obtain ⟨hv, rfl⟩ := var_eq_ok.1 hvar
  obtain ⟨z, s₂, hz, h₂⟩ := run_bind_eq_ok.1 h₁
  obtain ⟨rfl, rfl⟩ := make_eq_ok.1 hz
  obtain ⟨t, s₃, ht, h₃⟩ := run_bind_eq_ok.1 h₂
  exact .mk hv (term_eq_ok hp ht) (makesRow_of_run h₃)

/-- The rows of constraints of a kind. -/
def ConstraintsFor (p : Problem α) (scope : Scope) (kind ending : String) (cs : List Constraint) :
    State α → State α → Prop :=
  Steps (fun x s s' => (constraint p scope (s!"{kind}_{x.2}" ++ ending) x.1.expr).run s =
    .ok ((), s')) (cs.zipIdx 0)

theorem constraints_eq_ok {kind ending : String} {cs : List Constraint}
    (h : (constraints p scope kind ending cs).run s = .ok ((), s')) :
    ConstraintsFor p scope kind ending cs s s' :=
  labelled_eq_ok h

/-- The row that links a state of two boundaries. -/
def TransitionFor (p : Problem α) (t : Nat) (x : String × ExprId) : State α → State α → Prop :=
  DefinitionFor p (.stage t) (stageVar x.1 (t + 1)) x.2 s!"transition_{x.1}_{t}"

theorem transition_eq_ok (hp : p.arena.WellFormed) {t : Nat} {x : String × ExprId}
    (h : (transition p t x.1 x.2).run s = .ok ((), s')) : TransitionFor p t x s s' := by
  unfold transition at h
  exact definition_eq_ok hp h

/-- The row that defines what a stage earns. -/
def RewardFor (p : Problem α) (t : Nat) : State α → State α → Prop :=
  DefinitionFor p (.stage t) (rewardVar t) p.domain.reward.expr s!"reward_{t}"

theorem reward_eq_ok (hp : p.arena.WellFormed) {t : Nat}
    (h : (reward p t).run s = .ok ((), s')) : RewardFor p t s s' := by
  unfold reward at h
  exact definition_eq_ok hp h

/-- The rows of a stage. -/
inductive StageFor (p : Problem α) (t : Nat) (s : State α) : State α → Prop
  | mk {s₁ s₂ s₃ s' : State α}
      (hinstantaneous : ConstraintsFor p (.stage t) "instantaneous" s!"_{t}" p.domain.instantaneous
        s s₁)
      (htemporal : ConstraintsFor p (.stage t) "temporal" s!"_{t}" p.domain.temporal s₁ s₂)
      (htransitions : Steps (TransitionFor p t) p.transitions s₂ s₃)
      (hreward : RewardFor p t s₃ s') : StageFor p t s s'

theorem stage_eq_ok (hp : p.arena.WellFormed) {t : Nat}
    (h : (stage p t).run s = .ok ((), s')) : StageFor p t s s' := by
  obtain ⟨⟨⟩, s₁, h₁, h⟩ := run_bind_eq_ok.1 h
  obtain ⟨⟨⟩, s₂, h₂, h⟩ := run_bind_eq_ok.1 h
  obtain ⟨⟨⟩, s₃, h₃, h⟩ := run_bind_eq_ok.1 h
  refine .mk (constraints_eq_ok h₁) (constraints_eq_ok h₂)
    (for_eq_ok (fun x _ s r s' hr => ?_) h₃) (reward_eq_ok hp h)
  obtain ⟨⟨⟩, s₄, hx, hr⟩ := run_bind_eq_ok.1 hr
  obtain ⟨rfl, rfl⟩ := run_pure_eq_ok.1 hr
  exact ⟨rfl, transition_eq_ok hp hx⟩

/-! ## Programs -/

/-- The label of the cut at a position of the store. -/
def cutLabel (k : Nat) (c : Cut α) : String := s!"generated_{k}_{c.stage}"

/-- The rows of cuts: none of a stage that the plan does not have. -/
def CutFor (p : Problem α) (horizon : Nat) (c : Cut α × Nat) (s s' : State α) : Prop :=
  if c.1.stage < horizon then
    (constraint p (.stage c.1.stage) (cutLabel c.2 c.1) c.1.expr).run s = .ok ((), s')
  else s' = s

theorem cuts_eq_ok {horizon k : Nat} {cs : List (Cut α)}
    (h : (cuts p horizon k cs).run s = .ok ((), s')) :
    Steps (CutFor p horizon) (cs.zipIdx k) s s' := by
  induction cs generalizing k s with
  | nil =>
    obtain ⟨-, rfl⟩ := run_pure_eq_ok.1 h
    exact .nil
  | cons c cs ih =>
    unfold cuts at h
    split at h
    · next hlt =>
      obtain ⟨⟨⟩, s₁, hc, h⟩ := run_bind_eq_ok.1 h
      exact .cons (by rwa [CutFor, if_pos hlt]) (ih h)
    · next hlt =>
      exact .cons (by rw [CutFor, if_neg hlt]) (ih h)

/-- The rows of a program: those of the start, of each stage, of the end, and of the cuts. -/
inductive RowsFor (p : Problem α) (horizon : Nat) (cs : List (Cut α)) (s : State α) :
    State α → Prop
  | mk {s₁ s₂ s₃ s' : State α}
      (hinitials : ConstraintsFor p (.stage 0) "initial" "" p.domain.initials s s₁)
      (hstages : Steps (StageFor p) (List.range horizon) s₁ s₂)
      (hgoals : if horizon > 0 then ConstraintsFor p (.goal horizon) "goal" "" p.domain.goals s₂ s₃
        else s₃ = s₂)
      (hcuts : Steps (CutFor p horizon) (cs.zipIdx 0) s₃ s') : RowsFor p horizon cs s s'

theorem rows_eq_ok (hp : p.arena.WellFormed) {horizon : Nat} {store : CutStore α}
    (h : (rows p horizon store).run s = .ok ((), s')) :
    RowsFor p horizon store.items.toList s s' := by
  unfold rows at h
  obtain ⟨⟨⟩, s₁, h₁, h⟩ := run_bind_eq_ok.1 h
  obtain ⟨⟨⟩, s₂, h₂, h⟩ := run_bind_eq_ok.1 h
  have hstages : Steps (StageFor p) (List.range horizon) s₁ s₂ :=
    (for_unit_eq_ok (f := stage p) h₂).imp fun t _ s s' ht => stage_eq_ok hp ht
  split at h
  · next hpos =>
    obtain ⟨⟨⟩, s₃, h₃, h⟩ := run_bind_eq_ok.1 h
    refine .mk (constraints_eq_ok h₁) hstages ?_ (cuts_eq_ok h)
    rw [if_pos hpos]
    exact constraints_eq_ok h₃
  · next hpos =>
    refine .mk (constraints_eq_ok h₁) hstages ?_ (cuts_eq_ok h)
    rw [if_neg hpos]

/-- The state whose program has an objective. -/
def State.withObjective (s : State α) (objective : List (VarId × α)) : State α :=
  { s with program := s.program.setObjective .maximize objective }

/-- The state in which the encoding begins. -/
def State.begin (α : Type) [Scalar α] (horizon : Nat) : State α where
  program := { name := s!"scipplan_h{horizon}" }

end Encoding

/-- An encoding declares the variables, and then states the rows. -/
theorem encode_eq_ok {p : Problem α} {horizon : Nat} {store : CutStore α} {e : EncodedProgram α}
    (h : encode p horizon store = .ok e) :
    e.horizon = horizon ∧ ∃ objective s s',
      (Encoding.declareAll p horizon).run (.begin α horizon) = .ok (objective, s) ∧
      (Encoding.rows p horizon store).run (s.withObjective objective) = .ok ((), s') ∧
      e.program = s'.program := by
  obtain ⟨⟨⟨⟩, s'⟩, hbuild, h⟩ := Except.bind_eq_ok.1 h
  cases h
  obtain ⟨objective, s, hdeclare, hrest⟩ := Encoding.run_bind_eq_ok.1 hbuild
  obtain ⟨⟨⟩, s₁, hset, hrows⟩ := Encoding.run_bind_eq_ok.1 hrest
  cases hset
  exact ⟨rfl, objective, s, s', hdeclare, hrows, rfl⟩

end HybridPlan
