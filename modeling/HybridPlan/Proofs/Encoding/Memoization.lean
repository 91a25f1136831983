import HybridPlan.Proofs.Encoding.Success
import HybridPlan.Proofs.Expr.Evaluation
import HybridPlan.Proofs.Program.Settling

set_option autoImplicit false

/-! # Terms that are known

An encoding knows the terms that it has made of expressions in their scopes, and does not make them again.
A translation that knows nothing comes to the same terms and the same program, or to the same error: a term
that is known is what the translation would make of the expression, and it would add nothing for it, however
many variables, rows and terms have come in between. -/

namespace HybridPlan

variable {α : Type} [Scalar α]

namespace Encoding

/-! ## Translations that know nothing -/

/-- The term of a node, given how its operands are translated. -/
def nodeTerm (p : Problem α) (scope : Scope) (label : String) (operand : ExprId → Encode α TermId)
    (e : ExprId) : Encode α TermId :=
  match p.arena.node e with
  | .num value => make (Terms.const value)
  | .sym s => symbol p scope label s
  | .neg x => do
    let x ← operand x
    make (Terms.neg x)
  | .arith op x y => do
    let x ← operand x
    let y ← operand y
    make (arith op x y)
  | .call (.elementary f) [x] => do
    let x ← operand x
    make (Terms.call f x)
  | .call (.elementary _) _ => throw (.unsupported label e .arguments)
  | .call .dd _ => throw (.unsupported label e .derivative)
  | .compare _ _ _ | .join _ _ => throw (.unsupported label e .notArithmetic)

/-- The term of an expression at most the given number of levels deep, where shared nodes are translated
anew. -/
def plainTermBelow (p : Problem α) (scope : Scope) (label : String) : Nat → ExprId → Encode α TermId
  | 0, _ => make (Terms.const Scalar.zero)
  | n + 1, e => nodeTerm p scope label (plainTermBelow p scope label n) e

/-- The term of an expression, by recursion alone. -/
def plainTerm (p : Problem α) (scope : Scope) (label : String) (e : ExprId) : Encode α TermId :=
  plainTermBelow p scope label (e + 1) e

/-- The state that knows nothing. -/
def State.forget (s : State α) : State α := { program := s.program }

variable {p : Problem α} {scope : Scope} {label : String} {e : ExprId} {n : Nat}

theorem nodeTerm_congr {operand operand' : ExprId → Encode α TermId}
    (h : ∀ x ∈ (p.arena.node e).operands, operand x = operand' x) :
    nodeTerm p scope label operand e = nodeTerm p scope label operand' e := by
  unfold nodeTerm
  cases hn : p.arena.node e with
  | num | sym | compare | join => rfl
  | neg x =>
    dsimp only
    rw [h x (by simp [hn, Node.operands])]
  | arith op x y =>
    dsimp only
    rw [h x (by simp [hn, Node.operands]), h y (by simp [hn, Node.operands])]
  | call f args =>
    rcases f with f | _
    · rcases args with _ | ⟨x, _ | ⟨y, args⟩⟩
      · rfl
      · dsimp only
        rw [h x (by simp [hn, Node.operands])]
      · rfl
    · rfl

theorem plainTermBelow_eq (hp : p.arena.WellFormed) (hn : e < n) :
    plainTermBelow p scope label n e = plainTerm p scope label e := by
  induction e using Nat.strong_induction_on generalizing n with
  | _ e ih =>
    obtain ⟨n, rfl⟩ := Nat.exists_eq_succ_of_ne_zero (Nat.ne_of_gt (Nat.zero_lt_of_lt hn))
    refine nodeTerm_congr fun x hx => ?_
    have hlt := hp.lt_of_mem_operands hx
    rw [ih x hlt (Nat.lt_of_lt_of_le hlt (Nat.le_of_lt_succ hn)), ih x hlt hlt]

/-- The recursion over the nodes of an expression. -/
theorem plainTerm_eq (hp : p.arena.WellFormed) (scope : Scope) (label : String) (e : ExprId) :
    plainTerm p scope label e = nodeTerm p scope label (plainTerm p scope label) e :=
  nodeTerm_congr fun _ hx => plainTermBelow_eq hp (hp.lt_of_mem_operands hx)

/-- A term that is not known is that of the node, and from then on it is known. -/
theorem termBelow_succ (p : Problem α) (scope : Scope) (label : String) (n : Nat) (e : ExprId) :
    termBelow p scope label (n + 1) e = do
      if let some t := (← get).known[(e, scope)]? then
        return t
      let t ← nodeTerm p scope label (termBelow p scope label n) e
      modify fun s => { s with known := s.known.insert (e, scope) t }
      return t := by
  rw [termBelow]
  refine bind_congr fun s => ?_
  cases s.known[(e, scope)]? with
  | some t => rfl
  | none =>
    unfold nodeTerm
    cases p.arena.node e with
    | num | sym | compare | join => rfl
    | neg x => simp only [bind_assoc]
    | arith op x y => simp only [bind_assoc]
    | call f args =>
      rcases f with f | _
      · rcases args with _ | ⟨x, _ | ⟨y, args⟩⟩
        · rfl
        · simp only [bind_assoc]
        · rfl
      · rfl

/-! ## Stable terms -/

variable {q q' : Program α} {m : Encode α TermId} {f : TermId → Encode α TermId} {t u : TermId}
  {s s₁ s' : State α}

/-- As long as variables and terms are only added, the translation gives the term, and adds nothing. -/
def Stable (q : Program α) (m : Encode α TermId) (t : TermId) : Prop :=
  ∀ ⦃r : Program α⦄, r.WellFormed → q.Extends r → m.run { program := r } = .ok (t, { program := r })

theorem Stable.mono (h : Stable q m t) (hq : q.Extends q') : Stable q' m t :=
  fun _ hr hext => h hr (hq.trans hext)

theorem Stable.bind (hm : Stable q m t) (hf : Stable q (f t) u) : Stable q (m >>= f) u := by
  intro r hr hext
  exact run_bind_eq_ok.2 ⟨t, _, hm hr hext, hf hr hext⟩

theorem stable_make {c : Terms.Make α TermId} (h : c.Settles s.program.terms) :
    Stable (s.makes c).program (make c) (s.made c) := by
  intro r hr hext
  have hagain := h.again r.terms hr.terms.table hext.terms
  refine make_eq_ok.2 ⟨(congrArg Prod.fst hagain).symm, ?_⟩
  rw [State.makes, hagain]

/-! ## Translations that agree -/

/-- What is known are the terms that the recursion finds. -/
structure State.Faithful (p : Problem α) (s : State α) : Prop extends s.WellFormed where
  stable : ∀ ⦃e : ExprId⦄ ⦃scope : Scope⦄ ⦃t : TermId⦄, s.known[(e, scope)]? = some t →
    ∀ label, Stable s.program (plainTerm p scope label e) t

/-- From `s` a translation has come to the term `t` and the state `s'`, and for every label `m` gives this term
from then on. -/
structure Settled (p : Problem α) (m : String → Encode α TermId) (s : State α) (t : TermId) (s' : State α) :
    Prop where
  faithful : s'.Faithful p
  program : s.program.Extends s'.program
  lt : t < s'.program.terms.size
  stable : ∀ label, Stable s'.program (m label) t

/-- From `s` the translation `m` fails like `m'` without knowledge, or comes to the same term and the same
program. -/
inductive Mirrors (p : Problem α) (label : String) (m : Encode α TermId) (m' : String → Encode α TermId)
    (s : State α) : Prop
  | fails {error : EncodingError α} (h : m.run s = .error error) (h' : (m' label).run s.forget = .error error)
  | succeeds {t : TermId} {s' : State α} (h : m.run s = .ok (t, s'))
      (h' : (m' label).run s.forget = .ok (t, s'.forget)) (hsettled : Settled p m' s t s')

namespace Mirrors

variable {m' : String → Encode α TermId} {f' : String → TermId → Encode α TermId}

theorem throw (error : String → EncodingError α) :
    Mirrors p label (throw (error label)) (fun l => throw (error l)) s :=
  .fails rfl rfl

theorem bind (hm : Mirrors p label m m' s)
    (hf : ∀ t s₁, Settled p m' s t s₁ → Mirrors p label (f t) (fun l => f' l t) s₁) :
    Mirrors p label (m >>= f) (fun l => m' l >>= f' l) s := by
  cases hm with
  | fails h h' => exact .fails (by rw [run_bind, h]; rfl) (by rw [run_bind, h']; rfl)
  | @succeeds t s₁ h h' hsettled =>
    cases hf t s₁ hsettled with
    | fails h₁ h₁' => exact .fails (by rw [run_bind, h]; exact h₁) (by rw [run_bind, h']; exact h₁')
    | @succeeds u s' h₁ h₁' hsettled' =>
      refine .succeeds (by rw [run_bind, h]; exact h₁) (by rw [run_bind, h']; exact h₁')
        ⟨hsettled'.faithful, hsettled.program.trans hsettled'.program, hsettled'.lt, fun l => ?_⟩
      exact ((hsettled.stable l).mono hsettled'.program).bind (hsettled'.stable l)

end Mirrors

theorem mirrors_make {C : Set TermId} {c : Terms.Make α TermId} (hs : s.Faithful p)
    (hc : Terms.Make.Yields s.program.vars.size C c ({·})) (hC : ∀ t ∈ C, t < s.program.terms.size)
    (hsettles : c.Settles s.program.terms) : Mirrors p label (make c) (fun _ => make c) s := by
  obtain ⟨hgrows, hlt⟩ := State.grows_makes (N := ∅) (M := ∅) hs.toWellFormed hc hC
  have hprogram := hgrows.adds.toExtends
  have hfaithful : (s.makes c).Faithful p :=
    ⟨hgrows.wellFormed, fun _ _ _ ht l => (hs.stable ht l).mono hprogram⟩
  exact .succeeds rfl rfl ⟨hfaithful, hprogram, hlt, fun _ => stable_make hsettles⟩

theorem mirrors_const (hs : s.Faithful p) (c : α) :
    Mirrors p label (make (Terms.const c)) (fun _ => make (Terms.const c)) s :=
  mirrors_make (C := ∅) hs (Terms.yields_const c) (fun _ h => h.elim)
    (Terms.settles_const hs.program.terms.table c)

/-- A name that has a variable keeps it. -/
theorem mirrors_var (hs : s.Faithful p) (name : String) :
    Mirrors p label (var name >>= fun v => make (Terms.var v))
      (fun _ => var name >>= fun v => make (Terms.var v)) s := by
  cases hv : s.program.varOf? name with
  | none =>
    have hrun (r : State α) (hr : r.program.varOf? name = none) :
        (var name >>= fun v => make (Terms.var v)).run r = .error (.unbound name) := by
      unfold var
      rw [bind_assoc, run_get, hr]
      rfl
    exact .fails (hrun s hv) (hrun s.forget hv)
  | some v =>
    have hrun (r : State α) (hr : r.program.varOf? name = some v) :
        (var name >>= fun v => make (Terms.var v)).run r = (make (Terms.var v)).run r := by
      unfold var
      rw [bind_assoc, run_get, hr]
      rfl
    have hmake : Mirrors p label (make (Terms.var v)) (fun _ => make (Terms.var v)) s :=
      mirrors_make (C := ∅) hs (Terms.yields_var (hs.program.lt_size hv)) (fun _ h => h.elim)
        (Terms.settles_var hs.program.terms.table v)
    cases hmake with
    | fails h h' => exact .fails ((hrun s hv).trans h) ((hrun s.forget hv).trans h')
    | @succeeds t s' h h' hsettled =>
      refine .succeeds ((hrun s hv).trans h) ((hrun s.forget hv).trans h')
        ⟨hsettled.faithful, hsettled.program, hsettled.lt, fun l r hr hext => ?_⟩
      have hkept := (hsettled.program.trans hext).varOf? hs.program hr hv
      exact (hrun _ hkept).trans (hsettled.stable l hr hext)

theorem mirrors_symbol (hs : s.Faithful p) (name : String) :
    Mirrors p label (symbol p scope label name) (fun l => symbol p scope l name) s := by
  unfold symbol
  cases p.domain.resolve? name with
  | none => exact .throw fun _ => .unbound name
  | some r =>
    cases r with
    | constant c => exact mirrors_const hs c
    | tolerance => exact mirrors_const hs p.feastol
    | var v => exact mirrors_var hs _
    | next v =>
      cases scope with
      | stage t => exact mirrors_var hs _
      | goal h => exact .throw fun l => .misplaced l name .nextAtEnd

theorem settles_arith (op : ArithOp) {ts : Terms α} (h : Interner.WellFormed ts) (ht : t < ts.size)
    (hu : u < ts.size) : (arith op t u).Settles ts := by
  cases op with
  | add => exact Terms.settles_add h ht hu
  | sub => exact Terms.settles_sub h ht hu
  | mul => exact Terms.settles_mul h ht hu
  | div => exact Terms.settles_div h ht hu
  | pow => exact Terms.settles_pow h ht hu

/-- A node is translated with knowledge as without if its operands are. -/
theorem nodeTerm_mirrors {operand : ExprId → Encode α TermId} {operand' : String → ExprId → Encode α TermId}
    (hs : s.Faithful p)
    (h : ∀ x ∈ (p.arena.node e).operands, ∀ s : State α, s.Faithful p →
      Mirrors p label (operand x) (fun l => operand' l x) s) :
    Mirrors p label (nodeTerm p scope label operand e) (fun l => nodeTerm p scope l (operand' l) e) s := by
  unfold nodeTerm
  cases hn : p.arena.node e with
  | num c => exact mirrors_const hs c
  | sym name => exact mirrors_symbol hs name
  | neg x =>
    refine .bind (h x (by simp [hn, Node.operands]) s hs) fun t s₁ ht => ?_
    exact mirrors_make ht.faithful (Terms.yields_neg rfl) (by rintro _ rfl; exact ht.lt)
      (Terms.settles_neg ht.faithful.program.terms.table ht.lt)
  | arith op x y =>
    refine .bind (h x (by simp [hn, Node.operands]) s hs) fun t s₁ ht => ?_
    refine .bind (h y (by simp [hn, Node.operands]) s₁ ht.faithful) fun u s₂ hu => ?_
    have hlt : t < s₂.program.terms.size := Nat.lt_of_lt_of_le ht.lt (Interner.size_mono hu.program.terms)
    have hyields : Terms.Make.Yields s₂.program.vars.size {t, u} (arith (α := α) op t u) ({·}) :=
      yields_arith op (.inl rfl) (.inr rfl)
    exact mirrors_make hu.faithful hyields (by rintro _ (rfl | rfl); exacts [hlt, hu.lt])
      (settles_arith op hu.faithful.program.terms.table hlt hu.lt)
  | call f args =>
    rcases f with f | _
    · rcases args with _ | ⟨x, _ | ⟨y, args⟩⟩
      · exact .throw fun l => .unsupported l e .arguments
      · refine .bind (h x (by simp [hn, Node.operands]) s hs) fun t s₁ ht => ?_
        exact mirrors_make ht.faithful (Terms.yields_call f rfl) (by rintro _ rfl; exact ht.lt)
          (Terms.settles_call ht.faithful.program.terms.table f ht.lt)
      · exact .throw fun l => .unsupported l e .arguments
    · exact .throw fun l => .unsupported l e .derivative
  | compare | join => exact .throw fun l => .unsupported l e .notArithmetic

/-- A term that the recursion has found can be entered. -/
theorem Settled.learns (h : Settled p (fun l => plainTerm p scope l e) s t s') :
    Settled p (fun l => plainTerm p scope l e) s t (s'.learns e scope t) where
  faithful := by
    refine ⟨h.faithful.toWellFormed.learns h.lt, fun e' scope' t' ht l => ?_⟩
    rw [State.learns, Std.HashMap.getElem?_insert] at ht
    split at ht
    · next heq =>
      cases eq_of_beq heq
      cases ht
      exact h.stable l
    · exact h.faithful.stable ht l
  program := h.program
  lt := h.lt
  stable := h.stable

/-- What is known is what the recursion would find, and what the recursion finds is known from then on. -/
theorem termBelow_mirrors (hp : p.arena.WellFormed) (hn : e < n) (hs : s.Faithful p) :
    Mirrors p label (termBelow p scope label n e) (fun l => plainTerm p scope l e) s := by
  induction n generalizing e s with
  | zero => exact absurd hn (Nat.not_lt_zero e)
  | succ n ih =>
    have hnode : Mirrors p label (nodeTerm p scope label (termBelow p scope label n) e)
        (fun l => plainTerm p scope l e) s := by
      simp only [plainTerm_eq hp]
      exact nodeTerm_mirrors hs fun x hx s hs =>
        ih (Nat.lt_of_lt_of_le (hp.lt_of_mem_operands hx) (Nat.le_of_lt_succ hn)) hs
    rw [termBelow_succ]
    -- a known term is stable, so that the recursion gives it, too, and adds nothing to the program for it
    cases hknown : s.known[(e, scope)]? with
    | some t =>
      have hstable := hs.stable hknown
      have hsettled : Settled p (fun l => plainTerm p scope l e) s t s :=
        ⟨hs, .refl _, hs.known hknown, hstable⟩
      refine .succeeds ?_ (hstable label hs.program (.refl _)) hsettled
      rw [run_get, hknown]
      rfl
    | none =>
      cases hnode with
      | fails h h' =>
        refine .fails ?_ h'
        rw [run_get, hknown]
        dsimp only
        rw [run_bind, h]
        rfl
      | @succeeds t s' h h' hsettled =>
        have hplain : (plainTerm p scope label e).run s.forget = .ok (t, (s'.learns e scope t).forget) := h'
        refine .succeeds ?_ hplain hsettled.learns
        rw [run_get, hknown]
        dsimp only
        rw [run_bind, h]
        rfl

/-! ## Calls -/

theorem term_mirrors (hp : p.arena.WellFormed) (hs : s.Faithful p) (scope : Scope) (label : String)
    (e : ExprId) : Mirrors p label (term p scope label e) (fun l => plainTerm p scope l e) s :=
  termBelow_mirrors hp (Nat.lt_succ_self e) hs

/-- The states of an encoding between calls of `term`: at first nothing is known, and variables, rows and
terms can be added to the program at any time. A call that fails ends the encoding; until then it has made
terms of subexpressions, as calls for these would. -/
inductive Reached (p : Problem α) : State α → Prop
  | start {q : Program α} (hq : q.WellFormed) : Reached p { program := q }
  | term {s s' : State α} {scope : Scope} {label : String} {e : ExprId} {t : TermId} (hs : Reached p s)
      (h : (term p scope label e).run s = .ok (t, s')) : Reached p s'
  | program {s : State α} {q : Program α} (hs : Reached p s) (hq : q.WellFormed) (h : s.program.Extends q) :
      Reached p { s with program := q }

theorem State.Faithful.mono (hs : s.Faithful p) (hq : q.WellFormed) (h : s.program.Extends q) :
    State.Faithful p { s with program := q } where
  program := hq
  known _ _ hk := Nat.lt_of_lt_of_le (hs.known hk) (Interner.size_mono h.terms)
  stable _ _ _ hk l := (hs.stable hk l).mono h

theorem Reached.faithful (hp : p.arena.WellFormed) (h : Reached p s) : s.Faithful p := by
  induction h with
  | start hq => exact ⟨⟨hq, fun k t hk => by simp at hk⟩, fun e scope t hk => by simp at hk⟩
  | @term s s' scope label e t _ h ih =>
    cases term_mirrors hp ih scope label e with
    | fails h' => rw [h] at h'; cases h'
    | succeeds h' _ hsettled =>
      rw [h] at h'
      cases h'
      exact hsettled.faithful
  | program _ hq h ih => exact ih.mono hq h

/-- A call of `term`. -/
structure TermCall where
  scope : Scope
  label : String
  expr : ExprId

/-- The terms of one call after another. -/
def terms (p : Problem α) (calls : List TermCall) : Encode α (List TermId) :=
  calls.mapM fun c => term p c.scope c.label c.expr

def plainTerms (p : Problem α) (calls : List TermCall) : Encode α (List TermId) :=
  calls.mapM fun c => plainTerm p c.scope c.label c.expr

theorem terms_cons (p : Problem α) (c : TermCall) (calls : List TermCall) :
    terms p (c :: calls) = do
      let t ← term p c.scope c.label c.expr
      let ts ← terms p calls
      return t :: ts := List.mapM_cons

theorem plainTerms_cons (p : Problem α) (c : TermCall) (calls : List TermCall) :
    plainTerms p (c :: calls) = do
      let t ← plainTerm p c.scope c.label c.expr
      let ts ← plainTerms p calls
      return t :: ts := List.mapM_cons

theorem terms_eq (hp : p.arena.WellFormed) (hs : s.Faithful p) (calls : List TermCall) :
    ((terms p calls).run s).map (fun r => (r.1, r.2.forget)) = (plainTerms p calls).run s.forget := by
  induction calls generalizing s with
  | nil => rfl
  | cons c calls ih =>
    rw [terms_cons, plainTerms_cons, run_bind, run_bind]
    cases term_mirrors hp hs c.scope c.label c.expr with
    | fails h h' => rw [h, h']; rfl
    | @succeeds t s₁ h h' hsettled =>
      have ih := ih hsettled.faithful
      rw [h, h']
      change ((terms p calls >>= fun ts => pure (t :: ts)).run s₁).map _ =
        (plainTerms p calls >>= fun ts => pure (t :: ts)).run s₁.forget
      rw [run_bind, run_bind, ← ih]
      cases (terms p calls).run s₁ <;> rfl

/-- Terms of arithmetic expressions over known symbols are made, one call after another. -/
theorem terms_succeeds (hp : p.arena.WellFormed) {calls : List TermCall}
    (h : ∀ c ∈ calls, s.CanEncode p c.scope c.expr) : ∃ ts s', (terms p calls).run s = .ok (ts, s') := by
  induction calls generalizing s with
  | nil => exact ⟨[], s, rfl⟩
  | cons c calls ih =>
    obtain ⟨hc, hcalls⟩ := List.forall_mem_cons.1 h
    obtain ⟨t, s₁, hrun, hkeeps⟩ := term_succeeds c.label hp hc
    obtain ⟨ts, s', hrest⟩ := ih fun c hc => hkeeps.canEncode (hcalls c hc)
    refine ⟨t :: ts, s', ?_⟩
    rw [terms_cons, run_bind, hrun]
    change (terms p calls >>= fun ts => pure (t :: ts)).run s₁ = _
    rw [run_bind, hrest]
    rfl

end Encoding

open Encoding

/-- What is remembered does not show. Any number of evaluations with one table give what the recursion over
the arena gives for each of them, values and errors alike, also behind evaluations that have failed. Any
number of terms of an encoding, of whatever scopes and whatever has been added to the program in between, are
those that the translation without knowledge makes, in the same program, or the first error is the same. -/
theorem memoized_eq_plain :
    (∀ (a : Arena α) (v : Valuation α) (es : List ExprId), a.WellFormed →
      a.evaluations v es = es.map (a.plainEval v)) ∧
    ∀ (p : Problem α) (s : State α) (calls : List TermCall), p.arena.WellFormed → Reached p s →
      ((terms p calls).run s).map (fun r => (r.1, r.2.forget)) = (plainTerms p calls).run s.forget := by
  constructor
  · intro a v es ha
    exact Arena.evaluations_eq ha v es
  · intro p s calls hp hs
    exact terms_eq hp (hs.faithful hp) calls

/-- A domain of one state over an arena. -/
def Shared.problem (a : Arena Binary64) : Problem Binary64 where
  domain :=
    { arena := a
      constants := []
      vars := [⟨⟨"x", none⟩, .continuous, .state, false⟩]
      dt := "Dt"
      mode := .solutions
      equations := []
      initials := []
      instantaneous := []
      temporal := []
      goals := []
      reward := ⟨0, .whole ""⟩ }
  transitions := []
  temporal := []
  feastol := Scalar.zero
  bigM := Scalar.one
  epsilon := Scalar.one

/-- The program with the variables of the state at the first two boundaries. -/
def Shared.program : Program Binary64 :=
  (({ name := "" } : Program Binary64).withVar ⟨"x_0", .continuous, Scalar.zero, Scalar.one⟩).withVar
    ⟨"x_1", .continuous, Scalar.zero, Scalar.one⟩

/-- Three calls for one expression, two of them in the same scope. -/
def Shared.calls (e : ExprId) : List TermCall :=
  [⟨.stage 0, "initial", e⟩, ⟨.stage 1, "temporal", e⟩, ⟨.stage 0, "reward", e⟩]

theorem Shared.wellFormed_program : Shared.program.WellFormed := by
  refine ((Program.wellFormed_empty "").withVar ?_).withVar ?_
  · simp [Program.varOf?]
  · simp [Program.varOf?, Program.withVar]

theorem Shared.knows (a : Arena Binary64) {t : Nat} (ht : t = 0 ∨ t = 1) :
    State.Knows { program := Shared.program } (Shared.problem a) (.stage t) "x" := by
  refine .inr ⟨stageVar "x" t, rfl, ?_⟩
  have hfirst : stageVar "x" 0 = "x_0" := rfl
  have hsecond : stageVar "x" 1 = "x_1" := rfl
  rcases ht with rfl | rfl
  · simp [hfirst, Shared.program, Program.varOf?, Program.withVar]
  · simp [hsecond, Shared.program, Program.varOf?, Program.withVar]

/-- In `x * x + x * x` the square is used twice, and the sum is asked for again behind an evaluation that
fails and in two scopes. -/
theorem memoized_eq_plain_shared : ∃ (a : Arena Binary64) (x y square sum : ExprId), a.WellFormed ∧
    a.node x = .sym "x" ∧ a.node y = .sym "y" ∧ a.node square = .arith .mul x x ∧
      a.node sum = .arith .add square square ∧
      a.evaluations (fun s => if s = "x" then some Scalar.one else none) [sum, y, sum] =
        [.ok (Scalar.one * Scalar.one + Scalar.one * Scalar.one), .error (.unbound "y"),
          .ok (Scalar.one * Scalar.one + Scalar.one * Scalar.one)] ∧
      ∃ (s s' : State Binary64) (ts : List TermId), Reached (Shared.problem a) s ∧
        (terms (Shared.problem a) (Shared.calls sum)).run s = .ok (ts, s') ∧
        (plainTerms (Shared.problem a) (Shared.calls sum)).run s.forget = .ok (ts, s'.forget) := by
  obtain ⟨a₁, x, -, h₁, hx⟩ :=
    (Arena.wellFormed_empty (α := Binary64)).exists_interned (.sym "x") (by simp [Node.operands])
  obtain ⟨a₂, y, hle₂, h₂, hy⟩ := h₁.exists_interned (.sym "y") (by simp [Node.operands])
  have hx := hle₂ hx
  obtain ⟨a₃, square, hle₃, h₃, hsquare⟩ := h₂.exists_interned (.arith .mul x x)
    (by simp [Node.operands, Arena.lt_size_of_getElem? hx, Arena.Has])
  obtain ⟨a, sum, hle, ha, hsum⟩ := h₃.exists_interned (.arith .add square square)
    (by simp [Node.operands, Arena.lt_size_of_getElem? hsquare, Arena.Has])
  have hx := hle (hle₃ hx)
  have hy := hle (hle₃ hy)
  have hsquare := hle hsquare
  have hxn := Arena.node_eq_of_getElem? hx
  have hyn := Arena.node_eq_of_getElem? hy
  have hsquaren := Arena.node_eq_of_getElem? hsquare
  have hsumn := Arena.node_eq_of_getElem? hsum
  obtain ⟨hevaluations, hterms⟩ := memoized_eq_plain (α := Binary64)
  refine ⟨a, x, y, square, sum, ha, hxn, hyn, hsquaren, hsumn, ?_, ?_⟩
  · rw [hevaluations a _ _ ha]
    generalize hv : (fun s => if s = "x" then some Scalar.one else none : Valuation Binary64) = v
    have hvalue : a.plainEval v x = .ok Scalar.one := by
      rw [Arena.plainEval_eq ha, Arena.evalNode, hxn, ← hv]
      rfl
    have hfails : a.plainEval v y = .error (.unbound "y") := by
      rw [Arena.plainEval_eq ha, Arena.evalNode, hyn, ← hv]
      rfl
    have hsquared : a.plainEval v square = .ok (Scalar.one * Scalar.one) := by
      rw [Arena.plainEval_eq ha, Arena.evalNode, hsquaren]
      dsimp only
      rw [hvalue]
      rfl
    have hsummed : a.plainEval v sum = .ok (Scalar.one * Scalar.one + Scalar.one * Scalar.one) := by
      rw [Arena.plainEval_eq ha, Arena.evalNode, hsumn]
      dsimp only
      rw [hsquared]
      rfl
    simp only [List.map_cons, List.map_nil, hsummed, hfails]
  · have hstart : Reached (Shared.problem a) { program := Shared.program } := .start Shared.wellFormed_program
    have hencode (t : Nat) (ht : t = 0 ∨ t = 1) :
        State.CanEncode { program := Shared.program } (Shared.problem a) (.stage t) sum := by
      refine .node hsum trivial fun z hz => ?_
      obtain rfl : z = square := by simpa [Node.operands] using hz
      refine .node hsquare trivial fun z hz => ?_
      obtain rfl : z = x := by simpa [Node.operands] using hz
      exact .node hx (Shared.knows a ht) fun z hz => absurd hz List.not_mem_nil
    have hcalls : ∀ c ∈ Shared.calls sum,
        State.CanEncode { program := Shared.program } (Shared.problem a) c.scope c.expr := by
      simp [Shared.calls, hencode]
    have hp : (Shared.problem a).arena.WellFormed := ha
    obtain ⟨ts, s', hrun⟩ := terms_succeeds hp hcalls
    have hplain := hterms (Shared.problem a) _ (Shared.calls sum) hp hstart
    rw [hrun] at hplain
    exact ⟨_, s', ts, hstart, hrun, hplain.symm⟩

end HybridPlan
