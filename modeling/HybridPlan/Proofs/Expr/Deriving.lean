import HybridPlan.Proofs.Expr.Carrying
import HybridPlan.Proofs.Expr.Derivative
import Mathlib.Logic.Relation

set_option autoImplicit false

/-! # Derivatives of any expression

A differentiation goes through an expression once, and makes the derivative of each part by the rule
for it. It fails if and only if there is a part without a rule. Whatever the rules carry over from the
derivatives of operands, the differentiation carries over from symbols and numbers to expressions. -/

namespace HybridPlan

variable {α : Type} [Scalar α]

/-- There is a rule for the node. -/
def Node.Differentiable : Node α → Prop
  | num _ | sym _ | neg _ | arith _ _ _ | call (.elementary _) [_] => True
  | call _ _ | compare _ _ _ | join _ _ => False

omit [Scalar α] in
/-- There is no rule for constraints, `dd` calls and calls without exactly one argument. -/
theorem Node.not_differentiable_iff {n : Node α} :
    ¬n.Differentiable ↔ (∃ op x y, n = .compare op x y) ∨ (∃ c items, n = .join c items) ∨
      (∃ args, n = .call .dd args) ∨ ∃ f args, n = .call f args ∧ args.length ≠ 1 := by
  cases n with
  | num | sym | neg | arith => simp [Differentiable]
  | compare | join => simp [Differentiable]
  | call f args =>
    rcases f with f | _
    · rcases args with _ | ⟨x, _ | ⟨y, args⟩⟩ <;> simp [Differentiable]
    · simp [Differentiable]

namespace Arena

/-- The one expression is a part of the other, or the other itself. -/
def Reachable (a : Arena α) : ExprId → ExprId → Prop :=
  Relation.ReflTransGen fun x y => y ∈ (a.node x).operands

/-- All parts of an expression are reachable. -/
theorem madeOf_iff {a : Arena α} (ha : a.WellFormed) {P : Node α → Prop} {e : ExprId} (he : a.Has e) :
    a.MadeOf P e ↔ ∀ x, a.Reachable e x → P (a.node x) := by
  constructor
  · intro h x hx
    have hpart : a.MadeOf P x := by
      induction hx with
      | refl => exact h
      | tail _ hstep ih => exact ih.operand hstep
    exact hpart.holds
  · intro h
    induction e using Nat.strong_induction_on with
    | _ e ih =>
      refine .node (getElem?_of_lt_size he) (h e .refl) fun x hx => ?_
      have hlt : x < e := ha.lt_of_mem_operands hx
      exact ih x hlt (Nat.lt_trans hlt he) fun y hy => h y (.head hx hy)

end Arena

namespace Build

/-! ## The rules extend the arena -/

section

variable {a : Arena α} {e x y dx dy : ExprId}

theorem extends_derivePow (ha : a.WellFormed) (he : a.Has e) (hx : a.Has x) (hy : a.Has y)
    (hdx : a.Has dx) (hdy : a.Has dy) : Extends (derivePow e x y dx dy) a Arena.Has := by
  refine .get ?_
  split
  · refine .bind (extends_num ha _) fun one b hb hab hone => ?_
    refine .bind (extends_arith .sub hb (hy.mono hab) hone) fun lower c hc hbc hlower => ?_
    have hac : a ≤ c := le_trans hab hbc
    refine .bind (extends_arith .pow hc (hx.mono hac) hlower) fun p d hd hcd hp => ?_
    have had : a ≤ d := le_trans hac hcd
    refine .bind (extends_arith .mul hd (hy.mono had) hp) fun k b' hb' hdb' hk => ?_
    exact extends_arith .mul hb' hk (hdx.mono (le_trans had hdb'))
  · refine .bind (extends_call₁ .log ha hx) fun log b hb hab hlog => ?_
    refine .bind (extends_arith .mul hb (hdy.mono hab) hlog) fun l c hc hbc hl => ?_
    have hac : a ≤ c := le_trans hab hbc
    refine .bind (extends_arith .mul hc (hy.mono hac) (hdx.mono hac)) fun scaled d hd hcd hscaled => ?_
    have had : a ≤ d := le_trans hac hcd
    refine .bind (extends_arith .div hd hscaled (hx.mono had)) fun r b' hb' hdb' hr => ?_
    refine .bind (extends_arith .add hb' (hl.mono (le_trans hcd hdb')) hr)
      fun sum c' hc' hbc' hsum => ?_
    exact extends_arith .mul hc' (he.mono (le_trans had (le_trans hdb' hbc'))) hsum

theorem extends_deriveArith (op : ArithOp) (ha : a.WellFormed) (he : a.Has e) (hx : a.Has x)
    (hy : a.Has y) (hdx : a.Has dx) (hdy : a.Has dy) :
    Extends (deriveArith op e x y dx dy) a Arena.Has := by
  cases op with
  | add => exact extends_arith .add ha hdx hdy
  | sub => exact extends_arith .sub ha hdx hdy
  | mul =>
    refine .bind (extends_arith .mul ha hdx hy) fun l b hb hab hl => ?_
    refine .bind (extends_arith .mul hb (hx.mono hab) (hdy.mono hab)) fun r c hc hbc hr => ?_
    exact extends_arith .add hc (hl.mono hbc) hr
  | div =>
    refine .bind (extends_arith .mul ha hdx hy) fun l b hb hab hl => ?_
    refine .bind (extends_arith .mul hb (hx.mono hab) (hdy.mono hab)) fun r c hc hbc hr => ?_
    refine .bind (extends_arith .sub hc (hl.mono hbc) hr) fun numerator d hd hcd hnumerator => ?_
    have had : a ≤ d := le_trans hab (le_trans hbc hcd)
    refine .bind (extends_powInt hd (hy.mono had) 2) fun denominator b' hb' hdb' hdenominator => ?_
    exact extends_arith .div hb' (hnumerator.mono hdb') hdenominator
  | pow => exact extends_derivePow ha he hx hy hdx hdy

theorem extends_deriveOuter (f : Elementary) (ha : a.WellFormed) (he : a.Has e) (hx : a.Has x) :
    Extends (deriveOuter f e x) a Arena.Has := by
  cases f with
  | exp => exact .pure ha he
  | log =>
    exact .bind (extends_num ha _) fun one b hb hab hone => extends_arith .div hb hone (hx.mono hab)
  | sqrt =>
    refine .bind (extends_num ha _) fun two b hb hab htwo => ?_
    refine .bind (extends_arith .mul hb htwo (he.mono hab)) fun denominator c hc hbc hdenominator => ?_
    exact .bind (extends_num hc _) fun one d hd hcd hone =>
      extends_arith .div hd hone (hdenominator.mono hcd)
  | sin => exact extends_call₁ .cos ha hx
  | cos => exact .bind (extends_call₁ .sin ha hx) fun s b hb _ hs => extends_neg hb hs
  | abs => exact extends_arith .div ha hx he

/-- The rule of functions. -/
theorem extends_deriveCall (f : Elementary) (ha : a.WellFormed) (he : a.Has e) (hx : a.Has x)
    (hdx : a.Has dx) : Extends (do let outer ← deriveOuter f e x; mul outer dx) a Arena.Has :=
  .bind (extends_deriveOuter f ha he hx) fun _ _ hb hab houter =>
    extends_arith .mul hb houter (hdx.mono hab)

end

/-! ## Attempts with a table of results -/

/-- The attempt extends the arena, whether it succeeds or fails. -/
def TabledAttempt.Concludes {ε ι : Type} (m : TabledAttempt α ε ι)
    (table : Std.HashMap ExprId ExprId) (b : Arena α)
    (Q : ι → Std.HashMap ExprId ExprId → Arena α → Prop) (F : ε → Prop) : Prop :=
  ∃ r c, (m.run table).run.run b = (r, c) ∧ c.WellFormed ∧ b.Grows c ∧
    (∀ i table', r = .ok (i, table') → Q i table' c) ∧ ∀ error, r = .error error → F error

namespace TabledAttempt.Concludes

variable {ε ι κ : Type} {table : Std.HashMap ExprId ExprId} {b : Arena α} {m : TabledAttempt α ε ι}
  {P : ι → Std.HashMap ExprId ExprId → Arena α → Prop}
  {Q : κ → Std.HashMap ExprId ExprId → Arena α → Prop} {F F' : ε → Prop}

theorem pure {i : ι} (hb : b.WellFormed) (h : P i table b) :
    Concludes (Pure.pure i : TabledAttempt α ε ι) table b P F := by
  refine ⟨.ok (i, table), b, rfl, hb, .refl, ?_, by simp⟩
  rintro _ _ ⟨⟩
  exact h

theorem throw {error : ε} (hb : b.WellFormed) (h : F error) :
    Concludes (MonadExcept.throw error : TabledAttempt α ε ι) table b P F := by
  refine ⟨.error error, b, rfl, hb, .refl, by simp, ?_⟩
  rintro _ ⟨⟩
  exact h

theorem bind {f : ι → TabledAttempt α ε κ} (hm : Concludes m table b P F)
    (hf : ∀ i table' c, c.WellFormed → b.Grows c → P i table' c → (f i).Concludes table' c Q F) :
    Concludes (m >>= f) table b Q F := by
  obtain ⟨r, c, hrun, hc, hbc, hP, hF⟩ := hm
  have hbind : ((m >>= f).run table).run.run b =
      (ExceptT.bindCont (fun p : ι × Std.HashMap ExprId ExprId => (f p.1).run p.2)
        ((m.run table).run.run b).1).run ((m.run table).run.run b).2 := rfl
  rw [hrun] at hbind
  cases r with
  | error error =>
    refine ⟨.error error, c, hbind, hc, hbc, by simp, ?_⟩
    rintro _ ⟨⟩
    exact hF error rfl
  | ok p =>
    obtain ⟨i, table'⟩ := p
    obtain ⟨r', d, hrun', hd, hcd, hQ, hF'⟩ := hf i table' c hc hbc (hP i table' rfl)
    exact ⟨r', d, hbind.trans hrun', hd, hbc.trans hcd, hQ, hF'⟩

theorem lookup {f : Std.HashMap ExprId ExprId → TabledAttempt α ε κ}
    (h : (f table).Concludes table b Q F) : Concludes (MonadState.get >>= f) table b Q F := h

theorem look {f : Arena α → TabledAttempt α ε κ} (h : (f b).Concludes table b Q F) :
    Concludes (getThe (Arena α) >>= f) table b Q F := h

theorem imp (hm : Concludes m table b P F) (hF : ∀ error, F error → F' error) :
    Concludes m table b P F' := by
  obtain ⟨r, c, hrun, hc, hbc, hP, hfail⟩ := hm
  exact ⟨r, c, hrun, hc, hbc, hP, fun error h => hF error (hfail error h)⟩

end TabledAttempt.Concludes

/-! ## Relations that the rules carry over -/

/-- A relation between expressions of the arena `a` and expressions of larger arenas that is carried
over by the rules of differentiation. -/
structure CarriesDerivative (t : String) (a : Arena α) (D : Arena α → ExprId → ExprId → Prop) :
    Prop where
  mono : ∀ {b c : Arena α} {e d : ExprId}, b.WellFormed → b ≤ c → Placed D b e d → D c e d
  num : ∀ {b : Arena α} {e : ExprId} {x : α}, a.node e = .num x → b.WellFormed →
    D ((zero : Build α ExprId).run b).2 e ((zero : Build α ExprId).run b).1
  sym : ∀ {b : Arena α} {e : ExprId} {s : String}, a.node e = .sym s → b.WellFormed →
    D ((if s = t then one else zero : Build α ExprId).run b).2 e
      ((if s = t then one else zero : Build α ExprId).run b).1
  neg : ∀ {b : Arena α} {e x dx : ExprId}, a.node e = .neg x → b.WellFormed → Placed D b x dx →
    D ((neg dx).run b).2 e ((neg dx).run b).1
  arith : ∀ {b : Arena α} {op : ArithOp} {e x y dx dy : ExprId}, a.node e = .arith op x y →
    a.Has e → b.WellFormed → a ≤ b → Placed D b x dx → Placed D b y dy →
    D ((deriveArith op e x y dx dy).run b).2 e ((deriveArith op e x y dx dy).run b).1
  call : ∀ {b : Arena α} {f : Elementary} {e x dx : ExprId},
    a.node e = .call (.elementary f) [x] → a.Has e → b.WellFormed → a ≤ b → Placed D b x dx →
    D ((do let outer ← deriveOuter f e x; mul outer dx).run b).2 e
      ((do let outer ← deriveOuter f e x; mul outer dx).run b).1

section

variable {t : String} {a b c : Arena α} {D : Arena α → ExprId → ExprId → Prop} {e : ExprId}
  {table : Std.HashMap ExprId ExprId}

/-- The expression `d` is what a differentiation has made of `e`, for all parts of which there are
rules. -/
def Differentiated (a : Arena α) (D : Arena α → ExprId → ExprId → Prop) (b : Arena α)
    (e d : ExprId) : Prop :=
  a.MadeOf Node.Differentiable e ∧ D b e d

/-- A part of the expression without a rule is the reason of the failure. -/
def FailsAt (a : Arena α) (e : ExprId) (error : DerivativeError) : Prop :=
  ∃ x, a.Reachable e x ∧ ¬(a.node x).Differentiable ∧ error = .notDifferentiable x

/-- The attempt makes a derivative of `e`, or fails at a part of it. -/
def TabledAttempt.Differentiates (D : Arena α → ExprId → ExprId → Prop) (a : Arena α)
    (m : TabledAttempt α DerivativeError ExprId) (table : Std.HashMap ExprId ExprId) (b : Arena α)
    (e : ExprId) : Prop :=
  m.Concludes table b
    (fun d table c => Carrying (Differentiated a D) a b table c ∧ Placed (Differentiated a D) c e d)
    (FailsAt a e)

theorem CarriesDerivative.placed (hD : CarriesDerivative t a D) {d : ExprId} (hb : b.WellFormed)
    (hbc : b ≤ c) (h : Placed (Differentiated a D) b e d) : Placed (Differentiated a D) c e d :=
  ⟨h.has.mono hbc, h.related.1, hD.mono hb hbc ⟨h.has, h.related.2⟩⟩

/-- What a rule makes is entered into the table. -/
theorem differentiates_record {F : DerivativeError → Prop} (hD : CarriesDerivative t a D)
    (h : Carrying (Differentiated a D) a b table c) {m : Build α ExprId}
    (hm : Extends m c Arena.Has) (he : a.MadeOf Node.Differentiable e)
    (hrelated : D (m.run c).2 e (m.run c).1) :
    TabledAttempt.Concludes (do
      let r ← (m : TabledAttempt α DerivativeError ExprId)
      modify (·.insert e r)
      return r) table c (fun d table c => Carrying (Differentiated a D) a b table c ∧
        Placed (Differentiated a D) c e d) F := by
  have hplaced : Placed (Differentiated a D) (m.run c).2 e (m.run c).1 :=
    ⟨hm.holds, he, hrelated⟩
  have hlater := h.extend hm fun _ _ => hD.placed h.wellFormed hm.grows.le
  refine ⟨.ok ((m.run c).1, table.insert e (m.run c).1), (m.run c).2, rfl, hm.wellFormed, hm.grows,
    ?_, by simp⟩
  rintro _ _ ⟨⟩
  exact ⟨hlater.insert hplaced, hplaced⟩

/-- A node without a rule is the reason of the failure. -/
theorem differentiates_refused (hc : c.WellFormed) (hrule : ¬(a.node e).Differentiable) :
    TabledAttempt.Concludes (do
      let r ← (throw (.notDifferentiable e) : TabledAttempt α DerivativeError ExprId)
      modify (·.insert e r)
      return r) table c (fun d table c => Carrying (Differentiated a D) a b table c ∧
        Placed (Differentiated a D) c e d) (FailsAt a e) :=
  .bind (P := fun _ _ _ => False) (.throw hc ⟨e, .refl, hrule, rfl⟩) fun _ _ _ _ _ h => h.elim

/-- A failure in an operand is one of the expression. -/
theorem TabledAttempt.Differentiates.operand {x : ExprId}
    {m : TabledAttempt α DerivativeError ExprId} (h : m.Differentiates D a table b x)
    (hx : x ∈ (a.node e).operands) : m.Concludes table b (fun d table c =>
      Carrying (Differentiated a D) a b table c ∧ Placed (Differentiated a D) c x d)
      (FailsAt a e) := by
  refine h.imp fun error hfail => ?_
  obtain ⟨y, hy, hnode, herror⟩ := hfail
  exact ⟨y, .head hx hy, hnode, herror⟩

/-- A level hands on what the level below it carries over. -/
theorem deriveBelow_succ_differentiates {n : ℕ} (hD : CarriesDerivative t a D) (ha : a.WellFormed)
    (he : a.Has e) (h : Carrying (Differentiated a D) a b table b)
    (hoperand : ∀ x ∈ (a.node e).operands, ∀ table b, Carrying (Differentiated a D) a b table b →
      TabledAttempt.Differentiates D a (deriveBelow t n x) table b x) :
    TabledAttempt.Differentiates D a (deriveBelow t (n + 1) e) table b e := by
  have hhas : ∀ x ∈ (a.node e).operands, a.Has x := fun x hx => ha.has_operand he hx
  have hmade (hrule : (a.node e).Differentiable)
      (hparts : ∀ x ∈ (a.node e).operands, a.MadeOf Node.Differentiable x) :
      a.MadeOf Node.Differentiable e := .node (Arena.getElem?_of_lt_size he) hrule hparts
  unfold deriveBelow TabledAttempt.Differentiates
  refine .lookup ?_
  dsimp only
  split
  · next d hd => exact .pure h.wellFormed ⟨h, h.table e d hd⟩
  -- the node is that of the first arena, in which the expression was
  have hnode : b.node e = a.node e := Arena.node_mono h.start.le he
  refine .look ?_
  rw [hnode]
  cases hn : a.node e with
  | num x =>
    exact differentiates_record hD h (extends_num h.wellFormed _)
      (hmade (by rw [hn]; trivial) (by simp [hn, Node.operands])) (hD.num hn h.wellFormed)
  | sym s =>
    have hextends : Extends (if s = t then one else zero : Build α ExprId) b Arena.Has := by
      split
      · exact extends_num h.wellFormed _
      · exact extends_num h.wellFormed _
    exact differentiates_record hD h hextends
      (hmade (by rw [hn]; trivial) (by simp [hn, Node.operands])) (hD.sym hn h.wellFormed)
  | neg x =>
    have hx : x ∈ (a.node e).operands := by simp [hn, Node.operands]
    refine .bind ((hoperand x hx table b h).operand hx) fun dx table₁ c hc _ hstep => ?_
    obtain ⟨hcarrying, hdx⟩ := hstep
    refine differentiates_record hD hcarrying (extends_neg hc hdx.has)
      (hmade (by rw [hn]; trivial) ?_) (hD.neg hn hc ⟨hdx.has, hdx.related.2⟩)
    simpa [hn, Node.operands] using hdx.related.1
  | arith op x y =>
    have hx : x ∈ (a.node e).operands := by simp [hn, Node.operands]
    have hy : y ∈ (a.node e).operands := by simp [hn, Node.operands]
    refine .bind ((hoperand x hx table b h).operand hx) fun dx table₁ c hc _ hstep => ?_
    obtain ⟨hcarrying, hdx⟩ := hstep
    refine .bind ((hoperand y hy table₁ c hcarrying.from).operand hy)
      fun dy table₂ d hd hcd hstep' => ?_
    obtain ⟨hcarrying', hdy⟩ := hstep'
    have hdx := hD.placed hc hcd.le hdx
    have hbd := hcarrying.trans hcarrying'
    have had : a ≤ d := le_trans hbd.start.le hbd.grows.le
    have hmadeOf : a.MadeOf Node.Differentiable e := by
      refine hmade (by rw [hn]; trivial) ?_
      simpa [hn, Node.operands] using ⟨hdx.related.1, hdy.related.1⟩
    exact differentiates_record hD hbd (extends_deriveArith op hd (he.mono had)
      ((hhas x hx).mono had) ((hhas y hy).mono had) hdx.has hdy.has) hmadeOf
      (hD.arith hn he hd had ⟨hdx.has, hdx.related.2⟩ ⟨hdy.has, hdy.related.2⟩)
  | call f args =>
    rcases args with _ | ⟨x, _ | ⟨y, args⟩⟩
    · exact differentiates_refused h.wellFormed (by rw [hn]; cases f <;> exact id)
    · have hx : x ∈ (a.node e).operands := by simp [hn, Node.operands]
      refine .bind ((hoperand x hx table b h).operand hx) fun dx table₁ c hc _ hstep => ?_
      obtain ⟨hcarrying, hdx⟩ := hstep
      have hac : a ≤ c := le_trans hcarrying.start.le hcarrying.grows.le
      rcases f with f | _
      · refine differentiates_record (m := do let outer ← deriveOuter f e x; mul outer dx) hD
          hcarrying (extends_deriveCall f hc (he.mono hac) ((hhas x hx).mono hac) hdx.has)
          (hmade (by rw [hn]; trivial) ?_) (hD.call hn he hc hac ⟨hdx.has, hdx.related.2⟩)
        simpa [hn, Node.operands] using hdx.related.1
      · exact differentiates_refused hc (by rw [hn]; exact id)
    · exact differentiates_refused h.wellFormed (by rw [hn]; cases f <;> exact id)
  | compare | join => exact differentiates_refused h.wellFormed (by rw [hn]; exact id)

theorem deriveBelow_differentiates (hD : CarriesDerivative t a D) (n : Nat) (hn : e < n)
    (ha : a.WellFormed) (he : a.Has e) (h : Carrying (Differentiated a D) a b table b) :
    TabledAttempt.Differentiates D a (deriveBelow t n e) table b e := by
  induction n generalizing e table b with
  | zero => exact absurd hn (Nat.not_lt_zero e)
  | succ n ih =>
    refine deriveBelow_succ_differentiates hD ha he h fun x hx table b hb => ?_
    have hlt : x < e := ha.lt_of_mem_operands hx
    exact ih (Nat.lt_of_lt_of_le hlt (Nat.le_of_lt_succ hn)) (Nat.lt_trans hlt he) hb

/-- A differentiation extends the arena. It fails at a part without a rule, and if there is none, what
the rules carry over holds of the expression and its derivative. -/
theorem CarriesDerivative.derive (hD : CarriesDerivative t a D) (ha : a.WellFormed) (he : a.Has e) :
    ∃ r b, (Build.derive t e).run.run a = (r, b) ∧ b.WellFormed ∧ a.Grows b ∧
      (∀ d, r = .ok d → Placed (Differentiated a D) b e d) ∧
      ∀ error, r = .error error → FailsAt a e error := by
  have hstart : Carrying (Differentiated a D) a a {} a :=
    ⟨ha, .refl, .refl, fun e e' h => by simp at h⟩
  obtain ⟨r, b, hrun, hb, hab, hok, herror⟩ :=
    deriveBelow_differentiates hD (e + 1) (Nat.lt_succ_self e) ha he hstart
  have hbind : (Build.derive t e).run.run a =
      (ExceptT.bindCont (fun p : ExprId × Std.HashMap ExprId ExprId =>
          (Pure.pure p.1 : Attempt α DerivativeError ExprId))
        (((deriveBelow t (e + 1) e).run {}).run.run a).1).run
          (((deriveBelow t (e + 1) e).run {}).run.run a).2 := rfl
  rw [hrun] at hbind
  cases r with
  | error error =>
    refine ⟨.error error, b, hbind, hb, hab, by simp, ?_⟩
    rintro _ ⟨⟩
    exact herror error rfl
  | ok p =>
    obtain ⟨d, table⟩ := p
    refine ⟨.ok d, b, hbind, hb, hab, ?_, by simp⟩
    rintro _ ⟨⟩
    exact (hok d table rfl).2

theorem carriesDerivative_true : CarriesDerivative t a fun _ _ _ => True := by
  constructor <;> intros <;> trivial

/-- A differentiation extends the arena, also if it fails. -/
theorem extends_derive (t : String) (ha : a.WellFormed) (he : a.Has e) :
    Extends (Build.derive t e).run a fun b r => ∀ d, r = .ok d → b.Has d := by
  obtain ⟨r, b, hrun, hb, hab, hok, -⟩ := (carriesDerivative_true (t := t)).derive ha he
  refine ⟨?_, ?_, ?_⟩ <;> rw [hrun]
  · exact hb
  · exact hab
  · exact fun d hd => (hok d hd).has

/-- A differentiation fails if and only if the expression has a part without a rule. -/
theorem derive_fails_iff (t : String) (ha : a.WellFormed) (he : a.Has e) :
    (∃ error, ((Build.derive t e).run.run a).1 = .error error) ↔
      ∃ x, a.Reachable e x ∧ ¬(a.node x).Differentiable := by
  obtain ⟨r, b, hrun, -, -, hok, herror⟩ := (carriesDerivative_true (t := t)).derive ha he
  rw [hrun]
  constructor
  · rintro ⟨error, rfl⟩
    obtain ⟨x, hx, hnode, -⟩ := herror error rfl
    exact ⟨x, hx, hnode⟩
  · rintro ⟨x, hx, hnode⟩
    cases r with
    | error error => exact ⟨error, rfl⟩
    | ok d => exact absurd ((Arena.madeOf_iff ha he).1 (hok d rfl).related.1 x hx) hnode

end

end Build

end HybridPlan
