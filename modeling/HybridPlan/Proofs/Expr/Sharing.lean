import HybridPlan.Proofs.Expr.Deriving
import HybridPlan.Scalar.Binary64

set_option autoImplicit false

/-! # What an arena keeps

An arena is filled by constructors, by parsing, by differentiation and by substitution. Whatever is
done, and whether it succeeds or not, the arena holds every distinct expression once: its nodes are
numbered without gaps, operands before the nodes that use them, the index finds each node under its
number, and a constructor applied to the operands of a node gives the node again. -/

namespace HybridPlan

variable {α : Type} [Scalar α]

/-! ## Parsing -/

namespace Parser

/-- The parser extends the arena, and this holds of its result, if it has one. -/
structure Extends {ι : Type} (p : Parser α ι) (s : ParserState α) (Q : Arena α → ι → Prop) : Prop where
  wellFormed : (p.run.run s).2.arena.WellFormed
  grows : s.arena.Grows (p.run.run s).2.arena
  holds : ∀ i, (p.run.run s).1 = .ok i → Q (p.run.run s).2.arena i

/-- The parser adds an expression to any arena. -/
def Adds (p : Parser α ExprId) : Prop :=
  ∀ s : ParserState α, s.arena.WellFormed → Extends p s Arena.Has

namespace Extends

variable {ι κ : Type} {p p' : Parser α ι} {s : ParserState α} {P : Arena α → ι → Prop}
  {Q : Arena α → κ → Prop}

theorem pure {i : ι} (hs : s.arena.WellFormed) (h : P s.arena i) :
    Extends (Pure.pure i : Parser α ι) s P := by
  refine ⟨hs, .refl, ?_⟩
  rintro _ ⟨⟩
  exact h

theorem throw {e : ParseError} (hs : s.arena.WellFormed) :
    Extends (MonadExcept.throw e : Parser α ι) s P := by
  refine ⟨hs, .refl, ?_⟩
  rintro _ ⟨⟩

theorem bind {f : ι → Parser α κ} (hp : Extends p s P)
    (hf : ∀ i (s' : ParserState α), s'.arena.WellFormed → s.arena ≤ s'.arena → P s'.arena i →
      Extends (f i) s' Q) : Extends (p >>= f) s Q := by
  have hrun : (p >>= f).run.run s =
      (ExceptT.bindCont f (p.run.run s).1).run (p.run.run s).2 := rfl
  cases hr : (p.run.run s).1 with
  | error e =>
    rw [hr] at hrun
    refine ⟨?_, ?_, ?_⟩ <;> rw [hrun]
    · exact hp.wellFormed
    · exact hp.grows
    · rintro _ ⟨⟩
  | ok i =>
    rw [hr] at hrun
    have hrest := hf i _ hp.wellFormed hp.grows.le (hp.holds i hr)
    refine ⟨?_, ?_, ?_⟩ <;> rw [hrun]
    · exact hrest.wellFormed
    · exact hp.grows.trans hrest.grows
    · exact hrest.holds

theorem build {b : Build α ι} (hb : Build.Extends b s.arena P) : Extends (Parser.build b) s P := by
  refine ⟨hb.wellFormed, hb.grows, ?_⟩
  rintro _ ⟨⟩
  exact hb.holds

/-- A parser may look at the tokens that are left. -/
theorem get {f : ParserState α → Parser α κ} (h : Extends (f s) s Q) :
    Extends (MonadState.get >>= f) s Q :=
  ⟨h.wellFormed, h.grows, h.holds⟩

theorem peek {f : Option Token → Parser α κ} (h : ∀ t, Extends (f t) s Q) :
    Extends (peek? >>= f) s Q :=
  ⟨(h _).wellFormed, (h _).grows, (h _).holds⟩

theorem advance (hs : s.arena.WellFormed) : Extends (Parser.advance (α := α)) s fun _ _ => True :=
  ⟨hs, .refl, fun _ _ => trivial⟩

/-- A parser that first skips a token. -/
theorem advanced {m : Parser α κ} (hs : s.arena.WellFormed)
    (hm : ∀ s' : ParserState α, s'.arena.WellFormed → s.arena ≤ s'.arena → Extends m s' Q) :
    Extends (do Parser.advance; m) s Q :=
  bind (advance hs) fun _ s' hs' hle _ => hm s' hs' hle

theorem ite {c : Prop} [Decidable c] (h : Extends p s P) (h' : Extends p' s P) :
    Extends (if c then p else p') s P := by
  split
  · exact h
  · exact h'

theorem unexpected (hs : s.arena.WellFormed) (input : ParserInput) (what : Expectation) :
    Extends (Parser.unexpected input what : Parser α ι) s P := by
  refine get ?_
  split
  · exact throw hs
  · exact throw hs

theorem expect (hs : s.arena.WellFormed) (input : ParserInput) (t : Token) (what : Expectation) :
    Extends (Parser.expect (α := α) input t what) s fun _ _ => True :=
  peek fun _ => ite (advance hs) (unexpected hs input what)

end Extends

section

variable {item disjunction : Parser α ExprId} {s : ParserState α}

theorem extends_more (separator : Token) (hitem : Adds item) (n : Nat) (hs : s.arena.WellFormed) :
    Extends (more separator item n) s fun b xs => ∀ x ∈ xs, b.Has x := by
  induction n generalizing s with
  | zero => exact .pure hs (by simp)
  | succ n ih =>
    refine .peek fun t => .ite (.advanced hs fun s₁ h₁ _ => ?_) (.pure hs (by simp))
    refine .bind (hitem s₁ h₁) fun x s₂ h₂ _ hx => .bind (ih h₂) fun xs s₃ h₃ hle hxs => .pure h₃ ?_
    exact List.forall_mem_cons.2 ⟨hx.mono hle, hxs⟩

theorem extends_separated (separator : Token) (hitem : Adds item) (hs : s.arena.WellFormed) :
    Extends (separated separator item) s fun b xs => ∀ x ∈ xs, b.Has x := by
  refine .bind (hitem s hs) fun x s₁ h₁ _ hx => .get ?_
  refine .bind (extends_more separator hitem _ h₁) fun xs s₂ h₂ hle hxs => .pure h₂ ?_
  exact List.forall_mem_cons.2 ⟨hx.mono hle, hxs⟩

theorem extends_chain (ops : List ArithOp) (hitem : Adds item) (n : Nat) {x : ExprId}
    (hs : s.arena.WellFormed) (hx : s.arena.Has x) : Extends (chain ops item n x) s Arena.Has := by
  induction n generalizing s x with
  | zero => exact .pure hs hx
  | succ n ih =>
    refine .peek fun t => ?_
    split
    · next op =>
      refine .ite (.advanced hs fun s₁ h₁ hle₁ => ?_) (.pure hs hx)
      refine .bind (hitem s₁ h₁) fun y s₂ h₂ hle₂ hy => ?_
      refine .bind (.build (Build.extends_arith op h₂ (hx.mono (le_trans hle₁ hle₂)) hy))
        fun z s₃ h₃ _ hz => ih h₃ hz
    · exact .pure hs hx

theorem adds_leftAssociative (ops : List ArithOp) (hitem : Adds item) :
    Adds (leftAssociative ops item) := fun s hs =>
  .bind (hitem s hs) fun _ _ h₁ _ hx => .get (extends_chain ops hitem _ h₁ hx)

theorem adds_atom (input : ParserInput) (hd : Adds disjunction) : Adds (atom input disjunction) := by
  intro s hs
  refine .get ?_
  split
  · exact .unexpected hs input .expression
  · next l rest _ =>
    split
    · exact .advanced hs fun s₁ h₁ _ => .build (Build.extends_num h₁ _)
    · refine .advanced hs fun s₁ h₁ _ => .bind (hd s₁ h₁) fun e s₂ h₂ _ he => ?_
      exact .bind (.expect h₂ input .rightParen .closing) fun _ s₃ h₃ hle _ => .pure h₃ (he.mono hle)
    · refine .advanced hs fun s₁ h₁ _ => .peek fun t =>
        .ite ?_ (.build (Build.extends_sym h₁ _))
      split
      · exact .throw h₁
      · refine .advanced h₁ fun s₂ h₂ _ => ?_
        refine .bind (extends_separated .comma hd h₂) fun args s₃ h₃ _ hargs => ?_
        refine .bind (.expect h₃ input .rightParen .closingOrComma) fun _ s₄ h₄ hle _ => ?_
        refine .ite (.build (Build.extends_call _ h₄ fun x hx => (hargs x hx).mono hle)) (.throw h₄)
    · exact .unexpected hs input .expression

theorem adds_level (input : ParserInput) (depth : Nat) (l : Level) :
    Adds (level (α := α) input depth l) := by
  induction depth generalizing l with
  | zero => exact fun s hs => .unexpected hs input .expression
  | succ depth ih =>
    cases l with
    | disjunction =>
      exact fun s hs => .bind (extends_separated _ (ih _) hs) fun items s₁ h₁ _ hitems =>
        .build (Build.extends_join .or h₁ hitems)
    | conjunction =>
      exact fun s hs => .bind (extends_separated _ (ih _) hs) fun items s₁ h₁ _ hitems =>
        .build (Build.extends_join .and h₁ hitems)
    | comparison =>
      refine fun s hs => .bind (ih _ s hs) fun x s₁ h₁ _ hx => .peek fun t => ?_
      split
      · refine .advanced h₁ fun s₂ h₂ hle₂ => .bind (ih _ s₂ h₂) fun y s₃ h₃ hle₃ hy => .get ?_
        split
        · exact .throw h₃
        · exact .build (Build.extends_compare _ h₃ (hx.mono (le_trans hle₂ hle₃)) hy)
      · exact .pure h₁ hx
    | sum => exact adds_leftAssociative _ (ih _)
    | product => exact adds_leftAssociative _ (ih _)
    | unary =>
      refine fun s hs => .peek fun t => ?_
      split
      · exact .advanced hs fun s₁ h₁ _ => .bind (ih _ s₁ h₁) fun x s₂ h₂ _ hx =>
          .build (Build.extends_neg h₂ hx)
      · exact .advanced hs fun s₁ h₁ _ => ih _ s₁ h₁
      · exact ih _ s hs
    | power =>
      refine fun s hs => .bind (ih _ s hs) fun x s₁ h₁ _ hx => .peek fun t => .ite ?_ (.pure h₁ hx)
      exact .advanced h₁ fun s₂ h₂ hle₂ => .bind (ih _ s₂ h₂) fun y s₃ h₃ hle₃ hy =>
        .build (Build.extends_arith .pow h₃ (hx.mono (le_trans hle₂ hle₃)) hy)
    | atom => exact adds_atom input (ih _)

theorem adds_whole (input : ParserInput) : Adds (whole (α := α) input) := fun s hs =>
  .get (.bind (adds_level input _ _ s hs) fun _ _ h₁ _ he =>
    .get (.ite (.pure h₁ he) (.unexpected h₁ input _)))

end

end Parser

namespace Build

variable {a : Arena α}

/-- An attempt that begins with a computation that needs no arena. -/
theorem Extends.bind_except {ε ι κ : Type} {r : Except ε ι} {f : ι → Attempt α ε κ}
    {Q : Arena α → κ → Prop} (ha : a.WellFormed)
    (h : ∀ i, Extends (f i).run a fun b r => ∀ k, r = .ok k → Q b k) :
    Extends ((r : Attempt α ε ι) >>= f).run a fun b r => ∀ k, r = .ok k → Q b k := by
  cases r with
  | error error =>
    refine ⟨ha, .refl, ?_⟩
    rintro _ ⟨⟩
  | ok i => exact h i

/-- Parsing extends the arena, also if the text is refused. -/
theorem extends_parseRange (ha : a.WellFormed) (source : Source) (start stop : Nat) :
    Extends (parseRange (α := α) source start stop).run a fun b r => ∀ e, r = .ok e → b.Has e := by
  refine Extends.bind_except ha fun tokens => ?_
  have hwhole := Parser.adds_whole ⟨source, start, stop⟩ ⟨a, tokens⟩ ha
  exact ⟨hwhole.wellFormed, hwhole.grows, hwhole.holds⟩

end Build

/-! ## Calls on an arena -/

/-- What an arena can be asked to make. -/
inductive Arena.Call (α : Type) where
  | num (value : α)
  | sym (name : Name)
  | neg (x : ExprId)
  | arith (op : ArithOp) (x y : ExprId)
  | powInt (x : ExprId) (exponent : Int)
  | call (f : Func) (args : List ExprId)
  | compare (op : Comparison) (x y : ExprId)
  | join (c : Connective) (items : List ExprId)
  | parse (source : Source) (start stop : Nat)
  | derive (t : String) (e : ExprId)
  | substitute (σ : Substitution) (e : ExprId)

namespace Arena.Call

/-- The expressions that a call refers to. -/
def operands : Call α → Set ExprId
  | num _ | sym _ | parse _ _ _ => ∅
  | neg x | powInt x _ | derive _ x => {x}
  | arith _ x y | compare _ x y => {x, y}
  | call _ items | join _ items => {x | x ∈ items}
  | substitute σ e => {x | x = e ∨ ∃ s, σ s = some x}

/-- The call itself, which has no result if it is refused. -/
def run : Call α → Build α (Option ExprId)
  | num value => some <$> Build.num value
  | sym name => some <$> Build.sym name
  | neg x => some <$> Build.neg x
  | arith op x y => some <$> Build.arith op x y
  | powInt x exponent => some <$> Build.powInt x exponent
  | call f args => some <$> Build.call f args
  | compare op x y => some <$> Build.compare op x y
  | join c items => some <$> Build.join c items
  | parse source start stop => Except.toOption <$> (Build.parseRange source start stop).run
  | derive t e => Except.toOption <$> (Build.derive t e).run
  | substitute σ e => some <$> Build.substitute σ e

end Arena.Call

namespace Build

variable {a : Arena α}

theorem Extends.some {m : Build α ExprId} (h : Extends m a Arena.Has) :
    Extends (Option.some <$> m) a fun b r => ∀ e, r = Option.some e → b.Has e := by
  refine ⟨h.wellFormed, h.grows, ?_⟩
  rintro _ ⟨⟩
  exact h.holds

theorem Extends.toOption {ε : Type} {m : Attempt α ε ExprId}
    (h : Extends m.run a fun b r => ∀ e, r = .ok e → b.Has e) :
    Extends (Except.toOption <$> m.run) a fun b r => ∀ e, r = Option.some e → b.Has e := by
  refine ⟨h.wellFormed, h.grows, fun e he => h.holds e ?_⟩
  change (m.run.run a).1.toOption = Option.some e at he
  cases hr : (m.run.run a).1 with
  | error error =>
    rw [hr] at he
    cases he
  | ok i =>
    rw [hr] at he
    cases he
    rfl

/-- A call on expressions of the arena extends the arena. -/
theorem extends_of_call (ha : a.WellFormed) (r : Arena.Call α) (hr : ∀ x ∈ r.operands, a.Has x) :
    Extends r.run a fun b result => ∀ e, result = Option.some e → b.Has e := by
  cases r with
  | num value => exact (extends_num ha value).some
  | sym name => exact (extends_sym ha name).some
  | neg x => exact (extends_neg ha (hr x rfl)).some
  | arith op x y => exact (extends_arith op ha (hr x (.inl rfl)) (hr y (.inr rfl))).some
  | powInt x exponent => exact (extends_powInt ha (hr x rfl) exponent).some
  | call f args => exact (extends_call f ha hr).some
  | compare op x y => exact (extends_compare op ha (hr x (.inl rfl)) (hr y (.inr rfl))).some
  | join c items => exact (extends_join c ha hr).some
  | parse source start stop => exact (extends_parseRange ha source start stop).toOption
  | derive t e => exact (extends_derive t ha (hr e rfl)).toOption
  | substitute σ e =>
    exact (extends_substitute (fun s x hs => hr x (.inr ⟨s, hs⟩)) ha (hr e (.inl rfl))).some

end Build

/-! ## One call after the other -/

namespace Arena

/-- Calls have led from the arena to the other one, each of them on expressions that were there. -/
inductive Called (a : Arena α) : Arena α → Prop
  | refl : Called a a
  | step {b : Arena α} (h : Called a b) (r : Call α) (hr : ∀ x ∈ r.operands, b.Has x) :
      Called a (r.run.run b).2

variable {a b : Arena α}

theorem Called.grows (h : a.Called b) (ha : a.WellFormed) : a.Grows b := by
  induction h with
  | refl => exact .refl
  | step _ r hr ih => exact ih.trans (Build.extends_of_call (ih.wellFormed ha) r hr).grows

end Arena

/-- The node, with an unsigned zero in the place of each zero. -/
def Node.unsigned : Node α → Node α
  | num v => num (Scalar.unsignedZero v)
  | sym s => sym s
  | neg x => neg x
  | arith op x y => arith op x y
  | call f args => call f args
  | compare op x y => compare op x y
  | join c items => join c items

namespace Arena

variable {a b : Arena α}

/-- Every distinct expression is held once, under a number that it is found by. -/
structure HashConsed (a : Arena α) : Prop where
  /-- The numbers are those below the size. -/
  numbered : ∀ e, (∃ n, a.table.items[e]? = some n) ↔ e < a.size
  /-- The index finds every node, and nothing else, under its number. -/
  indexed : ∀ n e, a.table.find? n = some e ↔ a.table.items[e]? = some n
  /-- Nodes that differ in nothing but the signs of zeros have one number. -/
  distinct : ∀ e e', a.Has e → a.Has e' → (a.node e).unsigned = (a.node e').unsigned → e = e'
  /-- Operands come before the nodes that use them. -/
  descending : ∀ e, a.Has e → ∀ x ∈ (a.node e).operands, x < e
  /-- The constructor of a node, applied to its operands, gives the node and adds nothing. -/
  found : ∀ e, a.Has e → (a.node e).construct.run a = (e, a)
  /-- One constraint alone is not joined. -/
  several : ∀ e k items, a.Has e → a.node e = .join k items → items.length ≠ 1

theorem WellFormed.unsigned_node (ha : a.WellFormed) (hreduced : a.AllReduced) {e : ExprId}
    (he : a.Has e) : (a.node e).unsigned = a.node e := by
  have hitem := getElem?_of_lt_size he
  cases hn : a.node e with
  | num v =>
    rw [hn] at hitem
    exact congrArg Node.num (ha.literal_unsigned hitem (hreduced hitem))
  | sym | neg | arith | call | compare | join => rfl

theorem WellFormed.hashConsed (ha : a.WellFormed) (hreduced : a.AllReduced) : a.HashConsed where
  numbered e := by
    constructor
    · rintro ⟨n, hn⟩
      exact lt_size_of_getElem? hn
    · exact fun he => ⟨_, getElem?_of_lt_size he⟩
  indexed := ha.table
  distinct e e' he he' h := by
    rw [ha.unsigned_node hreduced he, ha.unsigned_node hreduced he'] at h
    exact ha.number_unique (getElem?_of_lt_size he) (h ▸ getElem?_of_lt_size he')
  descending e _ x hx := ha.lt_of_mem_operands hx
  found e he := ha.run_construct (getElem?_of_lt_size he) (hreduced (getElem?_of_lt_size he))
  several e k items he hn := by
    have hitem := getElem?_of_lt_size he
    rw [hn] at hitem
    exact ha.length_join hitem (hreduced hitem)

/-- Whatever an arena is asked for, and whether this succeeds or not, it holds every distinct expression
once, it keeps all expressions that it had before, and what it is asked for next is one of its
expressions again. -/
theorem Called.holds_expressions_once (ha : Called {} a) (hab : a.Called b) :
    b.HashConsed ∧ a.size ≤ b.size ∧
      (∀ e, a.Has e → b.node e = a.node e ∧ b.symName? e = a.symName? e) ∧
      ∀ r : Call α, (∀ x ∈ r.operands, b.Has x) →
        ∀ e, (r.run.run b).1 = some e → (r.run.run b).2.Has e := by
  have hempty := ha.grows wellFormed_empty
  have hawf := hempty.wellFormed wellFormed_empty
  have hgrows := hab.grows hawf
  have hbwf := hgrows.wellFormed hawf
  have hreduced := hgrows.allReduced (hempty.allReduced allReduced_empty)
  refine ⟨hbwf.hashConsed hreduced, size_mono hgrows.le, fun e he => ?_, fun r hr => ?_⟩
  · exact ⟨node_mono hgrows.le he, hgrows.symName? hawf he⟩
  · exact (Build.extends_of_call hbwf r hr).holds

/-- A symbol is kept when its opposite is made, and when a text is refused after that. -/
theorem Called.holds_expressions_once_after_refusal :
    let a : Arena Binary64 := ((Call.sym ⟨"x", none⟩).run.run {}).2
    let b : Arena Binary64 := ((Call.neg 0).run.run a).2
    let c : Arena Binary64 := ((Call.parse ⟨"y + (", none⟩ 0 5).run.run b).2
    (Called {} a ∧ a.Called c) ∧ c.HashConsed ∧ c.node 0 = .sym "x" := by
  intro a b c
  have hsym : a.table.items[0]? = some (.sym "x") := by
    change (Interner.intern {} (Node.sym "x")).2.items[0]? = some (.sym "x")
    rw [Interner.items_intern]
    simp
  have hx : a.Has 0 := lt_size_of_getElem? hsym
  have ha : Called {} a := .step .refl _ (by simp [Call.operands])
  have hac : a.Called c := .step (.step .refl (.neg 0) (by simpa [Call.operands] using hx)) _
    (by simp [Call.operands])
  obtain ⟨hconsed, -, hkept, -⟩ := ha.holds_expressions_once hac
  exact ⟨⟨ha, hac⟩, hconsed, (hkept 0 hx).1.trans (node_eq_of_getElem? hsym)⟩

end Arena

end HybridPlan
