import HybridPlan.Proofs.Expr.Reading
import HybridPlan.Proofs.Expr.Reduced

set_option autoImplicit false

/-! # What parsing preserves

A parser does four things to its state: it interns a node, skips a token that is no name, takes the name of a
function, or turns a name into a symbol. What all four preserve holds after every parser; and what is true of
an error at the next token and of one at the end of the text is true of every error. -/

namespace HybridPlan

variable {α : Type} [Scalar α]

/-! ## Constructors -/

namespace Build

/-- The construction preserves a property of arenas. -/
def Maintains {ι : Type} (I : Arena α → Prop) (m : Build α ι) : Prop := ∀ a, I a → I (m.run a).2

/-- The property is preserved when a node is interned that is no symbol. -/
def Robust (I : Arena α → Prop) : Prop :=
  ∀ (a : Arena α) (n : Node α), I a → (∀ s, n ≠ .sym s) → I ((intern n).run a).2

variable {I : Arena α → Prop}

theorem maintains_pure {ι : Type} (i : ι) : Maintains I (pure i : Build α ι) := fun _ h => h

theorem maintains_of_run {ι : Type} {m : Build α ι} {f : Arena α → Build α ι}
    (hrun : ∀ a, m.run a = (f a).run a) (h : ∀ a, Maintains I (f a)) : Maintains I m := by
  intro a ha
  rw [hrun]
  exact h a a ha

variable (hI : Robust I)
include hI

theorem maintains_intern {n : Node α} (hn : ∀ s, n ≠ .sym s) : Maintains I (intern n) :=
  fun a ha => hI a n ha hn

theorem maintains_num (v : α) : Maintains I (num v) := maintains_intern hI fun _ h => by cases h

theorem maintains_neg (x : ExprId) : Maintains I (neg x) := by
  refine maintains_of_run (run_neg x) fun a => ?_
  split
  · exact maintains_num hI _
  · exact maintains_pure _
  · exact maintains_intern hI fun _ h => by cases h

theorem maintains_arith (op : ArithOp) (x y : ExprId) : Maintains I (arith op x y) := by
  refine maintains_of_run (run_arith op x y) fun a => ?_
  have houtcome := outcome_combine op x y (a.num? x) (a.num? y)
  generalize combine op x y (a.num? x) (a.num? y) = m at houtcome
  cases houtcome with
  | num v => exact maintains_num hI v
  | left => exact maintains_pure x
  | right => exact maintains_pure y
  | negLeft => exact maintains_neg hI x
  | negRight => exact maintains_neg hI y
  | node => exact maintains_intern hI fun _ h => by cases h

theorem maintains_call (f : Func) (args : List ExprId) : Maintains I (call f args) := by
  have hnode : Maintains I (intern (.call f args)) := maintains_intern hI fun _ h => by cases h
  refine maintains_of_run (run_call f args) fun a => ?_
  split
  · split
    · exact maintains_num hI _
    · exact hnode
  · exact hnode

theorem maintains_compare (op : Comparison) (x y : ExprId) : Maintains I (compare op x y) :=
  maintains_intern hI fun _ h => by cases h

theorem maintains_join (c : Connective) (items : List ExprId) : Maintains I (join c items) := by
  rcases items with _ | ⟨x, _ | ⟨y, items⟩⟩
  · exact maintains_intern hI fun _ h => by cases h
  · exact maintains_pure x
  · exact maintains_intern hI fun _ h => by cases h

end Build

namespace Parser

/-- A property of states that every parser preserves, and one of the errors that it meets. -/
structure Preserved (input : ParserInput) (I : ParserState α → Prop) (E : ParseError → Prop) : Prop where
  intern : ∀ {rest}, Build.Robust fun a => I ⟨a, rest⟩
  skip : ∀ {a l rest}, I ⟨a, l :: rest⟩ → (∀ name, l.token ≠ .ident name) → I ⟨a, rest⟩
  function : ∀ {a l rest name}, I ⟨a, l :: rest⟩ → l.token = .ident name →
    rest.head?.map (·.token) = some .leftParen → I ⟨a, rest⟩
  symbol : ∀ {a l rest name}, I ⟨a, l :: rest⟩ → l.token = .ident name →
    rest.head?.map (·.token) ≠ some .leftParen →
      I ⟨((Build.sym ⟨name, some ⟨input.source, l.start, l.stop⟩⟩).run a).2, rest⟩
  found : ∀ {a l rest}, I ⟨a, l :: rest⟩ → ∀ fault, E ⟨fault, l.start, l.stop⟩
  ended : ∀ what, E ⟨.unexpectedEnd what, lastByte input, lastByte input + 1⟩

/-- From this state, the parser ends in a state with the property, or with an error that has its own. -/
structure Keeps {ι : Type} (I : ParserState α → Prop) (E : ParseError → Prop) (s : ParserState α)
    (p : Parser α ι) : Prop where
  state : ∀ i, (p.run.run s).1 = .ok i → I (p.run.run s).2
  error : ∀ e, (p.run.run s).1 = .error e → E e

section

variable {ι κ : Type} {input : ParserInput} {I : ParserState α → Prop} {E : ParseError → Prop}
  {s : ParserState α}

namespace Keeps

variable {p : Parser α ι} {f : ι → Parser α κ}

theorem pure (h : I s) (i : ι) : Keeps I E s (Pure.pure i : Parser α ι) :=
  ⟨fun _ _ => h, fun _ he => by cases he⟩

theorem throw {e : ParseError} (h : E e) : Keeps I E s (MonadExcept.throw e : Parser α ι) :=
  ⟨fun _ hi => (by cases hi), fun _ he => (by cases he; exact h)⟩

theorem bind (hp : Keeps I E s p) (hf : ∀ i t, I t → Keeps I E t (f i)) : Keeps I E s (p >>= f) := by
  have hrun : (p >>= f).run.run s = (ExceptT.bindCont f (p.run.run s).1).run (p.run.run s).2 := rfl
  cases hr : (p.run.run s).1 with
  | error e =>
    rw [hr] at hrun
    constructor <;> rw [hrun]
    · intro i hi
      cases hi
    · intro e' he
      cases he
      exact hp.error e hr
  | ok i =>
    rw [hr] at hrun
    constructor <;> rw [hrun]
    · exact (hf i _ (hp.state i hr)).state
    · exact (hf i _ (hp.state i hr)).error

theorem build {b : Build α ι} (h : I s) (hb : Build.Maintains (fun a => I ⟨a, s.rest⟩) b) :
    Keeps I E s (Parser.build b) :=
  ⟨fun _ _ => hb s.arena h, fun _ he => by cases he⟩

theorem get {f : ParserState α → Parser α κ} (h : Keeps I E s (f s)) : Keeps I E s (MonadState.get >>= f) :=
  ⟨h.state, h.error⟩

theorem peek {f : Option Token → Parser α κ} (h : Keeps I E s (f (s.rest.head?.map (·.token)))) :
    Keeps I E s (peek? >>= f) :=
  ⟨h.state, h.error⟩

theorem advance {m : Parser α κ} (h : Keeps I E ⟨s.arena, s.rest.tail⟩ m) :
    Keeps I E s (do Parser.advance; m) :=
  ⟨h.state, h.error⟩

end Keeps

namespace Preserved

variable (hI : Preserved input I E)
include hI

/-- A token that is no name is skipped. -/
theorem tail (h : I s) {t : Token} (ht : s.rest.head?.map (·.token) = some t)
    (hname : ∀ name, t ≠ .ident name) : I ⟨s.arena, s.rest.tail⟩ := by
  obtain ⟨a, rest⟩ := s
  obtain ⟨l, hl, rfl⟩ := Option.map_eq_some_iff.1 ht
  obtain ⟨rest, rfl⟩ := List.head?_eq_some_iff.1 hl
  exact hI.skip h hname

theorem unexpected (h : I s) (what : Expectation) :
    Keeps I E s (Parser.unexpected input what : Parser α ι) := by
  refine .get ?_
  split
  · next l rest hrest =>
    obtain ⟨a, rest'⟩ := s
    obtain rfl : rest' = l :: rest := hrest
    exact .throw (hI.found h _)
  · exact .throw (hI.ended what)

theorem expect (h : I s) {t : Token} (ht : ∀ name, t ≠ .ident name) (what : Expectation) :
    Keeps I E s (Parser.expect input t what) := by
  refine .peek ?_
  split
  · next hnext => exact ⟨fun _ _ => hI.tail h hnext ht, fun _ he => by cases he⟩
  · exact hI.unexpected h what

end Preserved

/-! ## Lists and chains -/

variable {item : Parser α ExprId}

/-- From every state with the property. -/
def AlwaysKeeps (I : ParserState α → Prop) (E : ParseError → Prop) (p : Parser α ι) : Prop :=
  ∀ s, I s → Keeps I E s p

namespace Preserved

variable (hI : Preserved input I E)
include hI

theorem more {separator : Token} (hname : ∀ name, separator ≠ .ident name) (hitem : AlwaysKeeps I E item)
    (n : Nat) : AlwaysKeeps I E (more separator item n) := by
  induction n with
  | zero => exact fun s h => .pure h []
  | succ n ih =>
    intro s h
    refine .peek ?_
    split
    · next hnext =>
      refine .advance (.bind (hitem _ (hI.tail h hnext hname)) fun x t ht => ?_)
      exact .bind (ih t ht) fun xs u hu => .pure hu _
    · exact .pure h []

theorem separated {separator : Token} (hname : ∀ name, separator ≠ .ident name)
    (hitem : AlwaysKeeps I E item) : AlwaysKeeps I E (separated separator item) :=
  fun s h => .bind (hitem s h) fun _ t ht => .get <|
    Keeps.bind (hI.more hname hitem t.rest.length t ht) fun _ _ hu => .pure hu _

theorem chain (hitem : AlwaysKeeps I E item) (ops : List ArithOp) (n : Nat) (x : ExprId) :
    AlwaysKeeps I E (chain ops item n x) := by
  induction n generalizing x with
  | zero => exact fun s h => .pure h x
  | succ n ih =>
    intro s h
    refine .peek ?_
    split
    · next op hnext =>
      split
      · have htail := hI.tail h hnext fun _ h => by cases h
        refine .advance (.bind (hitem _ htail) fun y t ht => ?_)
        exact .bind (.build ht (Build.maintains_arith hI.intern op x y)) fun z u hu => ih z u hu
      · exact .pure h x
    · exact .pure h x

theorem leftAssociative (hitem : AlwaysKeeps I E item) (ops : List ArithOp) :
    AlwaysKeeps I E (leftAssociative ops item) :=
  fun s h => .bind (hitem s h) fun x t ht => .get (hI.chain hitem ops t.rest.length x t ht)

/-! ## The grammar -/

/-- A name is that of a function or a symbol, as the next token shows. -/
theorem atom (hitem : AlwaysKeeps I E item) : AlwaysKeeps I E (atom input item) := by
  rintro ⟨a, rest⟩ h
  refine .get ?_
  dsimp only
  cases rest with
  | nil => exact hI.unexpected h _
  | cons l rest =>
    dsimp only
    split
    · next m hm =>
      have htail : I ⟨a, rest⟩ := hI.skip h fun name hname => by rw [hm] at hname; cases hname
      exact .advance (.build htail (Build.maintains_num hI.intern _))
    · next hm =>
      have htail : I ⟨a, rest⟩ := hI.skip h fun name hname => by rw [hm] at hname; cases hname
      refine .advance (.bind (hitem _ htail) fun x t ht => ?_)
      exact .bind (hI.expect ht (fun _ h => by cases h) _) fun _ u hu => .pure hu x
    · next name hname =>
      refine .advance (.peek ?_)
      split
      · next hnext =>
        have hfunction : I ⟨a, rest⟩ := hI.function h hname hnext
        split
        · exact .throw (hI.found h _)
        · next f _ =>
          have htail := hI.tail hfunction hnext fun _ h => by cases h
          refine .advance (.bind (hI.separated (fun _ h => by cases h) hitem _ htail) fun args t ht => ?_)
          refine .bind (hI.expect ht (fun _ h => by cases h) _) fun _ u hu => ?_
          split
          · exact .build hu (Build.maintains_call hI.intern f args)
          · exact .throw (hI.found h _)
      · next hnext => exact ⟨fun _ _ => hI.symbol h hname hnext, fun _ he => by cases he⟩
    · exact hI.unexpected h _

theorem level (depth : Nat) (l : Level) : AlwaysKeeps I E (level input depth l) := by
  induction depth generalizing l with
  | zero => exact fun s h => hI.unexpected h _
  | succ depth ih =>
    intro s h
    cases l with
    | disjunction =>
      exact .bind (hI.separated (fun _ h => by cases h) (ih .conjunction) s h) fun xs t ht =>
        .build ht (Build.maintains_join hI.intern .or xs)
    | conjunction =>
      exact .bind (hI.separated (fun _ h => by cases h) (ih .comparison) s h) fun xs t ht =>
        .build ht (Build.maintains_join hI.intern .and xs)
    | comparison =>
      refine .bind (ih .sum s h) fun x t ht => .peek ?_
      split
      · next op hnext =>
        have htail := hI.tail ht hnext fun _ h => by cases h
        refine .advance (.bind (ih .sum _ htail) fun y u hu => .get ?_)
        split
        · next start stop rest hrest =>
          obtain ⟨a, rest'⟩ := u
          obtain rfl : rest' = _ := hrest
          exact .throw (hI.found hu _)
        · exact .build hu (Build.maintains_compare hI.intern op x y)
      · exact .pure ht x
    | sum => exact hI.leftAssociative (ih .product) _ s h
    | product => exact hI.leftAssociative (ih .unary) _ s h
    | unary =>
      unfold Parser.level
      refine .peek ?_
      split
      · next hnext =>
        have htail := hI.tail h hnext fun _ h => by cases h
        refine .advance (.bind (ih .unary _ htail) fun x t ht => ?_)
        exact .build ht (Build.maintains_neg hI.intern x)
      · next hnext => exact .advance (ih .unary _ (hI.tail h hnext fun _ h => by cases h))
      · exact ih .power s h
    | power =>
      refine .bind (ih .atom s h) fun x t ht => .peek ?_
      split
      · next hnext =>
        have htail := hI.tail ht hnext fun _ h => by cases h
        refine .advance (.bind (ih .unary _ htail) fun y u hu => ?_)
        exact .build hu (Build.maintains_arith hI.intern .pow x y)
      · exact .pure ht x
    | atom => exact hI.atom (ih .disjunction) s h

theorem whole : AlwaysKeeps I E (whole input) := fun s h =>
  .get <| .bind (hI.level _ _ s h) fun x t ht => .get <| by
    split
    · exact .pure ht x
    · exact hI.unexpected ht _

theorem of_whole {s' : ParserState α} {e : ExprId} (h : (Parser.whole input).run.run s = (.ok e, s'))
    (hs : I s) : I s' := by
  have hstate := (hI.whole s hs).state e (by rw [h])
  rwa [h] at hstate

end Preserved

end

end Parser

end HybridPlan
