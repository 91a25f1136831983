import HybridPlan.Expr.Subterms
import HybridPlan.Proofs.Except
import HybridPlan.Proofs.Expr.Reading
import HybridPlan.Proofs.Expr.Reduced

set_option autoImplicit false

/-! # Expressions elsewhere

Where a text stands is kept with its tokens, with the symbols of an arena and in errors. Nothing else depends
on it: the same characters are parsed alike at every place, and add the same expressions under the
same numbers. -/

namespace HybridPlan

variable {α : Type} [Scalar α]

/-! ## Arenas -/

namespace Arena

/-- The arenas hold the same expressions, whose symbols may have been written at different places. -/
def Alike (a b : Arena α) : Prop := a.table = b.table

namespace Alike

variable {a b : Arena α} (h : a.Alike b)
include h

theorem node_eq (e : ExprId) : a.node e = b.node e := by
  rw [node, node, show a.table = b.table from h]

theorem num?_eq (e : ExprId) : a.num? e = b.num? e := by
  rw [num?, num?, h.node_eq]

theorem sym?_eq : a.sym? = b.sym? := by
  funext e
  rw [sym?, sym?, h.node_eq]

theorem treeBelow_eq (n : Nat) : a.treeBelow n = b.treeBelow n := by
  induction n with
  | zero => rfl
  | succ n ih =>
    funext e
    simp only [treeBelow, h.node_eq, ih]

theorem tree_eq (e : ExprId) : a.tree e = b.tree e := congrFun (h.treeBelow_eq (e + 1)) e

theorem walk_eq (n : Nat) (w : Walk) (stack : List (ExprId × Bool)) :
    a.walk n w stack = b.walk n w stack := by
  induction n generalizing w stack with
  | zero => rfl
  | succ n ih => rcases stack with _ | ⟨⟨e, _ | _⟩, stack⟩ <;> simp only [walk, h.node_eq, ih]

theorem subterms_eq (e : ExprId) : a.subterms e = b.subterms e := by
  simp only [subterms, walkLength, h.node_eq, h.walk_eq]

theorem symbols_eq (e : ExprId) : a.symbols e = b.symbols e := by
  rw [symbols, symbols, h.subterms_eq, h.sym?_eq]

end Alike

end Arena

/-! ## Constructors -/

namespace Build

/-- From arenas that are alike, the constructions give the same results and arenas that are alike. -/
def Alike {ι : Type} (m m' : Build α ι) : Prop :=
  ∀ a b : Arena α, a.Alike b → (m.run a).1 = (m'.run b).1 ∧ (m.run a).2.Alike (m'.run b).2

theorem alike_pure {ι : Type} (i : ι) : Alike (pure i : Build α ι) (pure i) :=
  fun _ _ h => ⟨rfl, h⟩

theorem alike_intern (n : Node α) (origin origin' : Option (String × Span)) :
    Alike (intern n origin) (intern n origin') := by
  rintro ⟨table, origins⟩ ⟨table', origins'⟩ h
  obtain rfl : table = table' := h
  exact ⟨rfl, rfl⟩

/-- A construction may look at the nodes of the arena. -/
theorem alike_of_run {ι : Type} {m : Build α ι} {f : Arena α → Build α ι}
    (hrun : ∀ a, m.run a = (f a).run a) (hf : ∀ a b, a.Alike b → f a = f b)
    (h : ∀ a, Alike (f a) (f a)) : Alike m m := by
  intro a b hab
  rw [hrun, hrun, ← hf a b hab]
  exact h a a b hab

theorem alike_num (v : α) : Alike (num v) (num v) := alike_intern _ _ _

theorem alike_neg (x : ExprId) : Alike (neg x : Build α ExprId) (neg x) := by
  refine alike_of_run (run_neg x) (fun a b hab => by rw [hab.node_eq]) fun a => ?_
  split
  · exact alike_num _
  · exact alike_pure _
  · exact alike_intern _ _ _

theorem alike_arith (op : ArithOp) (x y : ExprId) : Alike (arith op x y : Build α ExprId) (arith op x y) := by
  refine alike_of_run (run_arith op x y) (fun a b hab => by rw [hab.num?_eq, hab.num?_eq]) fun a => ?_
  have houtcome := outcome_combine op x y (a.num? x) (a.num? y)
  generalize combine op x y (a.num? x) (a.num? y) = m at houtcome
  cases houtcome with
  | num v => exact alike_num v
  | left => exact alike_pure x
  | right => exact alike_pure y
  | negLeft => exact alike_neg x
  | negRight => exact alike_neg y
  | node => exact alike_intern _ _ _

theorem alike_call (f : Func) (args : List ExprId) : Alike (call f args : Build α ExprId) (call f args) := by
  refine alike_of_run (run_call f args) (fun a b hab => ?_) fun a => ?_
  · have hvalue : callValue f args a = callValue f args b := by
      unfold callValue
      split
      · rw [hab.num?_eq]
      · rfl
    rw [hvalue]
  · split
    · split
      · exact alike_num _
      · exact alike_intern _ _ _
    · exact alike_intern _ _ _

theorem alike_join (c : Connective) (items : List ExprId) :
    Alike (join c items : Build α ExprId) (join c items) := by
  rcases items with _ | ⟨x, _ | ⟨y, items⟩⟩
  · exact alike_intern _ _ _
  · exact alike_pure x
  · exact alike_intern _ _ _

end Build

/-! ## Tokens -/

/-- The same characters are the same tokens wherever they stand. -/
theorem Lexeme.scan_elsewhere {start : Nat} {text : List Char} {tokens : List Lexeme}
    (h : scan start text = .ok tokens) (start' : Nat) : ∃ tokens', scan start' text = .ok tokens' ∧
      tokens'.map (·.token) = tokens.map (·.token) := by
  fun_induction scan start text generalizing tokens start' with
  | case1 start =>
    cases h
    exact ⟨[], by rw [scan], rfl⟩
  | case2 start c r hspace ih =>
    obtain ⟨tokens', hscan, htokens⟩ := ih h (start' + 1)
    exact ⟨tokens', by rw [scan, if_pos hspace, hscan], htokens⟩
  | case3 start c r hspace token n hfirst stop =>
    next ih =>
    obtain ⟨rest, hrest, h⟩ := Except.bind_eq_ok.1 h
    cases h
    obtain ⟨rest', hscan, htokens⟩ := ih hrest (start' + c.utf8Size + Text.byteSize (r.take n))
    refine ⟨⟨token, start', start' + c.utf8Size + Text.byteSize (r.take n)⟩ :: rest', ?_, ?_⟩
    · rw [scan, if_neg hspace, hfirst]
      exact Except.bind_eq_ok.2 ⟨rest', hscan, rfl⟩
    · rw [List.map_cons, List.map_cons, htokens]
  | case4 => cases h

/-! ## The parser -/

/-- The parsers have the same tokens left, and arenas that are alike. -/
structure ParserState.Alike (s s' : ParserState α) : Prop where
  arena : s.arena.Alike s'.arena
  tokens : s'.rest.map (·.token) = s.rest.map (·.token)

namespace ParserState.Alike

variable {s s' : ParserState α} (h : s.Alike s')
include h

theorem head? : s'.rest.head?.map (·.token) = s.rest.head?.map (·.token) := by
  rw [← List.head?_map, ← List.head?_map, h.tokens]

theorem length_eq : s'.rest.length = s.rest.length := by
  rw [← List.length_map (f := (·.token)), h.tokens, List.length_map]

theorem tail : Alike ⟨s.arena, s.rest.tail⟩ ⟨s'.arena, s'.rest.tail⟩ where
  arena := h.arena
  tokens := by rw [List.map_tail, List.map_tail, h.tokens]

end ParserState.Alike

namespace Parser

variable {ι κ : Type} {s s' : ParserState α}

/-- If the first parser succeeds in its state, the second one does so in another state, with the same
result. -/
def Follows (s s' : ParserState α) (p p' : Parser α ι) : Prop :=
  ∀ i t, p.run.run s = (.ok i, t) → ∃ t', p'.run.run s' = (.ok i, t') ∧ t.Alike t'

/-- From all states that are alike. -/
def AlwaysFollows (p p' : Parser α ι) : Prop := ∀ s s' : ParserState α, s.Alike s' → Follows s s' p p'

namespace Follows

variable {p p' : Parser α ι} {f f' : ι → Parser α κ}

theorem pure (h : s.Alike s') (i : ι) : Follows s s' (Pure.pure i) (Pure.pure i) := by
  intro j t hrun
  cases hrun
  exact ⟨s', rfl, h⟩

theorem bind (hp : Follows s s' p p') (hf : ∀ i t t', t.Alike t' → Follows t t' (f i) (f' i)) :
    Follows s s' (p >>= f) (p' >>= f') := by
  intro k u hrun
  obtain ⟨i, t, hi, hk⟩ := run_bind_eq_ok.1 hrun
  obtain ⟨t', hi', ht⟩ := hp i t hi
  obtain ⟨u', hk', hu⟩ := hf i t t' ht k u hk
  exact ⟨u', run_bind_eq_ok.2 ⟨i, t', hi', hk'⟩, hu⟩

theorem throw {e : ParseError} : Follows s s' (MonadExcept.throw e) p' :=
  fun _ _ hrun => absurd hrun not_run_throw

theorem unexpected {input : ParserInput} {what : Expectation} :
    Follows s s' (Parser.unexpected input what) p' :=
  fun _ _ hrun => absurd hrun not_run_unexpected

theorem build {b b' : Build α ι} (h : s.Alike s') (hb : Build.Alike b b') :
    Follows s s' (Parser.build b) (Parser.build b') := by
  intro i t hrun
  cases hrun
  obtain ⟨hresult, harena⟩ := hb s.arena s'.arena h.arena
  refine ⟨⟨(b'.run s'.arena).2, s'.rest⟩, ?_, harena, h.tokens⟩
  rw [run_build, ← hresult]
  rfl

theorem peek {g g' : Option Token → Parser α κ} (h : s.Alike s')
    (hg : ∀ t, Follows s s' (g t) (g' t)) :
    Follows s s' (peek? >>= g) (peek? >>= g') := by
  intro k t hrun
  rw [run_peek] at hrun
  rw [run_peek, h.head?]
  exact hg _ k t hrun

theorem advance (h : s.Alike s') (hp : AlwaysFollows p p') :
    Follows s s' (do Parser.advance; p) (do Parser.advance; p') :=
  hp _ _ h.tail

end Follows

variable {input input' : ParserInput} {item item' : Parser α ExprId}

theorem follows_expect (h : s.Alike s') (t : Token) (what : Expectation) :
    Follows s s' (expect input t what) (expect input' t what) := by
  refine .peek h fun u => ?_
  split
  · intro i t hrun
    cases hrun
    exact ⟨_, rfl, h.tail⟩
  · exact .unexpected

theorem follows_more (hitem : AlwaysFollows item item') (separator : Token) (n : Nat) :
    AlwaysFollows (more separator item n) (more separator item' n) := by
  induction n with
  | zero => exact fun s s' h => .pure h []
  | succ n ih =>
    intro s s' h
    refine .peek h fun t => ?_
    split
    · refine .advance h fun s s' h => .bind (hitem s s' h) fun x t t' ht => ?_
      exact .bind (ih t t' ht) fun xs u u' hu => .pure hu _
    · exact .pure h []

theorem follows_separated (hitem : AlwaysFollows item item') (separator : Token) :
    AlwaysFollows (separated separator item) (separated separator item') := by
  intro s s' h
  refine .bind (hitem s s' h) fun x t t' ht => ?_
  have hmore : Follows t t' (more separator item t.rest.length) (more separator item' t'.rest.length) := by
    rw [ht.length_eq]
    exact follows_more hitem separator _ t t' ht
  exact Follows.bind (f := fun xs => pure (x :: xs)) hmore fun xs u u' hu => .pure hu _

theorem follows_chain (hitem : AlwaysFollows item item') (ops : List ArithOp) (n : Nat) (x : ExprId) :
    AlwaysFollows (chain ops item n x) (chain ops item' n x) := by
  induction n generalizing x with
  | zero => exact fun s s' h => .pure h x
  | succ n ih =>
    intro s s' h
    refine .peek h fun t => ?_
    split
    · split
      · refine .advance h fun s s' h => .bind (hitem s s' h) fun y t t' ht => ?_
        exact .bind (.build ht (Build.alike_arith _ x y)) fun z u u' hu => ih z u u' hu
      · exact .pure h x
    · exact .pure h x

theorem follows_leftAssociative (hitem : AlwaysFollows item item') (ops : List ArithOp) :
    AlwaysFollows (leftAssociative ops item) (leftAssociative ops item') := by
  intro s s' h
  refine .bind (hitem s s' h) fun x t t' ht => ?_
  have hchain : Follows t t' (chain ops item t.rest.length x) (chain ops item' t'.rest.length x) := by
    rw [ht.length_eq]
    exact follows_chain hitem ops _ x t t' ht
  exact hchain

theorem follows_atom (hitem : AlwaysFollows item item') :
    AlwaysFollows (atom input item) (atom input' item') := by
  rintro ⟨a, rest⟩ ⟨a', rest'⟩ h
  have htokens : rest'.map (·.token) = rest.map (·.token) := h.tokens
  intro e t hrun
  unfold atom at hrun ⊢
  rw [run_get] at hrun ⊢
  revert e t
  change Follows _ _ _ _
  cases rest with
  | nil => exact .unexpected
  | cons l rest =>
    obtain ⟨l', rest', rfl, htoken, -⟩ := List.map_eq_cons_iff.1 htokens
    have htoken : l'.token = l.token := htoken
    dsimp only
    rw [htoken]
    split
    · exact .advance h fun s s' h => .build h (Build.alike_num _)
    · refine .advance h fun s s' h => .bind (hitem s s' h) fun x t t' ht => ?_
      exact .bind (follows_expect ht _ _) fun _ u u' hu => .pure hu x
    · refine .advance h fun s s' h => .peek h fun t => ?_
      split
      · split
        · exact .throw
        · refine .advance h fun s s' h => .bind (follows_separated hitem _ s s' h) fun args t t' ht => ?_
          refine .bind (follows_expect ht _ _) fun _ u u' hu => ?_
          split
          · exact .build hu (Build.alike_call _ args)
          · exact .throw
      · exact .build h (Build.alike_intern _ _ _)
    · exact .unexpected

/-- Every level of the grammar is read alike wherever the text stands. -/
theorem follows_level (depth : Nat) (l : Level) :
    AlwaysFollows (level (α := α) input depth l) (level input' depth l) := by
  induction depth generalizing l with
  | zero => exact fun s s' h => .unexpected
  | succ depth ih =>
    intro s s' h
    cases l with
    | disjunction =>
      exact .bind (follows_separated (ih .conjunction) _ s s' h) fun xs t t' ht =>
        .build ht (Build.alike_join .or xs)
    | conjunction =>
      exact .bind (follows_separated (ih .comparison) _ s s' h) fun xs t t' ht =>
        .build ht (Build.alike_join .and xs)
    | comparison =>
      refine .bind (ih .sum s s' h) fun x t t' ht => .peek ht fun t => ?_
      split
      · refine .advance ht fun s s' h => .bind (ih .sum s s' h) fun y u u' hu => ?_
        intro e v hrun
        rw [run_get] at hrun ⊢
        split at hrun
        · exact absurd hrun not_run_throw
        · next hnext =>
          split
          · next l' start stop rest' hrest' =>
            have htokens := hu.tokens
            rw [hrest'] at htokens
            obtain ⟨⟨token, start, stop⟩, rest, hrest, rfl, -⟩ := List.map_eq_cons_iff.1 htokens.symm
            exact absurd hrest (hnext _ start stop rest)
          · exact Follows.build hu (Build.alike_intern _ _ _) e v hrun
      · exact .pure ht x
    | sum => exact follows_leftAssociative (ih .product) _ s s' h
    | product => exact follows_leftAssociative (ih .unary) _ s s' h
    | unary =>
      unfold level
      refine .peek h fun t => ?_
      split
      · refine .advance h fun s s' h => .bind (ih .unary s s' h) fun x t t' ht => ?_
        exact .build ht (Build.alike_neg x)
      · exact .advance h (ih .unary)
      · exact ih .power s s' h
    | power =>
      refine .bind (ih .atom s s' h) fun x t t' ht => .peek ht fun t => ?_
      split
      · refine .advance ht fun s s' h => .bind (ih .unary s s' h) fun y u u' hu => ?_
        exact .build hu (Build.alike_arith .pow x y)
      · exact .pure ht x
    | atom => exact follows_atom (ih .disjunction) s s' h

theorem follows_whole : AlwaysFollows (whole (α := α) input) (whole input') := by
  intro s s' h e t hrun
  unfold whole at hrun ⊢
  rw [run_get] at hrun ⊢
  rw [h.length_eq]
  revert e t
  change Follows _ _ _ _
  refine .bind (follows_level _ _ s s' h) fun x t t' ht => ?_
  intro e u hrun
  rw [run_get] at hrun ⊢
  have hempty : t'.rest.isEmpty = t.rest.isEmpty := by
    rw [← List.isEmpty_map (f := (·.token)), ht.tokens, List.isEmpty_map]
  rw [hempty]
  split at hrun
  · next hdone =>
    rw [if_pos hdone]
    cases hrun
    exact ⟨t', rfl, ht⟩
  · exact absurd hrun not_run_unexpected

end Parser

/-! ## Attempts -/

namespace Build.Attempt

variable {ε ε' ι ι' κ κ' : Type}

/-- If the first attempt succeeds in an arena, the second one does so in every arena that is alike, and
their results are related. -/
def Follows (R : ι → ι' → Prop) (m : Attempt α ε ι) (m' : Attempt α ε' ι') : Prop :=
  ∀ a a' b i, a.Alike a' → m.run.run a = (.ok i, b) →
    ∃ i' b', m'.run.run a' = (.ok i', b') ∧ b.Alike b' ∧ R i i'

/-- Attempts that follow each other item by item do so for lists. -/
theorem Follows.mapM {R : ι → ι' → Prop} {S : κ → κ' → Prop} {f : ι → Attempt α ε κ} {g : ι' → Attempt α ε' κ'}
    {l : List ι} {l' : List ι'} (hl : List.Forall₂ R l l') (hfg : ∀ i i', R i i' → Follows S (f i) (g i')) :
    Follows (List.Forall₂ S) (l.mapM f) (l'.mapM g) := by
  induction hl with
  | nil =>
    rintro a a' b ks ha hrun
    cases hrun
    exact ⟨[], a', rfl, ha, .nil⟩
  | cons hi _ ih =>
    intro a a' b ks ha hrun
    obtain ⟨k, ks, c, hk, hks, rfl⟩ := run_mapM_cons_eq_ok.1 hrun
    obtain ⟨k', c', hk', hc, hkk'⟩ := hfg _ _ hi a a' c k ha hk
    obtain ⟨ks', b', hks', hb, hrest⟩ := ih c c' b ks hc hks
    exact ⟨k' :: ks', b', run_mapM_cons_eq_ok.2 ⟨k', ks', c', hk', hks', rfl⟩, hb, .cons hkk' hrest⟩

/-- The same characters in two ranges are parsed as the same expression. -/
theorem follows_parseRange {source source' : Source} {start stop start' stop' : Nat}
    (htext : Text.slice source'.text.toList start' stop' = Text.slice source.text.toList start stop) :
    Follows (α := α) (· = ·) (parseRange source start stop) (parseRange source' start' stop') := by
  intro a a' b e ha h
  obtain ⟨tokens, a₁, hlift, hparse⟩ := run_bind_eq_ok.1 h
  obtain ⟨hscan, rfl⟩ := run_except_eq_ok.1 hlift
  obtain ⟨tokens', hscan', htokens⟩ := Lexeme.scan_elsewhere hscan start'
  rw [← htext] at hscan'
  -- the parser starts from states that are alike
  obtain ⟨hresult, rfl⟩ := Prod.mk.inj hparse
  obtain ⟨t', hwhole, ht⟩ := @Parser.follows_whole α _ ⟨source, start, stop⟩ ⟨source', start', stop'⟩
    ⟨a, tokens⟩ ⟨a', tokens'⟩ ⟨ha, htokens⟩ e _ (Prod.ext hresult rfl)
  refine ⟨e, t'.arena, run_bind_eq_ok.2 ⟨tokens', a', run_except_eq_ok.2 ⟨hscan', rfl⟩, ?_⟩, ht.arena, rfl⟩
  change (((Parser.whole _).run.run ⟨a', tokens'⟩).1, ((Parser.whole _).run.run ⟨a', tokens'⟩).2.arena) = _
  rw [hwhole]

end Build.Attempt

end HybridPlan
