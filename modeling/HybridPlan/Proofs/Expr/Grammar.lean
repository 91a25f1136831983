import HybridPlan.Expr.Parser

set_option autoImplicit false

/-! # The grammar of expressions

What a text writes, said without a parser. A sequence of tokens is a phrase of a level of the grammar if
it is put together by the rules of that level, and the rules say what the phrase builds: sums and
products group to the left, a power groups to the right and comes before a sign on its left, and a
conjunction or a disjunction keeps the order of its items. -/

namespace HybridPlan

/-! ## Phrases -/

/-- What a sequence of tokens builds. -/
inductive Phrase where
  | number (m : Decimal.Magnitude)
  /-- A symbol, with the bytes at which it stands. -/
  | name (text : String) (start stop : Nat)
  | opposite (x : Phrase)
  | operation (op : ArithOp) (x y : Phrase)
  | call (f : Func) (args : List Phrase)
  | comparison (op : Comparison) (x y : Phrase)
  | joined (c : Connective) (items : List Phrase)

namespace Phrase

variable {α : Type} [Scalar α]

mutual

/-- Applies the constructors of expressions along a phrase, the parts before the whole and from left
to right. -/
def build (source : Source) : Phrase → Build α ExprId
  | number m => Build.num (Scalar.ofNumeral ⟨false, m⟩)
  | name s start stop => Build.sym ⟨s, some ⟨source, start, stop⟩⟩
  | opposite x => do
    let x ← build source x
    Build.neg x
  | operation op x y => do
    let x ← build source x
    let y ← build source y
    Build.arith op x y
  | call f args => do
    let args ← buildAll source args
    Build.call f args
  | comparison op x y => do
    let x ← build source x
    let y ← build source y
    Build.compare op x y
  | joined c items => do
    let items ← buildAll source items
    Build.join c items

/-- Several phrases, from left to right. -/
def buildAll (source : Source) : List Phrase → Build α (List ExprId)
  | [] => return []
  | t :: ts => do
    let x ← build source t
    return x :: (← buildAll source ts)

end

/-! ## Their runs -/

theorem run_bind {ι κ : Type} {m : Build α ι} {f : ι → Build α κ} {a b : Arena α} {i : ι}
    (h : m.run a = (i, b)) : (m >>= f).run a = (f i).run b := by
  have hrun : (m >>= f).run a = (f (m.run a).1).run (m.run a).2 := rfl
  rw [hrun, h]

variable {source : Source} {a b c : Arena α} {x y : Phrase} {xs : List Phrase} {e d : ExprId}
  {es : List ExprId}

theorem run_opposite (hx : (x.build source).run a = (e, b)) :
    ((opposite x).build source).run a = (Build.neg e).run b := by
  rw [build, run_bind hx]

theorem run_operation (op : ArithOp) (hx : (x.build source).run a = (e, b))
    (hy : (y.build source).run b = (d, c)) :
    ((operation op x y).build source).run a = (Build.arith op e d).run c := by
  rw [build, run_bind hx, run_bind hy]

theorem run_comparison (op : Comparison) (hx : (x.build source).run a = (e, b))
    (hy : (y.build source).run b = (d, c)) :
    ((comparison op x y).build source).run a = (Build.compare op e d).run c := by
  rw [build, run_bind hx, run_bind hy]

theorem run_call (f : Func) (hxs : (buildAll source xs).run a = (es, b)) :
    ((call f xs).build source).run a = (Build.call f es).run b := by
  rw [build, run_bind hxs]

theorem run_joined (j : Connective) (hxs : (buildAll source xs).run a = (es, b)) :
    ((joined j xs).build source).run a = (Build.join j es).run b := by
  rw [build, run_bind hxs]

theorem run_cons (hx : (x.build source).run a = (e, b)) (hxs : (buildAll source xs).run b = (es, c)) :
    (buildAll source (x :: xs)).run a = (e :: es, c) := by
  rw [buildAll, run_bind hx, run_bind hxs]
  rfl

theorem length_buildAll (h : (buildAll source xs).run a = (es, b)) : xs.length = es.length := by
  induction xs generalizing a es with
  | nil =>
    cases h
    rfl
  | cons x xs ih =>
    rw [run_cons rfl rfl] at h
    cases h
    rw [List.length_cons, List.length_cons, ih rfl]

end Phrase

/-! ## Rules -/

/-- Further phrases, each behind a separator. -/
inductive More (separator : Token) (item : List Lexeme → Phrase → Prop) :
    List Lexeme → List Phrase → Prop
  | nil : More separator item [] []
  | cons {l : Lexeme} {us vs : List Lexeme} {t : Phrase} {ts : List Phrase}
      (hl : l.token = separator) (ht : item us t) (hts : More separator item vs ts) :
      More separator item (l :: us ++ vs) (t :: ts)

/-- Further operands behind a phrase, each combined by its operator with all that stands before
it. -/
inductive Chain (ops : List ArithOp) (item : List Lexeme → Phrase → Prop) :
    List Lexeme → Phrase → Phrase → Prop
  | nil {x : Phrase} : Chain ops item [] x x
  | cons {l : Lexeme} {us vs : List Lexeme} {op : ArithOp} {x y t : Phrase}
      (hl : l.token = .op op) (hop : op ∈ ops) (hy : item us y)
      (ht : Chain ops item vs (.operation op x y) t) : Chain ops item (l :: us ++ vs) x t

/-- The sequences of tokens of a level of the grammar, and what they build. -/
inductive Derives : Level → List Lexeme → Phrase → Prop
  | disjunction {us vs : List Lexeme} {t : Phrase} {ts : List Phrase} (ht : Derives .conjunction us t)
      (hts : More (.word .or) (Derives .conjunction) vs ts) :
      Derives .disjunction (us ++ vs) (.joined .or (t :: ts))
  | conjunction {us vs : List Lexeme} {t : Phrase} {ts : List Phrase} (ht : Derives .comparison us t)
      (hts : More (.word .and) (Derives .comparison) vs ts) :
      Derives .conjunction (us ++ vs) (.joined .and (t :: ts))
  | sides {us : List Lexeme} {t : Phrase} (ht : Derives .sum us t) : Derives .comparison us t
  | comparison {l : Lexeme} {us vs : List Lexeme} {op : Comparison} {x y : Phrase}
      (hx : Derives .sum us x) (hl : l.token = .compare op) (hy : Derives .sum vs y) :
      Derives .comparison (us ++ l :: vs) (.comparison op x y)
  | sum {us vs : List Lexeme} {x t : Phrase} (hx : Derives .product us x)
      (ht : Chain [.add, .sub] (Derives .product) vs x t) : Derives .sum (us ++ vs) t
  | product {us vs : List Lexeme} {x t : Phrase} (hx : Derives .unary us x)
      (ht : Chain [.mul, .div] (Derives .unary) vs x t) : Derives .product (us ++ vs) t
  | opposite {l : Lexeme} {us : List Lexeme} {x : Phrase} (hl : l.token = .op .sub)
      (hx : Derives .unary us x) : Derives .unary (l :: us) (.opposite x)
  | unchanged {l : Lexeme} {us : List Lexeme} {x : Phrase} (hl : l.token = .op .add)
      (hx : Derives .unary us x) : Derives .unary (l :: us) x
  | unsigned {us : List Lexeme} {t : Phrase} (ht : Derives .power us t) : Derives .unary us t
  | base {us : List Lexeme} {t : Phrase} (ht : Derives .atom us t) : Derives .power us t
  | power {l : Lexeme} {us vs : List Lexeme} {x y : Phrase} (hx : Derives .atom us x)
      (hl : l.token = .op .pow) (hy : Derives .unary vs y) :
      Derives .power (us ++ l :: vs) (.operation .pow x y)
  | number {l : Lexeme} {m : Decimal.Magnitude} (hl : l.token = .num m) :
      Derives .atom [l] (.number m)
  | name {l : Lexeme} {s : String} (hl : l.token = .ident s) :
      Derives .atom [l] (.name s l.start l.stop)
  | call {l lo lc : Lexeme} {us vs : List Lexeme} {s : String} {f : Func} {t : Phrase}
      {ts : List Phrase} (hl : l.token = .ident s) (hf : Func.ofName? s = some f)
      (hlo : lo.token = .leftParen) (ht : Derives .disjunction us t)
      (hts : More .comma (Derives .disjunction) vs ts) (harity : (t :: ts).length = f.arity)
      (hlc : lc.token = .rightParen) :
      Derives .atom (l :: lo :: (us ++ vs) ++ [lc]) (.call f (t :: ts))
  | bracketed {lo lc : Lexeme} {us : List Lexeme} {t : Phrase} (hlo : lo.token = .leftParen)
      (ht : Derives .disjunction us t) (hlc : lc.token = .rightParen) :
      Derives .atom (lo :: us ++ [lc]) t

/-! ## Heights -/

/-- The height of a level, counted from that of atoms. -/
def Level.height : Level → Nat
  | atom => 1
  | power => 2
  | unary => 3
  | product => 4
  | sum => 5
  | comparison => 6
  | conjunction => 7
  | disjunction => 8

/-- The lowest level of which a token continues a phrase. -/
def Token.continues : Token → Nat
  | leftParen => 1
  | op .pow => 2
  | op .mul | op .div => 4
  | op .add | op .sub => 5
  | compare _ => 6
  | word .and => 7
  | word .or => 8
  | num _ | ident _ | rightParen | comma => 9

/-- The tokens do not continue a phrase of the level. -/
def Level.Ends (l : Level) (rest : List Lexeme) : Prop :=
  ∀ x ∈ rest.head?, l.height < x.token.continues

namespace Level.Ends

variable {l m : Level} {x : Lexeme} {rest : List Lexeme}

theorem nil : l.Ends [] := nofun

theorem cons (h : l.height < x.token.continues) : l.Ends (x :: rest) := by
  intro y hy
  cases hy
  exact h

/-- What does not continue a phrase does not continue any part of it. -/
theorem mono (h : m.Ends rest) (hl : l.height ≤ m.height) : l.Ends rest :=
  fun x hx => Nat.lt_of_le_of_lt hl (h x hx)

theorem ne (h : l.Ends rest) {t : Token} (ht : t.continues ≤ l.height) :
    ∀ x ∈ rest.head?, x.token ≠ t := by
  intro x hx htoken
  have hlt := h x hx
  rw [htoken] at hlt
  omega

/-- The exponent of a power can have a sign, which no token continues. -/
theorem exponent (h : Level.Ends .power rest) : Level.Ends .unary rest := by
  intro x hx
  have hlt := h x hx
  have hne (t : Token) : t.continues ≠ 3 := by
    unfold Token.continues
    split <;> decide
  have := hne x.token
  simp only [Level.height] at hlt ⊢
  omega

end Level.Ends

/-! ## Derivations in parts -/

namespace More

variable {separator : Token} {item item' : List Lexeme → Phrase → Prop} {us vs : List Lexeme}
  {ts ts' : List Phrase}

theorem mono (h : More separator item us ts)
    (hitem : ∀ vs t, vs.length < us.length → item vs t → item' vs t) : More separator item' us ts := by
  induction h with
  | nil => exact .nil
  | @cons l vs ws t ts hl ht hts ih =>
    simp only [List.length_append, List.length_cons] at hitem
    refine .cons hl (hitem vs t (by omega) ht) (ih fun xs t' h => hitem xs t' (by omega))

/-- There is a separator for each further phrase. -/
theorem length_le (h : More separator item us ts) : ts.length ≤ us.length := by
  induction h with
  | nil => exact Nat.le_refl _
  | cons hl ht hts ih =>
    simp only [List.length_append, List.length_cons]
    omega

end More

namespace Chain

variable {ops : List ArithOp} {item item' : List Lexeme → Phrase → Prop} {us vs : List Lexeme}
  {x y t : Phrase}

theorem mono (h : Chain ops item us x t)
    (hitem : ∀ vs t, vs.length < us.length → item vs t → item' vs t) : Chain ops item' us x t := by
  induction h with
  | nil => exact .nil
  | @cons l vs ws op x y t hl hop hy ht ih =>
    simp only [List.length_append, List.length_cons] at hitem
    refine .cons hl hop (hitem vs y (by omega) hy) (ih fun xs t' h => hitem xs t' (by omega))

end Chain

namespace Derives

variable {us : List Lexeme} {t : Phrase}

/-- An atom begins with no operator. -/
theorem head_atom (h : Derives .atom us t) :
    ∃ l us', us = l :: us' ∧ ∀ op, l.token ≠ .op op := by
  cases h with
  | number hl | name hl | call hl | bracketed hl =>
    refine ⟨_, _, rfl, fun op h => ?_⟩
    rw [hl] at h
    cases h

/-- A power begins with no sign. -/
theorem head_power (h : Derives .power us t) :
    ∃ l us', us = l :: us' ∧ ∀ op, l.token ≠ .op op := by
  cases h with
  | base ht => exact ht.head_atom
  | power hx hl hy =>
    obtain ⟨l, us', rfl, hop⟩ := hx.head_atom
    exact ⟨l, _, rfl, hop⟩

end Derives

end HybridPlan
