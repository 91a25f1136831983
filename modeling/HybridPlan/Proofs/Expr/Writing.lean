import HybridPlan.Proofs.Expr.Reading
import HybridPlan.Proofs.Expr.Reduced
import HybridPlan.Proofs.Expr.Tree
import HybridPlan.Proofs.Numbers.Legible

set_option autoImplicit false

/-! # Texts that build an expression

A text writes an expression at a level of the grammar if its tokens are a phrase of the level that builds
the expression. Texts are put together from such texts as the grammar allows: a text of a level is
one of all looser levels, and in parentheses it is an atom. -/

namespace HybridPlan

variable {α : Type} [Scalar α]

/-! ## Levels -/

namespace Level

/-- The next looser level; the loosest level is its own. -/
def looser : Level → Level
  | atom => power
  | power => unary
  | unary => product
  | product => sum
  | sum => comparison
  | comparison => conjunction
  | conjunction | disjunction => disjunction

theorem height_looser {l : Level} (h : l.height < 8) : l.looser.height = l.height + 1 := by
  cases l <;> first | rfl | exact absurd h (by decide)

theorem height_le (l : Level) : l.height ≤ 8 := by cases l <;> decide

theorem eq_of_height_eq {l m : Level} (h : l.height = m.height) : l = m := by
  cases l <;> cases m <;> first | rfl | exact absurd h (by decide)

end Level

namespace ArithOp

/-- The level of what the operator makes. -/
def level : ArithOp → Level
  | add | sub => .sum
  | mul | div => .product
  | pow => .power

/-- The level of the operand on the left. -/
def leftLevel : ArithOp → Level
  | add | sub => .sum
  | mul | div => .product
  | pow => .atom

/-- The level of the operand on the right. -/
def rightLevel : ArithOp → Level
  | add | sub => .product
  | mul | div | pow => .unary

end ArithOp

namespace Connective

/-- The level of what the connective joins to. -/
def level : Connective → Level
  | or => .disjunction
  | and => .conjunction

/-- The level of the items. -/
def itemLevel : Connective → Level
  | or => .conjunction
  | and => .comparison

end Connective

/-! ## Derivations -/

/-- One more operand behind a chain. -/
theorem Chain.snoc {ops : List ArithOp} {item : List Lexeme → Phrase → Prop}
    {us vs : List Lexeme} {x y t : Phrase} (h : Chain ops item us x t) {l : Lexeme} {op : ArithOp} (hl : l.token = .op op) (hop : op ∈ ops)
    (hy : item vs y) : Chain ops item (us ++ l :: vs) x (.operation op t y) := by
  induction h with
  | nil => simpa using Chain.cons hl hop hy .nil
  | cons hl' hop' hy' ht ih => simpa using Chain.cons hl' hop' hy' ih

namespace Derives

variable {us vs : List Lexeme} {t x y : Phrase}

/-- A phrase of a level is one of the next looser level, and builds the same. -/
theorem step {l : Level} (h : Derives l us t) : ∃ t', Derives l.looser us t' ∧
    ∀ (source : Source) (a : Arena α), (t'.build source).run a = (t.build source).run a := by
  have hnil (us : List Lexeme) : us = us ++ [] := (List.append_nil us).symm
  cases l with
  | atom => exact ⟨t, .base h, fun _ _ => rfl⟩
  | power => exact ⟨t, .unsigned h, fun _ _ => rfl⟩
  | unary => exact ⟨t, hnil us ▸ .product h .nil, fun _ _ => rfl⟩
  | product => exact ⟨t, hnil us ▸ .sum h .nil, fun _ _ => rfl⟩
  | sum => exact ⟨t, .sides h, fun _ _ => rfl⟩
  | comparison => exact ⟨.joined .and [t], hnil us ▸ .conjunction h .nil, fun _ _ => rfl⟩
  | conjunction => exact ⟨.joined .or [t], hnil us ▸ .disjunction h .nil, fun _ _ => rfl⟩
  | disjunction => exact ⟨t, h, fun _ _ => rfl⟩

theorem operation {op : ArithOp} (hx : Derives op.leftLevel us x) {l : Lexeme} (hl : l.token = .op op)
    (hy : Derives op.rightLevel vs y) : Derives op.level (us ++ l :: vs) (.operation op x y) := by
  cases op with
  | add | sub =>
    cases hx with
    | sum hx ht =>
      rw [List.append_assoc]
      exact .sum hx (ht.snoc hl (by simp) hy)
  | mul | div =>
    cases hx with
    | product hx ht =>
      rw [List.append_assoc]
      exact .product hx (ht.snoc hl (by simp) hy)
  | pow => exact .power hx hl hy

theorem joined {c : Connective} (ht : Derives c.itemLevel us t) {ts : List Phrase}
    (hts : More (.word c) (Derives c.itemLevel) vs ts) :
    Derives c.level (us ++ vs) (.joined c (t :: ts)) := by
  cases c with
  | or => exact .disjunction ht hts
  | and => exact .conjunction ht hts

end Derives

/-! ## Lists of texts -/

theorem toList_intercalate_cons {ι : Type} (separator s : String) (f : ι → String) (xs : List ι) :
    (String.intercalate separator (s :: xs.map f)).toList =
      s.toList ++ xs.flatMap fun x => separator.toList ++ (f x).toList := by
  induction xs generalizing s with
  | nil => simp
  | cons x xs ih =>
    rw [List.map_cons, String.intercalate_cons_cons, String.toList_append, String.toList_append, ih,
      List.flatMap_cons]
    simp

/-! ## Texts -/

namespace Arena

variable {a : Arena α} {e : ExprId}

/-- In the arena and in all larger ones, the phrase builds the expression. -/
def Rebuilds (a : Arena α) (t : Phrase) (e : ExprId) : Prop :=
  ∀ (source : Source) (b : Arena α), b.WellFormed → a ≤ b → ((t.build source).run b).1 = e

/-- Wherever the text stands before a delimiter, its tokens are a phrase of the level that builds the
expression. -/
def Writes (a : Arena α) (l : Level) (s : String) (e : ExprId) : Prop :=
  ∀ start rest, Token.Delimits rest →
    ∃ us t, Lexeme.Scans start s.toList rest us ∧ Derives l us t ∧ a.Rebuilds t e

namespace Writes

variable {l m : Level} {s : String}

theorem loosen (h : a.Writes l s e) (hlm : l.height ≤ m.height) : a.Writes m s e := by
  obtain ⟨n, hn⟩ := Nat.exists_eq_add_of_le hlm
  induction n generalizing l with
  | zero => exact Level.eq_of_height_eq hn.symm ▸ h
  | succ n ih =>
    have hl := m.height_le
    have hlooser := Level.height_looser (l := l) (by omega)
    refine ih (l := l.looser) (fun start rest hrest => ?_) (by omega) (by omega)
    obtain ⟨us, t, hscan, ht, hbuild⟩ := h start rest hrest
    obtain ⟨t', ht', hsame⟩ := ht.step (α := α)
    exact ⟨us, t', hscan, ht', fun source b hb hab => by rw [hsame]; exact hbuild source b hb hab⟩

theorem bracketed (h : a.Writes l s e) : a.Writes .atom ("(" ++ s ++ ")") e := by
  intro start rest hrest
  have hopen : Lexeme.Scans start ['('] (s.toList ++ ([')'] ++ rest)) _ := .token rfl rfl
  obtain ⟨us, t, hscan, ht, hbuild⟩ := (h.loosen l.height_le (m := .disjunction))
    (start + Text.byteSize ['(']) ([')'] ++ rest) (Token.delimits_cons (by simp))
  have hclose : Lexeme.Scans (start + Text.byteSize (['('] ++ s.toList)) [')'] rest _ := .token rfl rfl
  rw [String.toList_append, String.toList_append]
  exact ⟨_, t, (hopen.append hscan).append hclose, .bracketed rfl ht rfl, hbuild⟩

/-- Parentheses lead to an atom, and without them the text must be of the level. -/
theorem parenthesize (h : a.Writes l s e) {needed : Bool} (hl : needed = false → l.height ≤ m.height) :
    a.Writes m (Expr.parenthesize needed s) e := by
  cases needed with
  | true => exact h.bracketed.loosen (by cases m <;> decide)
  | false => exact h.loosen (hl rfl)

open Lexeme (Scans)

/-- Two texts with a symbol between them. -/
theorem between {k : Level} {x y : ExprId} {s' symbol : String} {f : Phrase → Phrase → Phrase}
    (hx : a.Writes l s x) (token : Token) (hy : a.Writes m s' y)
    (hsymbol : ∀ start rest, Scans start symbol.toList (' ' :: rest)
      [⟨token, start, start + Text.byteSize symbol.toList⟩])
    (hderives : ∀ us vs l₀ t u, l₀.token = token → Derives l us t → Derives m vs u →
      Derives k (us ++ l₀ :: vs) (f t u))
    (hbuilds : ∀ t u, a.Rebuilds t x → a.Rebuilds u y → a.Rebuilds (f t u) e) :
    a.Writes k (s ++ " " ++ symbol ++ " " ++ s') e := by
  intro start rest hrest
  obtain ⟨us, t, hscan, ht, hbuild⟩ := hx start ([' '] ++ (symbol.toList ++ ([' '] ++ (s'.toList ++ rest))))
    (Token.delimits_cons (by simp))
  obtain ⟨vs, u, hscan', hu, hbuild'⟩ := hy
    (start + Text.byteSize (s.toList ++ [' '] ++ symbol.toList ++ [' '])) rest hrest
  have hbefore := ((hscan.append .space).append (hsymbol _ _)).append .space
  have hall := hbefore.append hscan'
  rw [List.append_nil, List.append_nil, List.append_assoc] at hall
  refine ⟨_, f t u, by simpa [String.toList_append] using hall, ?_, hbuilds t u hbuild hbuild'⟩
  exact hderives us vs _ t u rfl ht hu

omit [Scalar α] in
/-- Behind an item there is a separator, or the list ends. -/
theorem delimits_flatMap {separator : List Char} {f : ExprId → String}
    (hdelimits : ∀ rest, Token.Delimits (separator ++ rest)) (xs : List ExprId) {rest : List Char}
    (hrest : Token.Delimits rest) :
    Token.Delimits ((xs.flatMap fun x => separator ++ (f x).toList) ++ rest) := by
  cases xs with
  | nil => exact hrest
  | cons x xs =>
    rw [List.flatMap_cons, List.append_assoc, List.append_assoc]
    exact hdelimits _

/-- Further texts, each behind a separator. -/
theorem more {separator : List Char} {token : Token} {f : ExprId → String} {xs : List ExprId}
    (hxs : ∀ x ∈ xs, a.Writes l (f x) x)
    (hseparator : ∀ start rest, ∃ lx : Lexeme, lx.token = token ∧ Scans start separator rest [lx])
    (hdelimits : ∀ rest, Token.Delimits (separator ++ rest)) (start : Nat) {rest : List Char}
    (hrest : Token.Delimits rest) :
    ∃ us ts, Scans start (xs.flatMap fun x => separator ++ (f x).toList) rest us ∧
      More token (Derives l) us ts ∧ List.Forall₂ a.Rebuilds ts xs := by
  induction xs generalizing start with
  | nil => exact ⟨[], [], .nil, .nil, .nil⟩
  | cons x xs ih =>
    obtain ⟨lx, hlx, hscan⟩ := hseparator start ((f x).toList ++
      ((xs.flatMap fun x => separator ++ (f x).toList) ++ rest))
    obtain ⟨us, t, hscan', ht, hbuild⟩ := hxs x List.mem_cons_self
      (start + Text.byteSize separator) _ (delimits_flatMap hdelimits xs hrest)
    obtain ⟨vs, ts, hscans, hts, hbuilds⟩ := ih (fun y hy => hxs y (List.mem_cons_of_mem x hy))
      (start + Text.byteSize (separator ++ (f x).toList))
    exact ⟨_, t :: ts, (hscan.append hscan').append hscans, .cons hlx ht hts, .cons hbuild hbuilds⟩

/-- One or more texts with separators between them. -/
theorem items {separator : String} {token : Token} {f : ExprId → String} {x : ExprId}
    {xs : List ExprId} (hxs : ∀ y ∈ x :: xs, a.Writes l (f y) y)
    (hseparator : ∀ start rest, ∃ lx : Lexeme, lx.token = token ∧
      Scans start separator.toList rest [lx])
    (hdelimits : ∀ rest, Token.Delimits (separator.toList ++ rest)) (start : Nat) {rest : List Char}
    (hrest : Token.Delimits rest) :
    ∃ us vs t ts, Scans start (String.intercalate separator ((x :: xs).map f)).toList rest (us ++ vs) ∧
      Derives l us t ∧ More token (Derives l) vs ts ∧ List.Forall₂ a.Rebuilds (t :: ts) (x :: xs) := by
  obtain ⟨vs, ts, hscans, hts, hbuilds⟩ := more
    (fun y hy => hxs y (List.mem_cons_of_mem x hy)) hseparator hdelimits
    (start + Text.byteSize (f x).toList) hrest
  obtain ⟨us, t, hscan, ht, hbuild⟩ := hxs x List.mem_cons_self start
    ((xs.flatMap fun x => separator.toList ++ (f x).toList) ++ rest) (delimits_flatMap hdelimits xs hrest)
  refine ⟨us, vs, t, ts, ?_, ht, hts, .cons hbuild hbuilds⟩
  rw [List.map_cons, toList_intercalate_cons]
  exact hscan.append hscans

end Writes

/-! ## Layers -/

namespace Rebuilds

variable {x y : ExprId} {t u : Phrase}

theorem run (h : a.Rebuilds t e) (source : Source) {b : Arena α} (hb : b.WellFormed) (hab : a ≤ b) :
    ∃ c, (t.build source).run b = (e, c) ∧ c.WellFormed ∧ a ≤ c := by
  have hleads := @Phrase.leads_build α _ source b hb t
  exact ⟨_, Prod.ext (h source b hb hab) rfl, hleads.wellFormed, le_trans hab hleads.le⟩

theorem opposite (hx : a.Rebuilds t x) (he : a.Reduced e) (hnode : a.node e = .neg x) :
    a.Rebuilds (.opposite t) e := by
  intro source b hb hab
  obtain ⟨c, hrun, hc, hac⟩ := hx.run source hb hab
  have hconstruct := he.construct hc hac
  rw [hnode] at hconstruct
  rwa [Phrase.run_opposite hrun]

theorem operation {op : ArithOp} (hx : a.Rebuilds t x) (hy : a.Rebuilds u y) (he : a.Reduced e)
    (hnode : a.node e = .arith op x y) : a.Rebuilds (.operation op t u) e := by
  intro source b hb hab
  obtain ⟨c, hrun, hc, hac⟩ := hx.run source hb hab
  obtain ⟨d, hrun', hd, had⟩ := hy.run source hc hac
  have hconstruct := he.construct hd had
  rw [hnode] at hconstruct
  rwa [Phrase.run_operation op hrun hrun']

theorem comparison {op : Comparison} (hx : a.Rebuilds t x) (hy : a.Rebuilds u y) (he : a.Reduced e)
    (hnode : a.node e = .compare op x y) : a.Rebuilds (.comparison op t u) e := by
  intro source b hb hab
  obtain ⟨c, hrun, hc, hac⟩ := hx.run source hb hab
  obtain ⟨d, hrun', hd, had⟩ := hy.run source hc hac
  have hconstruct := he.construct hd had
  rw [hnode] at hconstruct
  rwa [Phrase.run_comparison op hrun hrun']

/-- Phrases that build expressions one after the other build all of them. -/
theorem runAll {ts : List Phrase} {xs : List ExprId} (h : List.Forall₂ a.Rebuilds ts xs)
    (source : Source) {b : Arena α} (hb : b.WellFormed) (hab : a ≤ b) :
    ∃ c, (Phrase.buildAll source ts).run b = (xs, c) ∧ c.WellFormed ∧ a ≤ c := by
  induction h generalizing b with
  | nil => exact ⟨b, rfl, hb, hab⟩
  | cons hx hxs ih =>
    obtain ⟨c, hrun, hc, hac⟩ := hx.run source hb hab
    obtain ⟨d, hrun', hd, had⟩ := ih hc hac
    exact ⟨d, Phrase.run_cons hrun hrun', hd, had⟩

theorem call {f : Func} {ts : List Phrase} {xs : List ExprId} (h : List.Forall₂ a.Rebuilds ts xs)
    (he : a.Reduced e) (hnode : a.node e = .call f xs) : a.Rebuilds (.call f ts) e := by
  intro source b hb hab
  obtain ⟨c, hrun, hc, hac⟩ := runAll h source hb hab
  have hconstruct := he.construct hc hac
  rw [hnode] at hconstruct
  rwa [Phrase.run_call f hrun]

theorem joined {j : Connective} {ts : List Phrase} {xs : List ExprId}
    (h : List.Forall₂ a.Rebuilds ts xs) (he : a.Reduced e) (hnode : a.node e = .join j xs) :
    a.Rebuilds (.joined j ts) e := by
  intro source b hb hab
  obtain ⟨c, hrun, hc, hac⟩ := runAll h source hb hab
  have hconstruct := he.construct hc hac
  rw [hnode] at hconstruct
  rwa [Phrase.run_joined j hrun]

theorem name {s : String} {start stop : Nat} (he : a.Reduced e) (hnode : a.node e = .sym s) :
    a.Rebuilds (.name s start stop) e := by
  intro source b hb hab
  have hconstruct := he.construct hb hab
  rw [hnode] at hconstruct
  exact hconstruct

theorem number {v : α} {m : Decimal.Magnitude} (he : a.Reduced e) (hnode : a.node e = .num v)
    (hm : Scalar.ofNumeral ⟨false, m⟩ = v) : a.Rebuilds (.number m) e := by
  intro source b hb hab
  have hconstruct := he.construct hb hab
  rw [hnode, ← hm] at hconstruct
  exact hconstruct

/-- A negative number is read as the opposite of its magnitude. -/
theorem negativeNumber {v : α} {m : Decimal.Magnitude} (he : a.Reduced e) (hnode : a.node e = .num v)
    (hm : Scalar.ofNumeral ⟨true, m⟩ = v) (hzero : ¬Scalar.isZero (Scalar.ofNumeral ⟨false, m⟩ : α)) :
    a.Rebuilds (.opposite (.number m)) e := by
  intro source b hb hab
  obtain ⟨x, c, hrun, hc, hbc, hx⟩ : ∃ x c, ((Phrase.number m).build source).run b = (x, c) ∧
      c.WellFormed ∧ b ≤ c ∧ c.node x = .num (Scalar.ofNumeral ⟨false, m⟩) := by
    rw [Phrase.build, Build.num, Scalar.unsignedZero, if_neg hzero]
    exact ⟨_, _, rfl, Build.wellFormed_intern _ none hb (by simp [Node.operands]),
      Build.le_intern b _ none, node_eq_of_getElem? (Build.getElem?_intern _ none hb)⟩
  have hconstruct := he.construct hc (le_trans hab hbc)
  rw [hnode, ← hm, Scalar.ofNumeral_negative] at hconstruct
  rw [Phrase.run_opposite hrun, Build.run_neg_of_num hx]
  exact hconstruct

end Rebuilds

end Arena

end HybridPlan
