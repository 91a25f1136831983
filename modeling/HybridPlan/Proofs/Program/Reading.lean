import HybridPlan.Proofs.Numbers.Value
import HybridPlan.Proofs.Program.Construction
import HybridPlan.Proofs.Program.Reader

set_option autoImplicit false

/-! # Texts of terms are read

The text of a term whose constants are no negative zeros and whose sums have at least two items is
read, unless a power is written as the base of a power. What is read is the term itself, but for
negative numbers, square roots and powers with variable exponents, which have texts of their own. -/

namespace HybridPlan

namespace Cip

/-! ## What texts are read as -/

/-- What the text of a constant is read as: a negative number is the opposite of a positive one. -/
def constant (c : Binary64) : Term Binary64 :=
  if Scalar.eq c (-Scalar.infinity) then .const c
  else if Scalar.lt c Scalar.zero then .neg (.const (-c))
  else if Scalar.isUndefined c then .const Scalar.undefined
  else .const c

/-- The exponent of a square root. -/
def half : Binary64 := Scalar.ofNumeral ⟨false, .decimal 5 (-1)⟩

mutual

/-- What the text of a term is read as. -/
def reading : Term Binary64 → Term Binary64
  | .const c => constant c
  | .var v => .var v
  | .neg a => .neg (reading a)
  | .sum items => .sum (readings items)
  | .binary .pow a (.const e) => .binary .pow (reading a) (constant e)
  | .binary .pow a b => .call .exp (.binary .mul (reading b) (.call .log (reading a)))
  | .binary op a b => .binary op (reading a) (reading b)
  | .call .sqrt a => .binary .pow (reading a) (.const half)
  | .call f a => .call f (reading a)

def readings : List (Term Binary64) → List (Term Binary64)
  | [] => []
  | t :: ts => reading t :: readings ts

end

end Cip

/-! ## Powers as bases -/

namespace Term

variable {α : Type}

/-- The base of a term that is written as a power. -/
def base? : Term α → Option (Term α)
  | .binary .pow a (.const _) | .call .sqrt a => some a
  | _ => none

/-- A part of a term, possibly all of it. -/
inductive Part (s : Term α) : Term α → Prop
  | self : Part s s
  | neg {a : Term α} (h : Part s a) : Part s (.neg a)
  | item {items : List (Term α)} {a : Term α} (ha : a ∈ items) (h : Part s a) : Part s (.sum items)
  | left {op : TermOp} {a b : Term α} (h : Part s a) : Part s (.binary op a b)
  | right {op : TermOp} {a b : Term α} (h : Part s b) : Part s (.binary op a b)
  | argument {f : Elementary} {a : Term α} (h : Part s a) : Part s (.call f a)

/-- Nowhere in the term is a power written as the base of a power. -/
def Unchained (t : Term α) : Prop :=
  ∀ s base : Term α, s.Part t → s.base? = some base → base.base? = none

end Term

namespace Cip

variable {var? : String → Option VarId} {text written cs : List Char} {a u : Term Binary64}

/-! ## Constants -/

/-- How the text of a constant, what is written for it in a term, and what is read are related. -/
inductive Spells : List Char → List Char → Term Binary64 → Prop
  | infinity : Spells ['i', 'n', 'f'] ['+', 'i', 'n', 'f'] (.const Scalar.infinity)
  | negInfinity :
      Spells ['-', 'i', 'n', 'f'] ['-', 'i', 'n', 'f'] (.const (-Scalar.infinity))
  | unsigned {word : List Char} {m : Decimal.Magnitude} (hne : word ≠ [])
      (hletter : word.head? ≠ some 'i') (hword : ∀ c ∈ word, isWordChar c = true)
      (hm : Decimal.Magnitude.read? word = some m) :
      Spells word word (.const (Scalar.ofNumeral ⟨false, m⟩))
  | negative {word : List Char} {m : Decimal.Magnitude} (hne : word ≠ [])
      (hletter : word.head? ≠ some 'i') (hword : ∀ c ∈ word, isWordChar c = true)
      (hm : Decimal.Magnitude.read? word = some m) :
      Spells ('-' :: word) ('(' :: ('-' :: word ++ [')']))
        (.neg (.const (Scalar.ofNumeral ⟨false, m⟩)))

theorem isWordChar_of_isNumberChar {c : Char} (h : Token.isNumberChar c = true) :
    isWordChar c = true := by
  rcases Bool.or_eq_true_iff.1 h with hdigit | hpoint
  · simp [isWordChar, Char.isAlphanum, hdigit]
  · simp [isWordChar, of_decide_eq_true hpoint]

theorem letter_of_isDecimal (h : Token.IsDecimal cs) : cs.head? ≠ some 'i' := by
  intro hi
  have hnumber := h.isNumberChar 'i' (List.mem_of_mem_head? hi)
  contradiction

theorem spells_written {c : Binary64} (hc : Scalar.unsignedZero c = c)
    (hinfinity : ¬Scalar.eq c Scalar.infinity = true)
    (hinfinity' : ¬Scalar.eq c (-Scalar.infinity) = true)
    (hdefined : ¬Scalar.isUndefined c = true) :
    Spells (Scalar.text c).toList (number c).toList (constant c) := by
  obtain ⟨negative, digits, m, h⟩ := Binary64.legible_of_defined hdefined hinfinity hinfinity'
  have hword : ∀ d ∈ digits, isWordChar d = true := fun d hd =>
    isWordChar_of_isNumberChar (h.decimal.isNumberChar d hd)
  have hmagnitude := Scalar.read?_of_isDecimal h.decimal h.read
  have hletter := letter_of_isDecimal h.decimal
  have htext := h.text
  cases negative with
  | false =>
    have hlt : ¬Scalar.lt c Scalar.zero = true := fun hlt => by
      cases h.sign.2 (.inl hlt)
    rw [number, if_neg hinfinity, if_neg hinfinity', if_neg hlt, constant, if_neg hinfinity',
      if_neg hlt, if_neg hdefined, htext, if_neg nofun, ← h.value]
    exact .unsigned h.decimal.ne_nil hletter hword hmagnitude
  | true =>
    have hlt : Scalar.lt c Scalar.zero = true := (h.sign.1 rfl).resolve_right (· hc)
    have hopposite : -c = Scalar.ofNumeral ⟨false, m⟩ := by
      rw [← h.value, Scalar.ofNumeral_negative, Binary64.neg_neg_eq]
    rw [number, if_neg hinfinity, if_neg hinfinity', if_pos hlt, constant, if_neg hinfinity',
      if_pos hlt, String.toList_append, String.toList_append, htext, if_pos rfl, hopposite]
    exact .negative h.decimal.ne_nil hletter hword hmagnitude

/-- A constant that is no negative zero is spelled. -/
theorem spells_constant {c : Binary64} (hc : Scalar.unsignedZero c = c) :
    Spells (Scalar.text c).toList (number c).toList (constant c) := by
  by_cases hinfinity : Scalar.eq c Scalar.infinity = true
  · obtain rfl := Binary64.eq_of_eq_infinity hinfinity
    exact .infinity
  by_cases hinfinity' : Scalar.eq c (-Scalar.infinity) = true
  · obtain rfl := Binary64.eq_of_eq_neg_infinity hinfinity'
    exact .negInfinity
  by_cases hdefined : Scalar.isUndefined c = true
  · obtain ⟨negative, rfl⟩ := Binary64.isUndefined_iff.1 hdefined
    have hword : ∀ d ∈ ['N', 'a', 'N'], isWordChar d = true := List.all_eq_true.1 rfl
    cases negative <;>
      exact .unsigned (List.cons_ne_nil _ _) (by decide) hword (m := .undefined) rfl
  exact spells_written hc hinfinity hinfinity' hdefined

theorem front_word (hne : cs ≠ []) (hletter : cs.head? ≠ some 'i')
    (hword : ∀ c ∈ cs, isWordChar c = true) : Front cs where
  ne_nil := hne
  letter := hletter
  signless := by
    rintro r rfl
    have hminus := hword '-' List.mem_cons_self
    contradiction

theorem isItem_word {m : Decimal.Magnitude} (hne : cs ≠ [])
    (hword : ∀ c ∈ cs, isWordChar c = true) (hm : Decimal.Magnitude.read? cs = some m) :
    IsItem var? cs (.const (Scalar.ofNumeral ⟨false, m⟩)) :=
  (isAtom_number hne hword hm).isItem hne

namespace Spells

theorem front (h : Spells text written u) : Front written := by
  cases h with
  | infinity => exact front_cons (by decide) (by decide) _
  | negInfinity =>
    refine ⟨List.cons_ne_nil _ _, by decide, ?_⟩
    rintro r heq
    cases heq
    rfl
  | unsigned hne hletter hword _ => exact front_word hne hletter hword
  | negative => exact front_cons (by decide) (by decide) _

theorem isContent (h : Spells text written u) : IsContent var? text u := by
  cases h with
  | infinity =>
    have hword : ∀ c ∈ ['i', 'n', 'f'], isWordChar c = true := List.all_eq_true.1 rfl
    exact (isItem_word (m := .infinity) (List.cons_ne_nil _ _) hword rfl).isContent
      (List.cons_ne_nil _ _) nofun
  | negInfinity =>
    have hatom : IsAtom var? ['-', 'i', 'n', 'f'] (.const (-Scalar.infinity)) := fun _ _ _ _ => rfl
    have hfront := Spells.negInfinity.front
    exact (hatom.isItem hfront.ne_nil).isContent hfront.ne_nil hfront.signless
  | unsigned hne hletter hword hm =>
    exact (isItem_word hne hword hm).isContent hne (front_word hne hletter hword).signless
  | negative hne hletter hword hm =>
    exact isContent_neg (front_word hne hletter hword) (isItem_word hne hword hm)

theorem isAtom (h : Spells text written u) : IsAtom var? written u := by
  cases h with
  | infinity => exact fun _ _ _ _ => rfl
  | negInfinity => exact fun _ _ _ _ => rfl
  | unsigned hne hletter hword hm => exact isAtom_number hne hword hm
  | negative hne hletter hword hm =>
    exact isAtom_group (Spells.negative hne hletter hword hm).isContent

end Spells

/-- The exponent of a square root has a text of its own. -/
theorem isContent_half : IsContent var? ['0', '.', '5'] (.const half) := by
  have hword : ∀ c ∈ ['0', '.', '5'], isWordChar c = true := List.all_eq_true.1 rfl
  exact (isItem_word (m := .decimal 5 (-1)) (List.cons_ne_nil _ _) hword rfl).isContent
    (List.cons_ne_nil _ _) nofun

/-! ## Terms -/

/-- A text is read as a term, as the base of a power if the term is not written as a power. -/
structure Reads (var? : String → Option VarId) (cs : List Char) (t : Term Binary64) : Prop where
  front : Front cs
  item : IsItem var? cs (reading t)
  atom : t.base? = none → IsAtom var? cs (reading t)

variable {t b : Term Binary64}

theorem reads_of_isAtom (hfront : Front cs) (h : IsAtom var? cs (reading t)) : Reads var? cs t :=
  ⟨hfront, h.isItem hfront.ne_nil, fun _ => h⟩

theorem reads_group (h : IsContent var? cs (reading t)) : Reads var? ('(' :: (cs ++ [')'])) t :=
  reads_of_isAtom (front_cons (by decide) (by decide) _) (isAtom_group h)

theorem front_name (f : Elementary) : Front f.name.toList := by
  refine front_word ?_ ?_ (isWordChar_name f)
  · cases f <;> decide
  · cases f <;> decide

theorem reads_call {f : Elementary} (h : IsContent var? cs u) (ht : reading t = .call f u) :
    Reads var? (f.name.toList ++ '(' :: (cs ++ [')'])) t := by
  refine reads_of_isAtom ((front_name f).append _) ?_
  rw [ht]
  exact isAtom_call f h

theorem reading_call {f : Elementary} (h : f ≠ .sqrt) :
    reading (.call f a) = .call f (reading a) := by
  cases f with
  | sqrt => exact absurd rfl h
  | exp | log | sin | cos | abs => rfl

theorem cases_of_operation? {c : Char} {op : TermOp} (h : operation? c = some op) :
    c = '-' ∧ op = .sub ∨ c = '*' ∧ op = .mul ∨ c = '/' ∧ op = .div := by
  unfold operation? at h
  split_ifs at h with hsub hmul hdiv
  · exact .inl ⟨hsub, (Option.some.inj h).symm⟩
  · exact .inr (.inl ⟨hmul, (Option.some.inj h).symm⟩)
  · exact .inr (.inr ⟨hdiv, (Option.some.inj h).symm⟩)

theorem reads_operation {c : Char} {op : TermOp} {ds : List Char} (hop : operation? c = some op)
    (ha : Reads var? cs a) (hb : Reads var? ds b) :
    Reads var? ('(' :: ((cs ++ ' ' :: c :: ' ' :: ds) ++ [')'])) (.binary op a b) := by
  have hreading : reading (.binary op a b) = .binary op (reading a) (reading b) := by
    rcases cases_of_operation? hop with ⟨-, rfl⟩ | ⟨-, rfl⟩ | ⟨-, rfl⟩ <;> rfl
  refine reads_group ?_
  rw [hreading]
  exact isContent_binary hop ha.front ha.item hb.item

theorem reads_power {ds : List Char} (ha : Reads var? cs a) (hbase : a.base? = none)
    (hexponent : IsContent var? ds u) (ht : reading t = .binary .pow (reading a) u)
    (hpower : t.base? = some a) : Reads var? (cs ++ '^' :: '(' :: (ds ++ [')'])) t where
  front := ha.front.append _
  item := by
    rw [ht]
    exact isItem_power (ha.atom hbase) hexponent
  atom hnone := by
    rw [hpower] at hnone
    contradiction

theorem reading_exponential (h : ∀ e, b ≠ .const e) :
    reading (.binary .pow a b) =
      .call .exp (.binary .mul (reading b) (.call .log (reading a))) := by
  cases b with
  | const e => exact absurd rfl (h e)
  | var | neg | sum | binary | call => rfl

/-- A power with a variable exponent is read as the exponential of a product. -/
theorem reads_exponential {ds : List Char} (ha : Reads var? cs a) (hb : Reads var? ds b)
    (hexponent : ∀ e, b ≠ .const e) :
    Reads var? (Elementary.exp.name.toList ++
      '(' :: ((ds ++ ' ' :: '*' :: ' ' :: (Elementary.log.name.toList ++ '(' :: (cs ++ [')']))) ++
        [')'])) (.binary .pow a b) := by
  have hlog : IsAtom var? (Elementary.log.name.toList ++ '(' :: (cs ++ [')']))
      (.call .log (reading a)) :=
    isAtom_call .log (ha.item.isContent ha.front.ne_nil ha.front.signless)
  exact reads_call (isContent_binary rfl hb.front hb.item
    (hlog.isItem ((front_name .log).append _).ne_nil)) (reading_exponential hexponent)

section

variable (name : VarId → String)

theorem toList_var (v : VarId) :
    (term name (.var v : Term Binary64)).toList = '<' :: ((name v).toList ++ ['>']) := by
  change ("<" ++ name v ++ ">").toList = _
  simp

theorem toList_neg :
    (term name (.neg a)).toList = '(' :: ('-' :: (term name a).toList ++ [')']) := by
  change ("(-" ++ term name a ++ ")").toList = _
  simp

theorem toList_sum (items : List (Term Binary64)) :
    (term name (.sum items)).toList =
      '(' :: ([' ', '+', ' '].intercalate ((terms name items).map String.toList) ++ [')']) := by
  change ("(" ++ String.intercalate " + " (terms name items) ++ ")").toList = _
  simp [String.toList_intercalate]

theorem toList_power (e : Binary64) :
    (term name (.binary .pow a (.const e))).toList =
      (term name a).toList ++ '^' :: '(' :: ((Scalar.text e).toList ++ [')']) := by
  change (term name a ++ "^(" ++ Scalar.text e ++ ")").toList = _
  simp

theorem toList_exponential (h : ∀ e, b ≠ .const e) :
    (term name (.binary .pow a b)).toList = Elementary.exp.name.toList ++
      '(' :: (((term name b).toList ++ ' ' :: '*' :: ' ' :: (Elementary.log.name.toList ++
        '(' :: ((term name a).toList ++ [')']))) ++ [')']) := by
  have htext : term name (.binary .pow a b) =
      "exp(" ++ term name b ++ " * log(" ++ term name a ++ "))" := by
    cases b with
    | const e => exact absurd rfl (h e)
    | var | neg | sum | binary | call => rfl
  simp [htext, Elementary.name]

theorem toList_call {f : Elementary} (h : f ≠ .sqrt) :
    (term name (.call f a)).toList = f.name.toList ++ '(' :: ((term name a).toList ++ [')']) := by
  have htext : term name (.call f a) = f.name ++ "(" ++ term name a ++ ")" := by
    cases f with
    | sqrt => exact absurd rfl h
    | exp | log | sin | cos | abs => rfl
  simp [htext]

theorem toList_sqrt :
    (term name (.call .sqrt a)).toList =
      (term name a).toList ++ '^' :: '(' :: (['0', '.', '5'] ++ [')']) := by
  change (term name a ++ "^(0.5)").toList = _
  simp

theorem toList_operation {c : Char} {op : TermOp} (hop : operation? c = some op) :
    (term name (.binary op a b)).toList =
      '(' :: (((term name a).toList ++ ' ' :: c :: ' ' :: (term name b).toList) ++ [')']) := by
  have htext : term name (.binary op a b) =
      "(" ++ term name a ++ " " ++ op.symbol ++ " " ++ term name b ++ ")" := by
    rcases cases_of_operation? hop with ⟨-, rfl⟩ | ⟨-, rfl⟩ | ⟨-, rfl⟩ <;> rfl
  have hsymbol : op.symbol.toList = [c] := by
    rcases cases_of_operation? hop with ⟨rfl, rfl⟩ | ⟨rfl, rfl⟩ | ⟨rfl, rfl⟩ <;> rfl
  simp [htext, hsymbol]

end

theorem terms_eq (name : VarId → String) (items : List (Term Binary64)) :
    terms name items = items.map (term name) := by
  induction items with
  | nil => rfl
  | cons t items ih => exact congrArg (term name t :: ·) ih

theorem readings_eq (items : List (Term Binary64)) : readings items = items.map reading := by
  induction items with
  | nil => rfl
  | cons t items ih => exact congrArg (reading t :: ·) ih

/-- The items of a sum are read, and so is the sum. -/
theorem reads_sum {name : VarId → String} {items : List (Term Binary64)}
    (hitems : 2 ≤ items.length) (h : ∀ t ∈ items, Reads var? (term name t).toList t) :
    Reads var? (term name (.sum items)).toList (.sum items) := by
  rw [toList_sum, terms_eq, List.map_map]
  refine reads_group ?_
  change IsContent var? _ (.sum (readings items))
  rw [readings_eq]
  refine isContent_sum ?_ ?_ ?_
  · rw [List.forall₂_map_left_iff, List.forall₂_map_right_iff, List.forall₂_same]
    exact fun t ht => (h t ht).item
  · rwa [List.length_map]
  · rw [List.forall_mem_map]
    exact fun t ht => (h t ht).front

end Cip

theorem Term.Unchained.of_part {α : Type} {t a : Term α} (h : t.Unchained)
    (ha : ∀ s : Term α, s.Part a → s.Part t) : a.Unchained :=
  fun s base hs => h s base (ha s hs)

namespace Cip

variable {var? : String → Option VarId} {name : VarId → String} {t : Term Binary64} {n : Nat}

/-- The text of a term is read unless a power is written as the base of a power. -/
theorem reads_term (hnames : ∀ v < n, isIdentifier (name v).toList ∧ var? (name v) = some v)
    (ht : t.Proper n) (hunchained : t.Unchained) : Reads var? (term name t).toList t := by
  induction ht with
  | const hc =>
    have hspells := spells_constant hc
    exact reads_of_isAtom hspells.front hspells.isAtom
  | @var v hv =>
    obtain ⟨hname, hvar⟩ := hnames v hv
    rw [toList_var]
    exact reads_of_isAtom (front_cons (by decide) (by decide) _) (isAtom_var hname hvar)
  | neg _ ih =>
    have ha := ih (hunchained.of_part fun _ => .neg)
    rw [toList_neg]
    exact reads_group (isContent_neg ha.front ha.item)
  | sum hitems _ ih =>
    exact reads_sum hitems fun a ha => ih a ha (hunchained.of_part fun _ => .item ha)
  | @binary op a b _ hproper iha ihb =>
    have ha := iha (hunchained.of_part fun _ => .left)
    have hb := ihb (hunchained.of_part fun _ => .right)
    cases op with
    | sub =>
      rw [toList_operation (c := '-') name rfl]
      exact reads_operation rfl ha hb
    | mul =>
      rw [toList_operation (c := '*') name rfl]
      exact reads_operation rfl ha hb
    | div =>
      rw [toList_operation (c := '/') name rfl]
      exact reads_operation rfl ha hb
    | pow =>
      by_cases hconst : ∃ e, b = .const e
      · obtain ⟨e, rfl⟩ := hconst
        have hspells : Spells (Scalar.text e).toList (number e).toList (constant e) := by
          cases hproper with
          | const he => exact spells_constant he
        rw [toList_power]
        exact reads_power ha (hunchained _ a .self rfl) hspells.isContent rfl rfl
      · have hexponent : ∀ e, b ≠ .const e := fun e he => hconst ⟨e, he⟩
        rw [toList_exponential name hexponent]
        exact reads_exponential ha hb hexponent
  | @call f a _ ih =>
    have ha := ih (hunchained.of_part fun _ => .argument)
    by_cases hsqrt : f = .sqrt
    · subst hsqrt
      rw [toList_sqrt]
      exact reads_power ha (hunchained _ a .self rfl) isContent_half rfl rfl
    · rw [toList_call name hsqrt]
      exact reads_call (ha.item.isContent ha.front.ne_nil ha.front.signless) (reading_call hsqrt)

/-- The text as a whole is read. -/
theorem Reads.read? {s : String} (h : Reads var? s.toList t) : read? var? s = some (reading t) := by
  have hitem := h.item (n := s.toList.length) (r := []) Nat.le.refl nofun
  rw [List.append_nil] at hitem
  rw [Cip.read?, hitem]

end Cip

end HybridPlan
