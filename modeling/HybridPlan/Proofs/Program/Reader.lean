import HybridPlan.Program.Cip
import HybridPlan.Proofs.Domain.Declaration
import HybridPlan.Scalar.Binary64

set_option autoImplicit false

/-! # A reader of terms

The reader knows no rules of precedence or associativity: a pair of brackets holds one operation, of
any number of items if it is a sum, and what a power is taken of is a number, a variable, a call or
something in brackets, so that a power of a power is refused. Numbers are read in double
precision. -/

namespace HybridPlan

namespace Cip

/-! ## The reader -/

/-- A reader takes a term off the front of a text. -/
abbrev Reader := List Char → Option (Term Binary64 × List Char)

/-- The characters of numbers and of names of functions. -/
def isWordChar (c : Char) : Bool := c.isAlphanum || c = '.'

/-- The operation that a character writes between two operands, sums apart. -/
def operation? (c : Char) : Option TermOp :=
  if c = '-' then some .sub else if c = '*' then some .mul else if c = '/' then some .div else none

section

variable (item : Reader)

/-- Items with plus signs between them, no more than the given number. -/
def readItems : Nat → List Char → Option (List (Term Binary64) × List Char)
  | 0, _ => none
  | n + 1, cs =>
    match item cs with
    | some (a, ' ' :: '+' :: ' ' :: r) => (readItems n r).map fun (as, r) => (a :: as, r)
    | some (a, r) => some ([a], r)
    | none => none

/-- One item, a sum, or another operation on two items. -/
def readOperation : Reader := fun cs =>
  match readItems item (cs.length + 1) cs with
  | some ([a], ' ' :: c :: ' ' :: r) => do
    let op ← operation? c
    let (b, r) ← item r
    return (.binary op a b, r)
  | some ([a], r) => some (a, r)
  | some (as, r) => some (.sum as, r)
  | none => none

/-- What stands in brackets. A minus sign in front makes the opposite, unless it belongs to an
infinity. -/
def readContent : Reader
  | '-' :: 'i' :: r => readOperation item ('-' :: 'i' :: r)
  | '-' :: r => (item r).map fun (a, r) => (.neg a, r)
  | cs => readOperation item cs

def readGroup : Reader
  | '(' :: r =>
    match readContent item r with
    | some (a, ')' :: r) => some (a, r)
    | _ => none
  | _ => none

/-- A number by its digits or its name, or a call of a function. -/
def readWord : Reader := fun cs =>
  let word := cs.takeWhile isWordChar
  let rest := cs.dropWhile isWordChar
  if rest.head? = some '(' then do
    let f ← Elementary.ofName? (String.ofList word)
    let (a, r) ← readGroup item rest
    return (.call f a, r)
  else (Decimal.Magnitude.read? word).map fun m => (.const (Scalar.ofNumeral ⟨false, m⟩), rest)

/-- A variable, the name of which ends before the first closing bracket of its kind. -/
def readName (var? : String → Option VarId) : Reader := fun cs =>
  match cs.dropWhile (· ≠ '>') with
  | _ :: r => (var? (String.ofList (cs.takeWhile (· ≠ '>')))).map fun v => (.var v, r)
  | [] => none

/-- What a power can be taken of. -/
def readAtom (var? : String → Option VarId) : Reader
  | '(' :: r => readGroup item ('(' :: r)
  | '<' :: r => readName var? r
  | '+' :: 'i' :: 'n' :: 'f' :: r => some (.const Scalar.infinity, r)
  | '-' :: 'i' :: 'n' :: 'f' :: r => some (.const (-Scalar.infinity), r)
  | cs => readWord item cs

/-- A power, the exponent of which stands in brackets, or what a power can be taken of. -/
def readPower (var? : String → Option VarId) : Reader := fun cs =>
  match readAtom item var? cs with
  | some (a, '^' :: r) =>
    match readGroup item r with
    | some (_, '^' :: _) | none => none
    | some (b, r) => some (.binary .pow a b, r)
  | r => r

end

variable (var? : String → Option VarId)

/-- A term with less than the given number of brackets around its parts. -/
def readItem : Nat → Reader
  | 0 => fun _ => none
  | n + 1 => readPower (readItem n) var?

/-- The term that a text writes. -/
def read? (text : String) : Option (Term Binary64) :=
  match readItem var? text.toList.length text.toList with
  | some (a, []) => some a
  | _ => none

/-! ## Readers -/

variable {var? : String → Option VarId}

section

variable {item : Reader} {cs r r' : List Char} {a b : Term Binary64} {as : List (Term Binary64)}
  {n : Nat}

theorem readItems_one (h : item cs = some (a, r)) (hr : ∀ r', r ≠ ' ' :: '+' :: ' ' :: r') :
    readItems item (n + 1) cs = some ([a], r) := by
  rw [readItems, h]
  split
  · next heq =>
    cases heq
    exact absurd rfl (hr _)
  · next heq =>
    cases heq
    rfl
  · next heq => cases heq

theorem readItems_cons (h : item cs = some (a, ' ' :: '+' :: ' ' :: r))
    (hrest : readItems item n r = some (as, r')) :
    readItems item (n + 1) cs = some (a :: as, r') := by
  rw [readItems, h]
  change (readItems item n r).map (fun x => (a :: x.1, x.2)) = _
  rw [hrest]
  rfl

theorem readOperation_one (h : item cs = some (a, ')' :: r)) :
    readOperation item cs = some (a, ')' :: r) := by
  rw [readOperation, readItems_one h (by simp)]
  rfl

theorem readOperation_sum (h : readItems item (cs.length + 1) cs = some (as, r))
    (has : 2 ≤ as.length) : readOperation item cs = some (.sum as, r) := by
  rw [readOperation, h]
  split
  · next heq =>
    cases heq
    contradiction
  · next heq =>
    cases heq
    contradiction
  · next heq =>
    cases heq
    rfl
  · next heq => cases heq

theorem readOperation_binary {c : Char} {op : TermOp} (hc : operation? c = some op)
    (h : item cs = some (a, ' ' :: c :: ' ' :: r)) (hb : item r = some (b, r')) :
    readOperation item cs = some (.binary op a b, r') := by
  have hplus : c ≠ '+' := by
    rintro rfl
    cases hc
  rw [readOperation, readItems_one h (by simp [hplus])]
  simp only [hc, hb]
  rfl

/-- A minus sign in front belongs to an infinity. -/
def Signless (cs : List Char) : Prop := ∀ r, cs = '-' :: r → r.head? = some 'i'

theorem Signless.append (h : Signless cs) (hne : cs ≠ []) (r : List Char) : Signless (cs ++ r) := by
  obtain ⟨c, cs, rfl⟩ := List.exists_cons_of_ne_nil hne
  rintro r' heq
  cases heq
  have hhead := h cs rfl
  cases cs with
  | nil => cases hhead
  | cons d cs => exact hhead

/-- The text is not taken for an opposite, nor for an infinity if a minus sign stands before it. -/
structure Front (cs : List Char) : Prop where
  ne_nil : cs ≠ []
  letter : cs.head? ≠ some 'i'
  signless : Signless cs

theorem front_cons {c : Char} (hletter : c ≠ 'i') (hminus : c ≠ '-') (r : List Char) :
    Front (c :: r) where
  ne_nil := List.cons_ne_nil _ _
  letter h := hletter (Option.some.inj h)
  signless _ h := absurd (List.cons.inj h).1 hminus

theorem Front.append (h : Front cs) (r : List Char) : Front (cs ++ r) where
  ne_nil := List.append_ne_nil_of_left_ne_nil h.ne_nil r
  letter := by
    rw [List.head?_append_of_ne_nil _ h.ne_nil]
    exact h.letter
  signless := h.signless.append h.ne_nil r

theorem front_intercalate {separator : List Char} {css : List (List Char)} (hne : css ≠ [])
    (h : ∀ cs ∈ css, Front cs) : Front (separator.intercalate css) := by
  obtain ⟨cs, css, rfl⟩ := List.exists_cons_of_ne_nil hne
  have hfirst := h cs List.mem_cons_self
  cases css with
  | nil => rwa [List.intercalate_singleton]
  | cons ds css =>
    rw [List.intercalate_cons_cons, List.append_assoc]
    exact hfirst.append _

theorem readContent_of_signless (h : Signless cs) :
    readContent item cs = readOperation item cs := by
  unfold readContent
  split
  · rfl
  · next r hi =>
    have hhead := h r rfl
    cases r with
    | nil => cases hhead
    | cons c r =>
      cases hhead
      exact absurd rfl (hi r)
  · rfl

theorem readContent_neg (hi : cs.head? ≠ some 'i') (h : item cs = some (a, r)) :
    readContent item ('-' :: cs) = some (.neg a, r) := by
  cases cs with
  | nil =>
    change (item []).map (fun x => (Term.neg x.1, x.2)) = _
    rw [h]
    rfl
  | cons c cs =>
    have hc : c ≠ 'i' := fun hc => hi (congrArg some hc)
    unfold readContent
    split
    · next heq =>
      cases heq
      exact absurd rfl hc
    · next heq =>
      cases heq
      rw [h]
      rfl
    · next hminus =>
      exact absurd rfl (hminus _)

theorem readGroup_content (h : readContent item (cs ++ ')' :: r) = some (a, ')' :: r)) :
    readGroup item ('(' :: (cs ++ ')' :: r)) = some (a, r) := by
  rw [readGroup, h]
  rfl

theorem readPower_atom (h : readAtom item var? cs = some (a, r)) (hr : r.head? ≠ some '^') :
    readPower item var? cs = some (a, r) := by
  rw [readPower, h]
  split
  · next heq =>
    cases heq
    exact absurd rfl hr
  · rfl

theorem readPower_power (ha : readAtom item var? cs = some (a, '^' :: r))
    (hb : readGroup item r = some (b, r')) (hr : r'.head? ≠ some '^') :
    readPower item var? cs = some (.binary .pow a b, r') := by
  rw [readPower, ha]
  change (match readGroup item r with
    | some (_, '^' :: _) | none => none
    | some (b, r) => some (Term.binary .pow a b, r)) = _
  rw [hb]
  split
  · next heq =>
    cases heq
    exact absurd rfl hr
  · next heq => cases heq
  · next heq =>
    cases heq
    rfl

/-- A power is not the base of a power. -/
theorem readPower_chain (ha : readAtom item var? cs = some (a, '^' :: r))
    (hb : readGroup item r = some (b, '^' :: r')) : readPower item var? cs = none := by
  rw [readPower, ha]
  change (match readGroup item r with
    | some (_, '^' :: _) | none => none
    | some (b, r) => some (Term.binary .pow a b, r)) = _
  rw [hb]
  rfl

/-! ## Words and names -/

/-- What follows begins with one of the characters, if anything follows. -/
def StopsAt (stops r : List Char) : Prop := ∀ c, r.head? = some c → c ∈ stops

theorem span_append {p : Char → Bool} (hcs : ∀ c ∈ cs, p c = true)
    (hr : ∀ c, r.head? = some c → p c = false) :
    (cs ++ r).takeWhile p = cs ∧ (cs ++ r).dropWhile p = r := by
  have hspan : r.takeWhile p = [] ∧ r.dropWhile p = r := by
    cases r with
    | nil => exact ⟨rfl, rfl⟩
    | cons c r =>
      have hc : p c = false := hr c rfl
      simp [hc]
  rw [List.takeWhile_append_of_pos hcs, List.dropWhile_append_of_pos hcs, hspan.1, hspan.2]
  simp

theorem readWord_number {m : Decimal.Magnitude} (hword : ∀ c ∈ cs, isWordChar c = true)
    (hm : Decimal.Magnitude.read? cs = some m) (hr : StopsAt [')', ' ', '^'] r) :
    readWord item (cs ++ r) = some (.const (Scalar.ofNumeral ⟨false, m⟩), r) := by
  have hstop : ∀ c, r.head? = some c → isWordChar c = false := by
    intro c hc
    have hc := hr c hc
    simp only [List.mem_cons, List.not_mem_nil, or_false] at hc
    rcases hc with rfl | rfl | rfl <;> decide
  have hbracket : r.head? ≠ some '(' := by
    intro hc
    have hc := hr _ hc
    revert hc
    decide
  obtain ⟨htake, hdrop⟩ := span_append hword hstop
  unfold readWord
  simp only [htake, hdrop]
  rw [if_neg hbracket, hm]
  rfl

theorem isWordChar_name (f : Elementary) : ∀ c ∈ f.name.toList, isWordChar c = true := by
  cases f <;> exact List.all_eq_true.1 rfl

theorem readWord_call (f : Elementary) (h : readGroup item ('(' :: cs) = some (a, r)) :
    readWord item (f.name.toList ++ '(' :: cs) = some (.call f a, r) := by
  obtain ⟨htake, hdrop⟩ := span_append (r := '(' :: cs) (isWordChar_name f) fun c hc => by
    obtain rfl := Option.some.inj hc
    decide
  unfold readWord
  simp only [htake, hdrop]
  rw [if_pos (show ('(' :: cs).head? = some '(' from rfl), String.ofList_toList,
    Elementary.ofName?_name]
  simp only [Option.bind_eq_bind, Option.bind_some, h]
  rfl

theorem readName_eq {name : String} {v : VarId} (hname : isIdentifier name.toList)
    (hv : var? name = some v) : readName var? (name.toList ++ '>' :: r) = some (.var v, r) := by
  have hword : ∀ c ∈ name.toList, decide (c ≠ '>') = true := by
    rintro c hc
    refine decide_eq_true ?_
    rintro rfl
    exact not_mem_of_isIdentifier hname (by decide) hc
  obtain ⟨htake, hdrop⟩ := span_append (p := fun c => decide (c ≠ '>')) (r := '>' :: r) hword
    fun c hc => by
      obtain rfl := Option.some.inj hc
      decide
  unfold readName
  rw [htake, hdrop]
  dsimp only
  rw [String.ofList_toList, hv]
  rfl

end

/-! ## Texts that are read -/

section

variable {cs ds : List Char} {a b : Term Binary64}

/-- As an operand, the text is read as the term. -/
def IsItem (var? : String → Option VarId) (cs : List Char) (a : Term Binary64) : Prop :=
  ∀ ⦃n : Nat⦄ ⦃r : List Char⦄, cs.length ≤ n → StopsAt [')', ' '] r →
    readItem var? n (cs ++ r) = some (a, r)

/-- As the base of a power, the text is read as the term. -/
def IsAtom (var? : String → Option VarId) (cs : List Char) (a : Term Binary64) : Prop :=
  ∀ ⦃n : Nat⦄ ⦃r : List Char⦄, cs.length ≤ n + 1 → StopsAt [')', ' ', '^'] r →
    readAtom (readItem var? n) var? (cs ++ r) = some (a, r)

/-- In brackets, the text is read as the term. -/
def IsContent (var? : String → Option VarId) (cs : List Char) (a : Term Binary64) : Prop :=
  ∀ ⦃n : Nat⦄ ⦃r : List Char⦄, cs.length ≤ n →
    readContent (readItem var? n) (cs ++ ')' :: r) = some (a, ')' :: r)

theorem stopsAt_cons {stops : List Char} {c : Char} (h : c ∈ stops) (r : List Char) :
    StopsAt stops (c :: r) := by
  intro d hd
  obtain rfl := Option.some.inj hd
  exact h

theorem StopsAt.mono {stops stops' r : List Char} (h : StopsAt stops r) (hsub : stops ⊆ stops') :
    StopsAt stops' r :=
  fun c hc => hsub (h c hc)

theorem StopsAt.head?_ne {r : List Char} (h : StopsAt [')', ' '] r) : r.head? ≠ some '^' := by
  intro hpower
  have hstop := h '^' hpower
  contradiction

/-! ### Atoms -/

theorem isAtom_group (h : IsContent var? cs a) : IsAtom var? ('(' :: (cs ++ [')'])) a := by
  intro n r hn _
  simp only [List.length_cons, List.length_append, List.length_nil] at hn
  have hcontent := h (n := n) (r := r) (by omega)
  simp only [List.cons_append, List.append_assoc, List.nil_append]
  exact readGroup_content hcontent

/-- A word is read as such if it begins like one. -/
theorem readAtom_word {item : Reader} {c : Char} (hc : isWordChar c = true) :
    readAtom item var? (c :: cs) = readWord item (c :: cs) := by
  have hchar {d : Char} (hd : isWordChar d = false) : c ≠ d := by
    rintro rfl
    exact Bool.false_ne_true (hd.symm.trans hc)
  unfold readAtom
  split
  · next heq => exact absurd (List.cons.inj heq).1 (hchar rfl)
  · next heq => exact absurd (List.cons.inj heq).1 (hchar rfl)
  · next heq => exact absurd (List.cons.inj heq).1 (hchar rfl)
  · next heq => exact absurd (List.cons.inj heq).1 (hchar rfl)
  · rfl

theorem isAtom_number {m : Decimal.Magnitude} (hne : cs ≠ [])
    (hword : ∀ c ∈ cs, isWordChar c = true) (hm : Decimal.Magnitude.read? cs = some m) :
    IsAtom var? cs (.const (Scalar.ofNumeral ⟨false, m⟩)) := by
  intro n r _ hr
  obtain ⟨c, cs, rfl⟩ := List.exists_cons_of_ne_nil hne
  rw [List.cons_append, readAtom_word (hword c List.mem_cons_self)]
  exact readWord_number hword hm hr

theorem isAtom_call (f : Elementary) (h : IsContent var? cs a) :
    IsAtom var? (f.name.toList ++ '(' :: (cs ++ [')'])) (.call f a) := by
  intro n r hn _
  simp only [List.length_cons, List.length_append, List.length_nil] at hn
  have hcontent := h (n := n) (r := r) (by omega)
  obtain ⟨c, name, hname⟩ : ∃ c name, f.name.toList = c :: name := by
    cases f <;> exact ⟨_, _, rfl⟩
  have hc : isWordChar c = true := isWordChar_name f c (by rw [hname]; exact List.mem_cons_self)
  have hcall := readWord_call f (readGroup_content hcontent)
  simp only [List.append_assoc, List.cons_append, List.nil_append]
  rw [hname, List.cons_append] at hcall ⊢
  rw [readAtom_word hc, hcall]

theorem isAtom_var {name : String} {v : VarId} (hname : isIdentifier name.toList)
    (hv : var? name = some v) : IsAtom var? ('<' :: (name.toList ++ ['>'])) (.var v) := by
  intro n r _ _
  simp only [List.cons_append, List.append_assoc, List.nil_append]
  exact readName_eq hname hv

/-! ### Items -/

theorem IsAtom.isItem (hne : cs ≠ []) (h : IsAtom var? cs a) : IsItem var? cs a := by
  intro n r hn hr
  have hlength := List.length_pos_of_ne_nil hne
  obtain ⟨n, rfl⟩ := Nat.exists_eq_succ_of_ne_zero (show n ≠ 0 by omega)
  have hatom := h hn (hr.mono (by simp))
  exact readPower_atom hatom hr.head?_ne

/-- The exponent of a power stands in brackets. -/
theorem isItem_power (ha : IsAtom var? cs a) (hb : IsContent var? ds b) :
    IsItem var? (cs ++ '^' :: '(' :: (ds ++ [')'])) (.binary .pow a b) := by
  intro n r hn hr
  simp only [List.length_cons, List.length_append, List.length_nil] at hn
  obtain ⟨n, rfl⟩ := Nat.exists_eq_succ_of_ne_zero (show n ≠ 0 by omega)
  have hbase := ha (n := n) (r := '^' :: '(' :: (ds ++ ')' :: r)) (by omega)
    (stopsAt_cons (by simp) _)
  have hexponent := readGroup_content (hb (n := n) (r := r) (by omega))
  simp only [List.append_assoc, List.cons_append, List.nil_append]
  exact readPower_power hbase hexponent hr.head?_ne

/-- No operand is read where a power is the base of a power. -/
theorem readItem_chain (ha : IsAtom var? cs a) (hb : IsContent var? ds b) {n : Nat} {r : List Char}
    (hn : cs.length + ds.length < n) :
    readItem var? n (cs ++ '^' :: '(' :: (ds ++ ')' :: '^' :: r)) = none := by
  obtain ⟨n, rfl⟩ := Nat.exists_eq_succ_of_ne_zero (Nat.ne_zero_of_lt hn)
  have hbase := ha (n := n) (r := '^' :: '(' :: (ds ++ ')' :: '^' :: r)) (by omega)
    (stopsAt_cons (by simp) _)
  exact readPower_chain hbase (readGroup_content (hb (by omega)))

/-! ### Operations -/

theorem IsItem.isContent (hne : cs ≠ []) (hsign : Signless cs) (h : IsItem var? cs a) :
    IsContent var? cs a := by
  intro n r hn
  rw [readContent_of_signless (hsign.append hne _)]
  exact readOperation_one (h hn (stopsAt_cons (by simp) _))

theorem isContent_neg (hfront : Front cs) (h : IsItem var? cs a) :
    IsContent var? ('-' :: cs) (.neg a) := by
  intro n r hn
  rw [List.length_cons] at hn
  exact readContent_neg (hfront.append _).letter (h (by omega) (stopsAt_cons (by simp) _))

theorem isContent_binary {c : Char} {op : TermOp} (hop : operation? c = some op)
    (hfront : Front cs) (ha : IsItem var? cs a) (hb : IsItem var? ds b) :
    IsContent var? (cs ++ ' ' :: c :: ' ' :: ds) (.binary op a b) := by
  intro n r hn
  simp only [List.length_cons, List.length_append] at hn
  rw [List.append_assoc, readContent_of_signless (hfront.append _).signless]
  exact readOperation_binary hop (ha (by omega) (stopsAt_cons (by simp) _))
    (hb (by omega) (stopsAt_cons (by simp) _))

/-- The items of a sum are read one after another. -/
theorem readItems_intercalate {css : List (List Char)} {as : List (Term Binary64)}
    (h : List.Forall₂ (IsItem var?) css as) (hne : css ≠ []) {n m : Nat} {r : List Char}
    (hn : ([' ', '+', ' '].intercalate css).length ≤ n)
    (hm : ([' ', '+', ' '].intercalate css).length < m) :
    readItems (readItem var? n) m ([' ', '+', ' '].intercalate css ++ ')' :: r) =
      some (as, ')' :: r) := by
  induction h generalizing m with
  | nil => exact absurd rfl hne
  | @cons cs a css as hfirst hrest ih =>
    obtain ⟨m, rfl⟩ := Nat.exists_eq_succ_of_ne_zero (Nat.ne_zero_of_lt hm)
    cases hrest with
    | nil =>
      rw [List.intercalate_singleton] at hn ⊢
      exact readItems_one (hfirst hn (stopsAt_cons (by simp) _)) (by simp)
    | cons hsecond hrest =>
      rw [List.intercalate_cons_cons] at hn hm ⊢
      simp only [List.length_append, List.length_cons, List.length_nil] at hn hm
      rw [List.append_assoc, List.append_assoc]
      exact readItems_cons (hfirst (by omega) (stopsAt_cons (by simp) _))
        (ih (by simp) (by omega) (by omega))

theorem isContent_sum {css : List (List Char)} {as : List (Term Binary64)}
    (h : List.Forall₂ (IsItem var?) css as) (has : 2 ≤ as.length)
    (hfront : ∀ cs ∈ css, Front cs) :
    IsContent var? ([' ', '+', ' '].intercalate css) (.sum as) := by
  intro n r hn
  have hne : css ≠ [] := by
    rintro rfl
    rw [← h.length_eq] at has
    contradiction
  rw [readContent_of_signless ((front_intercalate hne hfront).append _).signless]
  refine readOperation_sum (readItems_intercalate h hne hn ?_) has
  rw [List.length_append]
  omega

end

end Cip

end HybridPlan
