import HybridPlan.Proofs.Encoding.Growth
import Mathlib

set_option autoImplicit false

/-! # Names of a program

The names of variables and rows are put together from words and numbers, with underscores between
them. So a name is taken apart at its underscores: a row begins with the tokens of its label, a
switch with `Aux` before these. The parts of an encoding have different labels, none of which goes on
with the tokens of another. So no two parts have a name in common, however many there are. -/

namespace HybridPlan.Encoding

/-! ## Tokens -/

/-- What stands between the underscores of a name. -/
def tokens (name : String) : List (List Char) := name.toList.splitOn '_'

/-- The decimal digits of a number. -/
def digits (n : ℕ) : List Char := Nat.toDigits 10 n

theorem tokens_injective {x y : String} (h : tokens x = tokens y) : x = y := by
  have hjoin := congrArg (List.intercalate ['_']) h
  simp only [tokens, List.intercalate_splitOn] at hjoin
  exact String.toList_inj.mp hjoin

theorem tokens_join (x y : String) : tokens (x ++ "_" ++ y) = tokens x ++ tokens y := by
  have hlist : (x ++ "_" ++ y).toList = x.toList ++ '_' :: y.toList := by
    simp [String.toList_append]
  rw [tokens, hlist, List.splitOn_append_cons_self]
  rfl

theorem digits_inj {i j : ℕ} : digits i = digits j ↔ i = j := by
  refine ⟨fun h => ?_, fun h => h ▸ rfl⟩
  rw [← Nat.ofDigitChars_ten_toDigits (n := i), ← Nat.ofDigitChars_ten_toDigits (n := j)]
  exact congrArg (Nat.ofDigitChars 10 · 0) h

theorem tokens_toString (n : ℕ) : tokens (toString n) = [digits n] := by
  rw [tokens, Nat.toString_eq_repr, Nat.toList_repr]
  exact List.splitOn_eq_singleton Nat.underscore_not_in_toDigits

theorem tokens_numbered (label : String) (i : ℕ) :
    tokens s!"{label}_{i}" = tokens label ++ [digits i] := by
  rw [← tokens_toString, ← tokens_join]
  rfl

theorem tokens_numbered_staged (label : String) (i t : ℕ) :
    tokens (s!"{label}_{i}" ++ s!"_{t}") = tokens label ++ [digits i, digits t] := by
  have hname : s!"{label}_{i}" ++ s!"_{t}" = s!"{label}_{i}" ++ "_" ++ toString t :=
    (String.append_assoc).symm
  rw [hname, tokens_join, tokens_toString, tokens_numbered, List.append_assoc]
  rfl

theorem tokens_switchName (label : String) (i : ℕ) :
    tokens (switchName label i) = "Aux".toList :: (tokens label ++ [digits i]) := by
  have hname : switchName label i = "Aux" ++ "_" ++ label ++ "_" ++ toString i := rfl
  rw [hname, tokens_join, tokens_join, tokens_toString]
  rfl

theorem tokens_or (label : String) : tokens s!"{label}_or" = tokens label ++ ["or".toList] := by
  have hname : s!"{label}_or" = label ++ "_" ++ "or" := by
    rw [String.append_assoc]
    rfl
  rw [hname, tokens_join]
  rfl

theorem tokens_or_numbered (label : String) (i : ℕ) :
    tokens s!"{label}_or_{i}" = tokens label ++ ["or".toList, digits i] := by
  have hlabel : label ++ "_or_" = s!"{label}_or" ++ "_" := by
    change _ = label ++ "_or" ++ "_"
    rw [String.append_assoc]
    rfl
  have hname : s!"{label}_or_{i}" = label ++ "_or_" ++ toString i := rfl
  rw [hname, hlabel, tokens_join, tokens_toString, tokens_or, List.append_assoc]
  rfl

/-- The name of a variable at a time determines the variable and the time. -/
theorem stageVar_injective {x y : String} {t u : ℕ} (h : stageVar x t = stageVar y u) :
    x = y ∧ t = u := by
  have htokens := congrArg tokens h
  rw [stageVar, stageVar, tokens_numbered, tokens_numbered] at htokens
  obtain ⟨hname, htime⟩ := List.append_inj' htokens rfl
  exact ⟨tokens_injective hname, digits_inj.1 (List.singleton_inj.1 htime)⟩

/-! ## Names of variables and rows -/

/-- What a name is given to. -/
inductive NameKind where
  | var
  | row
  deriving DecidableEq

namespace NameKind

/-- What stands before a label. -/
def head : NameKind → List (List Char)
  | var => ["Aux".toList]
  | row => []

/-- The names that begin with the tokens of a label. -/
def names (K : NameKind) (label : List (List Char)) : Set String :=
  {x | K.head ++ label <+: tokens x}

variable {K : NameKind} {l l' : List (List Char)} {x : String}

theorem names_subset (h : l <+: l') : K.names l' ⊆ K.names l :=
  fun _ hx => ((List.prefix_append_right_inj _).2 h).trans hx

/-- A name begins with one label of a length. -/
theorem eq_of_mem_names (hlength : l.length = l'.length) (hx : x ∈ K.names l)
    (hx' : x ∈ K.names l') : l = l' := by
  have hprefix : K.head ++ l <+: K.head ++ l' :=
    List.prefix_of_prefix_length_le hx hx' (by simp [hlength])
  exact ((List.prefix_append_right_inj _).1 hprefix).eq_of_length hlength

/-- What stands between a label and the position of a disjunct. -/
def ending : NameKind → List (List Char)
  | var => []
  | row => ["or".toList]

/-- The name that is given to the switch, or to the row, of a disjunct. -/
def disjunct (K : NameKind) (label : List (List Char)) (i : ℕ) : Set String :=
  {x | tokens x = K.head ++ label ++ K.ending ++ [digits i]}

theorem disjunct_subset (i : ℕ) : K.disjunct l i ⊆ K.names l := by
  intro x hx
  change K.head ++ l <+: tokens x
  rw [hx, List.append_assoc]
  exact List.prefix_append _ _

theorem disjoint_disjunct {i j : ℕ} (h : i ≠ j) : Disjoint (K.disjunct l i) (K.disjunct l j) := by
  refine Set.disjoint_left.2 fun x hx hx' => h ?_
  exact digits_inj.1 (List.singleton_inj.1 (List.append_cancel_left (hx.symm.trans hx')))

theorem disjoint_numbered {i j : ℕ} (h : i ≠ j) :
    Disjoint (K.names (l ++ [digits i])) (K.names (l ++ [digits j])) := by
  refine Set.disjoint_left.2 fun x hx hx' => h ?_
  have hlabel := eq_of_mem_names (by simp) hx hx'
  exact digits_inj.1 (List.singleton_inj.1 (List.append_cancel_left hlabel))

end NameKind

/-! ## Parts of an encoding -/

/-- The parts of an encoding that have a label of their own. -/
inductive Part where
  | initial (i : ℕ)
  | instantaneous (i t : ℕ)
  | temporal (i t : ℕ)
  | transition (state : String) (t : ℕ)
  | reward (t : ℕ)
  | goal (i : ℕ)
  | cut (k t : ℕ)

namespace Part

/-- The word that the label begins with. -/
def word : Part → String
  | initial _ => "initial"
  | instantaneous _ _ => "instantaneous"
  | temporal _ _ => "temporal"
  | transition _ _ => "transition"
  | reward _ => "reward"
  | goal _ => "goal"
  | cut _ _ => "generated"

/-- The tokens of the label behind its word. -/
def address : Part → List (List Char)
  | initial i | goal i => [digits i]
  | instantaneous i t | temporal i t | cut i t => [digits i, digits t]
  | transition state t => tokens state ++ [digits t]
  | reward t => [digits t]

def label (q : Part) : List (List Char) := q.word.toList :: q.address

theorem tokens_word (q : Part) : tokens q.word ++ q.address = q.label := by
  have hword : '_' ∉ q.word.toList := by
    cases q <;> simp only [word] <;> decide
  rw [tokens, List.splitOn_eq_singleton hword]
  rfl

/-- The names that are given in a part. What is not a constraint has one row, which is named by the
label alone, and no switches. -/
def names (K : NameKind) : Part → Set String
  | q@(transition _ _) | q@(reward _) => {x | K = .row ∧ tokens x = q.label}
  | q => K.names q.label

/-- The stage that a part belongs to. -/
def stage? : Part → Option ℕ
  | instantaneous _ t | temporal _ t | transition _ t | reward t => some t
  | initial _ | goal _ | cut _ _ => none

variable {K : NameKind} {q q' : Part} {x : String}

theorem mem_names (h : x ∈ q.names K) : x ∈ K.names q.label := by
  cases q with
  | transition state t | reward t =>
    obtain ⟨rfl, hx⟩ := h
    exact ⟨[], by rw [List.append_nil, hx]; rfl⟩
  | initial | instantaneous | temporal | goal | cut => exact h

/-- The name of a switch has two tokens of a label after the first one. -/
theorem exists_tokens (h : x ∈ q.names .var) :
    ∃ l l' ls, tokens x = "Aux".toList :: l :: l' :: ls := by
  cases q with
  | transition | reward => cases h.1
  | initial | instantaneous | temporal | goal | cut =>
    obtain ⟨ls, hls⟩ := mem_names h
    exact ⟨_, _, _, hls.symm⟩

/-- No name is given in two parts. -/
theorem eq_of_mem_names (h : x ∈ q.names K) (h' : x ∈ q'.names K) : q = q' := by
  -- the first word tells the kind of the part
  have hword : q.word = q'.word := by
    have hx : x ∈ K.names [q.word.toList] := NameKind.names_subset (by simp [label]) (mem_names h)
    have hx' : x ∈ K.names [q'.word.toList] := NameKind.names_subset (by simp [label]) (mem_names h')
    exact String.toList_inj.1 (List.singleton_inj.1 (NameKind.eq_of_mem_names rfl hx hx'))
  have haddress (hlength : q.address.length = q'.address.length) : q.address = q'.address := by
    have hlabel : q.label = q'.label :=
      NameKind.eq_of_mem_names (by simp [label, hlength]) (mem_names h) (mem_names h')
    exact (List.cons.inj hlabel).2
  cases q <;> cases q' <;> simp only [word, String.reduceEq] at hword
  case initial.initial | goal.goal | reward.reward => simpa [address, digits_inj] using haddress rfl
  case instantaneous.instantaneous | temporal.temporal | cut.cut =>
    simpa [address, digits_inj] using haddress rfl
  case transition.transition y t z u =>
    -- names of states can have underscores, but these rows are named by nothing more than the label
    have hlabel := (List.cons.inj (h.2.symm.trans h'.2)).2
    obtain ⟨hstate, htime⟩ := List.append_inj' hlabel rfl
    rw [tokens_injective hstate, digits_inj.1 (List.singleton_inj.1 htime)]

/-- The names that are given in parts. -/
def namesOf (K : NameKind) (Q : Set Part) : Set String := {x | ∃ q ∈ Q, x ∈ q.names K}

theorem disjoint_namesOf {Q Q' : Set Part} (h : Disjoint Q Q') :
    Disjoint (namesOf K Q) (namesOf K Q') := by
  refine Set.disjoint_left.2 ?_
  rintro x ⟨q, hq, hx⟩ ⟨q', hq', hx'⟩
  exact Set.disjoint_left.1 h hq (eq_of_mem_names hx hx' ▸ hq')

theorem namesOf_mono {Q Q' : Set Part} (h : Q ⊆ Q') : namesOf K Q ⊆ namesOf K Q' :=
  fun _ ⟨q, hq, hx⟩ => ⟨q, h hq, hx⟩

end Part

end HybridPlan.Encoding
