import HybridPlan.Proofs.Text.Lines

set_option autoImplicit false

/-! # Words of a text

White space around a text changes neither its words nor what it begins with. A text that is put together
from words and white space falls into these words again. -/

namespace HybridPlan.Text

variable {cs ds part word between : List Char}

/-- The text is white space. -/
def Blank (cs : List Char) : Prop := ∀ c ∈ cs, isBlank c

/-- The text is not empty and holds no white space. -/
structure IsWord (cs : List Char) : Prop where
  ne_nil : cs ≠ []
  visible : ∀ c ∈ cs, isBlank c = false

/-! ## White space -/

theorem Blank.append (hcs : Blank cs) (hds : Blank ds) : Blank (cs ++ ds) :=
  List.forall_mem_append.2 ⟨hcs, hds⟩

theorem Blank.trim_append (h : Blank cs) (ds : List Char) : trim (cs ++ ds) = trim ds := by
  have hleft : trimLeft (cs ++ ds) = trimLeft ds := List.dropWhile_append_of_pos h
  rw [trim, hleft, trim]

theorem Blank.trimRight_eq_nil (h : Blank cs) : trimRight cs = [] :=
  List.rdropWhile_eq_nil_iff.2 h

theorem Blank.trim_eq_nil (h : Blank cs) : trim cs = [] := by
  have hnil := h.trim_append []
  rwa [List.append_nil] at hnil

theorem exists_trimRight (cs : List Char) : ∃ after, Blank after ∧ cs = trimRight cs ++ after := by
  refine ⟨(cs.reverse.takeWhile isBlank).reverse, fun c hc => ?_, ?_⟩
  · exact List.mem_takeWhile_imp (List.mem_reverse.1 hc)
  · rw [trimRight, dropEnd, ← List.reverse_append, List.takeWhile_append_dropWhile, List.reverse_reverse]

/-- The trimmed text stands between white space. -/
theorem exists_blank_trim (cs : List Char) :
    ∃ before after, Blank before ∧ Blank after ∧ cs = before ++ (trim cs ++ after) := by
  obtain ⟨after, hafter, hcs⟩ := exists_trimRight (trimLeft cs)
  refine ⟨cs.takeWhile isBlank, after, fun c hc => List.mem_takeWhile_imp hc, hafter, ?_⟩
  rw [trim, ← hcs]
  exact List.takeWhile_append_dropWhile.symm

theorem trimRight_append (h : ∀ c ∈ cs.getLast?, isBlank c = false) (ds : List Char) :
    trimRight (cs ++ ds) = cs ++ trimRight ds := by
  have hcs : cs.reverse.dropWhile isBlank = cs.reverse := by
    have hself := congrArg List.reverse (dropEnd_eq_self h)
    rwa [dropEnd, List.reverse_reverse] at hself
  rw [trimRight, trimRight, dropEnd, dropEnd, List.reverse_append, List.dropWhile_append, hcs]
  split
  · next hds => rw [List.isEmpty_iff.1 hds, List.reverse_reverse, List.reverse_nil, List.append_nil]
  · rw [List.reverse_append, List.reverse_reverse]

/-- White space is removed behind a text that begins with visible characters, and these stay. -/
theorem trim_append (hcs : Trimmed cs) (hne : cs ≠ []) (ds : List Char) :
    trim (cs ++ ds) = cs ++ trimRight ds := by
  have hhead : ∀ c ∈ (cs ++ ds).head?, isBlank c = false := by
    rw [List.head?_append_of_ne_nil _ hne]
    exact hcs.head
  rw [trim, trimLeft_eq_self hhead, trimRight_append hcs.last]

theorem Trimmed.trim_append_blank (hcs : Trimmed cs) (hds : Blank ds) : trim (cs ++ ds) = cs := by
  by_cases hne : cs = []
  · rw [hne]
    exact hds.trim_eq_nil
  · rw [trim_append hcs hne, hds.trimRight_eq_nil, List.append_nil]

theorem trim_trimRight (cs : List Char) : trim (trimRight cs) = trim cs := by
  obtain ⟨blank, hblank, hcs⟩ := exists_trimRight cs
  obtain ⟨before, after, hbefore, hafter, htrim⟩ := exists_blank_trim (trimRight cs)
  conv_rhs => rw [hcs, htrim, List.append_assoc, List.append_assoc, hbefore.trim_append,
    (trimmed_trim (trimRight cs)).trim_append_blank (hafter.append hblank)]

/-! ## Words -/

theorem wordsFrom_append (h : ∀ c ∈ cs, isBlank c = false) (word ds : List Char) :
    wordsFrom word (cs ++ ds) = wordsFrom (cs.reverse ++ word) ds := by
  induction cs generalizing word with
  | nil => rfl
  | cons c cs ih =>
    obtain ⟨hc, hcs⟩ := List.forall_mem_cons.1 h
    rw [List.cons_append, wordsFrom, if_neg (by simp [hc]), ih hcs, List.reverse_cons, List.append_assoc]
    rfl

theorem Blank.words_append (h : Blank cs) (ds : List Char) : words (cs ++ ds) = words ds := by
  induction cs with
  | nil => rfl
  | cons c cs ih =>
    obtain ⟨hc, hcs⟩ := List.forall_mem_cons.1 h
    rw [← ih hcs, List.cons_append, words, wordsFrom, if_pos hc]
    rfl

theorem Blank.wordsFrom_eq (h : Blank cs) (word : List Char) : wordsFrom word cs = wordsFrom word [] := by
  cases cs with
  | nil => rfl
  | cons c cs =>
    obtain ⟨hc, hcs⟩ := List.forall_mem_cons.1 h
    have hrest : wordsFrom [] cs = [] := by
      have hnil := Blank.words_append hcs []
      rwa [List.append_nil] at hnil
    rw [wordsFrom.eq_2, if_pos hc, hrest, wordsFrom]

theorem wordsFrom_append_blank (hds : Blank ds) (word : List Char) :
    wordsFrom word (cs ++ ds) = wordsFrom word cs := by
  fun_induction wordsFrom word cs with
  | case1 word h => rw [List.nil_append, hds.wordsFrom_eq, wordsFrom, if_pos h]
  | case2 word h => rw [List.nil_append, hds.wordsFrom_eq, wordsFrom, if_neg h]
  | case3 word c cs hc hword ih => rw [List.cons_append, wordsFrom, if_pos hc, if_pos hword, ih]
  | case4 word c cs hc hword ih => rw [List.cons_append, wordsFrom, if_pos hc, if_neg hword, ih]
  | case5 word c cs hc ih => rw [List.cons_append, wordsFrom, if_neg hc, ih]

/-- White space around a text does not change its words. -/
theorem words_trim (cs : List Char) : words (trim cs) = words cs := by
  obtain ⟨before, after, hbefore, hafter, hcs⟩ := exists_blank_trim cs
  conv_rhs => rw [hcs, hbefore.words_append]
  exact (wordsFrom_append_blank hafter []).symm

/-- A word ends with the text or before white space. -/
theorem IsWord.words_append (hword : IsWord word) (hds : ∀ c ∈ ds.head?, isBlank c) :
    words (word ++ ds) = word :: words ds := by
  rw [words, wordsFrom_append hword.visible, List.append_nil]
  cases ds with
  | nil =>
    rw [wordsFrom, if_neg (by simp [hword.ne_nil]), List.reverse_reverse]
    rfl
  | cons d ds =>
    have hrest : words (d :: ds) = wordsFrom [] ds := if_pos (hds d rfl)
    rw [wordsFrom, if_pos (hds d rfl), if_neg (by simp [hword.ne_nil]), List.reverse_reverse, hrest]

/-- Where a text begins with visible characters, its first word does. -/
theorem IsWord.exists_words (hword : IsWord word) (ds : List Char) :
    ∃ tail rest, words (word ++ ds) = (word ++ tail) :: rest := by
  refine ⟨ds.takeWhile (!isBlank ·), words (ds.dropWhile (!isBlank ·)), ?_⟩
  have hlong : IsWord (word ++ ds.takeWhile (!isBlank ·)) := by
    refine ⟨fun h => hword.ne_nil (List.append_eq_nil_iff.1 h).1, fun c hc => ?_⟩
    rcases List.mem_append.1 hc with hc | hc
    · exact hword.visible c hc
    · simpa using List.mem_takeWhile_imp hc
  have hblank : ∀ c ∈ (ds.dropWhile (!isBlank ·)).head?, isBlank c := by
    intro c hc
    have hnot := List.head?_dropWhile_not (!isBlank ·) ds
    rw [show (ds.dropWhile (!isBlank ·)).head? = some c from hc] at hnot
    simpa using hnot
  rw [← hlong.words_append hblank, List.append_assoc, List.takeWhile_append_dropWhile]

/-! ## Parts -/

theorem occursIn_iff : occursIn part cs = true ↔ part <:+: cs := by
  induction cs with
  | nil => rw [occursIn, List.isEmpty_iff, List.infix_nil]
  | cons c cs ih =>
    have hstart : (afterStart? part (c :: cs)).isSome ↔ part <+: c :: cs := by
      rw [Option.isSome_iff_exists]
      exact exists_congr fun rest => afterStart?_eq_some_iff.trans eq_comm
    rw [occursIn, Bool.or_eq_true, hstart, ih, List.infix_cons_iff]

end HybridPlan.Text
