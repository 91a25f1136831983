import HybridPlan.Domain.Declaration
import HybridPlan.Proofs.Domain.Sections
import HybridPlan.Proofs.Numbers.Legible

set_option autoImplicit false

/-! # Declarations that are written

A constant and a variable are written on a line of their own, and the line declares them again. -/

namespace HybridPlan

open Text

theorem Text.splitFirst?_append {sep : Char} {before : List Char} (h : sep ∉ before) (after : List Char) :
    splitFirst? sep (before ++ sep :: after) = some (before, after) := by
  induction before with
  | nil => simp [splitFirst?]
  | cons c before ih =>
    obtain ⟨hc, hbefore⟩ := not_or.1 (mt List.mem_cons.2 h)
    rw [List.cons_append, splitFirst?, if_neg (Ne.symm hc), ih hbefore, Option.map_some]

/-! ## Names -/

section

variable {cs : List Char} {c : Char}

theorem ne_nil_of_isIdentifier (h : isIdentifier cs) : cs ≠ [] := by
  rintro rfl
  contradiction

/-- A name is made of letters, digits and underscores. -/
theorem forall_of_isIdentifier (h : isIdentifier cs) : ∀ c ∈ cs, c.isAlphanum ∨ c = '_' := by
  cases cs with
  | nil => exact nofun
  | cons d r =>
    obtain ⟨hd, hr⟩ := Bool.and_eq_true_iff.1 h
    refine List.forall_mem_cons.2 ⟨?_, fun c hc => ?_⟩
    · rcases Bool.or_eq_true_iff.1 hd with hd | hd
      · exact .inl (by simp [Char.isAlphanum, hd])
      · exact .inr (of_decide_eq_true hd)
    · rcases Bool.or_eq_true_iff.1 (List.all_eq_true.1 hr c hc) with hc | hc
      · exact .inl hc
      · exact .inr (of_decide_eq_true hc)

theorem not_mem_of_isIdentifier (h : isIdentifier cs) (hc : c.isAlphanum = false ∧ c ≠ '_') : c ∉ cs := by
  intro hmem
  rcases forall_of_isIdentifier h c hmem with hword | hword
  · rw [hc.1] at hword
    contradiction
  · exact hc.2 hword

theorem isBlank_of_isIdentifier (h : isIdentifier cs) : ∀ c ∈ cs, isBlank c = false := by
  intro c hc
  rcases forall_of_isIdentifier h c hc with hword | rfl
  · exact isBlank_of_isAlphanum hword
  · rfl

theorem trimmed_of_isIdentifier (h : isIdentifier cs) : Trimmed cs :=
  trimmed_of_forall (isBlank_of_isIdentifier h)

end

/-- A name, a mark and a word are an entry. -/
theorem isEntry_of_words {before mark after : List Char} {text : String}
    (htext : text.toList = before ++ mark ++ after) (hbefore : isIdentifier before) (hmark : '\n' ∉ mark)
    (hne : after ≠ []) (hafter : ∀ c ∈ after, isBlank c = false) : IsEntry text := by
  obtain ⟨c, r, rfl⟩ := List.exists_cons_of_ne_nil (ne_nil_of_isIdentifier hbefore)
  have hhead {d : Char} (hd : d.isAlphanum = false ∧ d ≠ '_') : c ≠ d := by
    rintro rfl
    exact not_mem_of_isIdentifier hbefore hd List.mem_cons_self
  constructor <;> rw [htext]
  · refine ⟨fun d hd => ?_, fun d hd => ?_⟩
    · cases hd
      exact isBlank_of_isIdentifier hbefore c List.mem_cons_self
    · rw [List.getLast?_append_of_ne_nil _ hne] at hd
      exact hafter d (List.mem_of_mem_getLast? hd)
  · simp only [List.mem_append, not_or]
    refine ⟨⟨not_mem_of_isIdentifier hbefore (by decide), hmark⟩, fun h => ?_⟩
    have hblank := hafter _ h
    contradiction
  · exact List.cons_ne_nil _ _
  · simpa using hhead (d := '#') (by decide)
  · exact fun h => hhead (d := '-') (by decide) (List.cons.inj h).1

namespace Declaration

variable {α : Type} [Scalar α] {settings : ReadSettings α} {line : Span} {name : String} {v w : α}

/-! ## Constants -/

/-- The line of a constant. -/
def constantText (c : Constant α) : String := s!"{c.name.text} = {Scalar.text c.value}"

theorem toList_constantText (c : Constant α) :
    (constantText c).toList = c.name.text.toList ++ [' ', '=', ' '] ++ (Scalar.text c.value).toList := by
  change (c.name.text ++ " = " ++ Scalar.text c.value).toList = _
  simp

theorem isEntry_constantText {c : Constant α} (hname : isIdentifier c.name.text.toList)
    (hvalue : Scalar.Restores c.value w) : IsEntry (constantText c) :=
  isEntry_of_words (toList_constantText c) hname (by decide) hvalue.ne_nil fun d hd => (hvalue.plain d hd).1

/-- The placeholders have underscores, which no number has. -/
theorem constantValue?_text (h : Scalar.Restores v w) :
    constantValue? settings (Scalar.text v) = some w := by
  have hne {s : String} (hs : '_' ∈ s.toList) : Scalar.text v ≠ s := by
    rintro rfl
    exact (h.plain _ hs).2 rfl
  rw [constantValue?, if_neg (hne (by decide)), if_neg (hne (by decide)), if_neg (hne (by decide)), h.read]

/-- The line of a constant is read as a constant with the same name, and with the value that the text of
its value reads back as. -/
theorem readConstant_text {c : Constant α} (hline : line.text = constantText c)
    (hname : isIdentifier c.name.text.toList) (hvalue : Scalar.Restores c.value w) :
    ∃ span, readConstant settings line = .ok ⟨⟨c.name.text, some span⟩, w⟩ := by
  have hsplit : splitFirst? '=' line.text.toList =
      some (c.name.text.toList ++ [' '], ' ' :: (Scalar.text c.value).toList) := by
    have hspace : '=' ∉ c.name.text.toList ++ [' '] := by
      rw [List.mem_append, not_or]
      exact ⟨not_mem_of_isIdentifier hname (by decide), by decide⟩
    rw [hline, toList_constantText, ← splitFirst?_append hspace]
    simp
  have htrim := trim_append_space (trimmed_of_isIdentifier hname)
  have htrim' := trim_space_append (trimmed_of_forall fun d hd => (hvalue.plain d hd).1)
  refine ⟨⟨line.source, line.start, line.start + byteSize c.name.text.toList⟩, ?_⟩
  unfold readConstant
  rw [hsplit]
  dsimp only
  rw [htrim, htrim', hname, String.ofList_toList, constantValue?_text hvalue, String.ofList_toList]
  rfl

theorem isIdentifier_of_readConstant {c : Constant α} (h : readConstant settings line = .ok c) :
    isIdentifier c.name.text.toList := by
  unfold readConstant at h
  split at h
  · next before after hsplit =>
    dsimp only at h
    by_cases hname : isIdentifier (trim before)
    · rw [hname, Bool.not_true, if_neg Bool.false_ne_true] at h
      split at h <;> cases h
      rwa [String.toList_ofList]
    · rw [if_pos (by simpa using hname)] at h
      cases h
  · cases h

/-! ## Variables -/

/-- What stands before the colon in the line of a variable. -/
def typeText (isGlobal : Bool) (role : Role) (kind : VarKind) : List Char :=
  (if isGlobal then "global_".toList else []) ++ role.name.toList ++ '_' :: kind.name.toList

theorem isIdentifier_typeText (isGlobal : Bool) (role : Role) (kind : VarKind) :
    isIdentifier (typeText isGlobal role kind) := by
  cases kind <;> cases role <;> cases isGlobal <;> decide

/-! The type that is written is the type that is read. -/

theorem lower_typeText (isGlobal : Bool) (role : Role) (kind : VarKind) :
    (typeText isGlobal role kind).map Char.toLower = typeText isGlobal role kind := by
  cases kind <;> cases role <;> cases isGlobal <;> decide

theorem afterStart?_typeText (isGlobal : Bool) (role : Role) (kind : VarKind) :
    afterStart? "global_".toList (typeText isGlobal role kind) =
      if isGlobal then some (typeText false role kind) else none := by
  cases kind <;> cases role <;> cases isGlobal <;> decide

theorem splitFirst?_typeText (role : Role) (kind : VarKind) :
    splitFirst? '_' (typeText false role kind) = some (role.name.toList, kind.name.toList) := by
  cases kind <;> cases role <;> decide

theorem role?_name (role : Role) : role? role.name.toList = some role := by
  cases role <;> rfl

theorem kind?_name (kind : VarKind) : kind? kind.name.toList = some kind := by
  cases kind <;> rfl

theorem toList_variableText (x : Variable) :
    x.text.toList = typeText x.isGlobal x.role x.kind ++ [':', ' '] ++ x.name.text.toList := by
  change ((if x.isGlobal then "global_" else "") ++ x.role.name ++ "_" ++ x.kind.name ++ ": " ++
    x.name.text).toList = _
  unfold typeText
  cases x.isGlobal <;> simp

theorem isEntry_variableText {x : Variable} (hname : isIdentifier x.name.text.toList) : IsEntry x.text :=
  isEntry_of_words (toList_variableText x) (isIdentifier_typeText _ _ _) (by decide)
    (ne_nil_of_isIdentifier hname) (isBlank_of_isIdentifier hname)

/-- The line of a variable declares the variable. -/
theorem readVariable_text {x : Variable} (hline : line.text = x.text) (hname : isIdentifier x.name.text.toList) :
    ∃ span, readVariable line = .ok { x with name := ⟨x.name.text, some span⟩ } := by
  have hsplit : splitFirst? ':' line.text.toList = some (typeText x.isGlobal x.role x.kind, ' ' :: x.name.text.toList) := by
    have hcolon := not_mem_of_isIdentifier (isIdentifier_typeText x.isGlobal x.role x.kind) (c := ':') (by decide)
    rw [hline, toList_variableText, ← splitFirst?_append hcolon]
    simp
  have htrim := (trimmed_of_isIdentifier (isIdentifier_typeText x.isGlobal x.role x.kind)).trim_eq
  have htrim' := trim_space_append (trimmed_of_isIdentifier hname)
  refine ⟨⟨line.source, line.stop - byteSize x.name.text.toList, line.stop⟩, ?_⟩
  unfold readVariable
  rw [hsplit]
  dsimp only
  rw [htrim, htrim', hname, String.ofList_toList, lower_typeText, afterStart?_typeText]
  rcases x with ⟨name, kind, role, _ | _⟩
  · simp only [Bool.false_eq_true, if_false, splitFirst?_typeText, role?_name, kind?_name]
    rfl
  · simp only [if_true, splitFirst?_typeText, role?_name, kind?_name]
    rfl

theorem isIdentifier_of_readVariable {x : Variable} (h : readVariable line = .ok x) :
    isIdentifier x.name.text.toList := by
  unfold readVariable at h
  split at h
  · next before after hsplit =>
    dsimp only at h
    by_cases hname : isIdentifier (trim after)
    · rw [hname, Bool.not_true, if_neg Bool.false_ne_true] at h
      -- whatever the type is, the name is what follows it
      repeat' split at h
      all_goals cases h
      all_goals rwa [String.toList_ofList]
    · rw [if_pos (by simpa using hname)] at h
      cases h
  · cases h

end Declaration

end HybridPlan
