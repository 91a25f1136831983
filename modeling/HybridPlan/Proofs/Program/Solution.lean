import HybridPlan.Program.Solution
import HybridPlan.Proofs.Program.Calls
import HybridPlan.Proofs.Text.Words

set_option autoImplicit false

/-! # Reading solutions

A solution file is read line by line, in any order. White space around the fields of a line and further
fields do not matter. Every variable gets the value of its last line, or zero if it has none, and a line
that cannot be read spoils the whole file. -/

namespace HybridPlan.Solution

open Text (Blank IsWord Trimmed)

variable {α : Type} [Scalar α]

/-! ## Lines of a solution file -/

/-- The line begins with the heading, white space aside, and the rest follows. -/
def Heads (heading : String) (l rest : List Char) : Prop :=
  ∃ before, Blank before ∧ l = before ++ (heading.toList ++ rest)

/-- The first two fields of a line. -/
inductive Fields : List Char → String → String → Prop
  | intro {before between after : List Char} {name value : String} (hbefore : Blank before)
      (hname : IsWord name.toList) (hbetween : Blank between) (hne : between ≠ [])
      (hvalue : IsWord value.toList) (hafter : ∀ c ∈ after.head?, Text.isBlank c) :
      Fields (before ++ (name.toList ++ (between ++ (value.toList ++ after)))) name value

/-- What a line says that is part of a solution. -/
inductive Tells : List Char → Line α → Prop
  | blank {l : List Char} (h : Blank l) : Tells l .blank
  | status {l rest : List Char} (h : Heads "solution status:" l rest)
      (hfeasible : ¬"infeasible".toList <:+: rest) : Tells l .blank
  | objective {l text : List Char} {x : α} (h : Heads "objective value:" l text)
      (hx : Scalar.read? (String.ofList (Text.trim text)) = some x) : Tells l (.objective x)
  | value {l : List Char} {name value : String} {x : α} (h : Fields l name value)
      (hx : readValue? value = some x) : Tells l (.value name x)

/-- The line reports that there is no solution. -/
def ReportsNone (l : List Char) : Prop :=
  ∃ rest, Heads "no solution available" l rest ∨
    Heads "solution status:" l rest ∧ "infeasible".toList <:+: rest

/-- What the lines begin with that are not about a variable. -/
def headings : List String := ["no solution available", "solution status:", "objective value:"]

/-- The line is about a variable that the program does not have, or a number on it cannot be read. -/
inductive Spoils (p : Program α) (l : List Char) : Prop
  | unknown {name value : String} (h : Fields l name value)
      (hplain : ∀ heading ∈ headings, ∀ rest, ¬Heads heading l rest)
      (hname : ∀ v ∈ p.vars.toList, v.name ≠ name)
  | unreadable {name value : String} (h : Fields l name value)
      (hplain : ∀ heading ∈ headings, ∀ rest, ¬Heads heading l rest)
      (hvalue : (readValue? value : Option α) = none)
  | objective {text : List Char} (h : Heads "objective value:" l text)
      (hx : (Scalar.read? (String.ofList (Text.trim text)) : Option α) = none)

def Line.objective? : Line α → Option α
  | .objective x => some x
  | _ => none

def Line.value? : Line α → Option (String × α)
  | .value name x => some (name, x)
  | _ => none

/-- The last of the values by name, zero if there is none. -/
def lastValue (name : String) (named : List (String × α)) : α :=
  ((named.filter (·.1 = name)).getLast?.map (·.2)).getD Scalar.zero

open Classical in
/-- The lines about one variable. -/
noncomputable def linesOf (α : Type) [Scalar α] (name : String) (ls : List (List Char)) : List (List Char) :=
  ls.filter fun l => ∃ x : α, Tells l (.value name x)

/-- The lines say this, one of them the objective, the others something about variables of the
program or nothing. -/
structure Describes (p : Program α) (ls : List (List Char)) (entries : List (Line α)) (x : α) :
    Prop where
  tells : List.Forall₂ Tells ls entries
  objective : entries.filterMap Line.objective? = [x]
  known : ∀ name y, .value name y ∈ entries → ∃ v ∈ p.vars.toList, v.name = name

/-! ## Headings and fields -/

section

variable {l rest cs : List Char} {heading name value : String} {x : α}

theorem trimmed_heading (h : heading ∈ headings) : Trimmed heading.toList ∧ heading.toList ≠ [] := by
  simp only [headings, List.mem_cons, List.not_mem_nil, or_false] at h
  rcases h with rfl | rfl | rfl
  · exact ⟨⟨by simp [Text.isBlank], by simp [Text.isBlank]⟩, by simp⟩
  · exact ⟨⟨by simp [Text.isBlank], by simp [Text.isBlank]⟩, by simp⟩
  · exact ⟨⟨by simp [Text.isBlank], by simp [Text.isBlank]⟩, by simp⟩

theorem Heads.trim_eq (hheading : heading ∈ headings) (h : Heads heading l rest) :
    Text.trim l = heading.toList ++ Text.trimRight rest := by
  obtain ⟨before, hbefore, rfl⟩ := h
  obtain ⟨htrimmed, hne⟩ := trimmed_heading hheading
  rw [hbefore.trim_append, Text.trim_append htrimmed hne]

theorem heads_of_afterStart? (h : Text.afterStart? heading.toList (Text.trim l) = some cs) :
    ∃ after, Heads heading l (cs ++ after) := by
  obtain ⟨before, after, hbefore, -, hl⟩ := Text.exists_blank_trim l
  refine ⟨after, before, hbefore, ?_⟩
  rw [Text.afterStart?_eq_some_iff.1 h, List.append_assoc] at hl
  exact hl

theorem Fields.words_eq (h : Fields l name value) :
    ∃ rest, Text.words (Text.trim l) = name.toList :: value.toList :: rest := by
  cases h with
  | @intro before between after _ _ hbefore hname hbetween hne hvalue hafter =>
    have hhead : ∀ c ∈ (between ++ (value.toList ++ after)).head?, Text.isBlank c := by
      intro c hc
      rw [List.head?_append_of_ne_nil _ hne] at hc
      exact hbetween c (List.mem_of_mem_head? hc)
    refine ⟨Text.words after, ?_⟩
    rw [Text.words_trim, hbefore.words_append, hname.words_append hhead, hbetween.words_append,
      hvalue.words_append hafter]

/-- A text that begins with a letter of certain headings is no number. -/
theorem readValue?_eq_none {c : Char} (hc : c = 's' ∨ c = 'v') (h : value.toList = c :: cs) :
    (readValue? value : Option α) = none := by
  have hsigned : value ≠ "+infinity" ∧ value ≠ "infinity" ∧ value ≠ "-infinity" := by
    refine ⟨?_, ?_, ?_⟩ <;> rintro rfl <;> rcases hc with rfl | rfl <;> simp at h
  have hread : Decimal.Numeral.read? value.toList = none := by
    rw [h]
    rcases hc with rfl | rfl
    · simp [Decimal.Numeral.read?, Decimal.Magnitude.read?, Decimal.readDecimal?]
    · simp [Decimal.Numeral.read?, Decimal.Magnitude.read?, Decimal.readDecimal?]
  simp [readValue?, hsigned, Scalar.read?, hread]

/-- The second field of a line with a heading begins as the second word of the heading does. -/
theorem Heads.exists_value_eq {first more : List Char} {c : Char} (h : Heads heading l rest)
    (hheading : heading.toList = first ++ ' ' :: c :: more) (hfirst : IsWord first)
    (hc : Text.isBlank c = false) (hfields : Fields l name value) : ∃ cs, value.toList = c :: cs := by
  obtain ⟨words, hwords⟩ := hfields.words_eq
  obtain ⟨before, hbefore, rfl⟩ := h
  have hword : IsWord [c] := ⟨List.cons_ne_nil _ _, by simpa using hc⟩
  have hspace : Blank [' '] := by simp [Blank, Text.isBlank]
  obtain ⟨tail, words', hsecond⟩ := hword.exists_words (more ++ rest)
  have hsplit : heading.toList ++ rest = first ++ ([' '] ++ ([c] ++ (more ++ rest))) := by
    rw [hheading]
    simp
  have hhead : ∀ d ∈ ([' '] ++ ([c] ++ (more ++ rest))).head?, Text.isBlank d := by
    simp [Text.isBlank]
  rw [Text.words_trim, hbefore.words_append, hsplit, hfirst.words_append hhead, hspace.words_append,
    hsecond] at hwords
  exact ⟨tail, (List.cons.inj (List.cons.inj hwords).2).1.symm⟩

/-- A line with a number in its second field has no heading. -/
theorem Fields.plain (h : Fields l name value) (hx : readValue? value = some x) :
    ∀ heading ∈ headings, ∀ rest, ¬Heads heading l rest := by
  intro heading hheading rest hheads
  obtain ⟨c, hc, cs, hvalue⟩ : ∃ c, (c = 's' ∨ c = 'v') ∧ ∃ cs, value.toList = c :: cs := by
    simp only [headings, List.mem_cons, List.not_mem_nil, or_false] at hheading
    rcases hheading with rfl | rfl | rfl
    · have hsplit : "no solution available".toList =
          "no".toList ++ ' ' :: 's' :: "olution available".toList := rfl
      exact ⟨'s', .inl rfl, hheads.exists_value_eq hsplit ⟨by simp, by simp [Text.isBlank]⟩ rfl h⟩
    · have hsplit : "solution status:".toList = "solution".toList ++ ' ' :: 's' :: "tatus:".toList := rfl
      exact ⟨'s', .inl rfl, hheads.exists_value_eq hsplit ⟨by simp, by simp [Text.isBlank]⟩ rfl h⟩
    · have hsplit : "objective value:".toList = "objective".toList ++ ' ' :: 'v' :: "alue:".toList := rfl
      exact ⟨'v', .inr rfl, hheads.exists_value_eq hsplit ⟨by simp, by simp [Text.isBlank]⟩ rfl h⟩
  rw [readValue?_eq_none hc hvalue] at hx
  cases hx

/-! ## Reading a line -/

theorem readLine_plain (h : Fields l name value)
    (hplain : ∀ heading ∈ headings, ∀ rest, ¬Heads heading l rest) :
    readLine (Text.trim l) = match (readValue? value : Option α) with
      | some x => .ok (.value name x)
      | none => .error (.reply (.invalidValue value name)) := by
  have hstart (heading : String) (hheading : heading ∈ headings) :
      Text.afterStart? heading.toList (Text.trim l) = none := by
    refine Option.eq_none_iff_forall_ne_some.2 fun cs hcs => ?_
    obtain ⟨after, hheads⟩ := heads_of_afterStart? hcs
    exact hplain heading hheading _ hheads
  obtain ⟨rest, hwords⟩ := h.words_eq
  have hne : Text.trim l ≠ [] := by
    intro hnil
    rw [hnil] at hwords
    cases hwords
  have hmissing := hstart "no solution available" (by simp [headings])
  have hstatus := hstart "solution status:" (by simp [headings])
  have hobjective := hstart "objective value:" (by simp [headings])
  unfold readLine
  cases hx : (readValue? value : Option α) <;>
    simp only [List.isEmpty_iff, hne, if_false, hmissing, hstatus, hobjective, hwords, List.map_cons,
      String.ofList_toList, Option.isSome_none, Bool.false_eq_true, hx]

theorem readLine_status (h : Heads "solution status:" l rest)
    (hfeasible : ¬"infeasible".toList <:+: rest) : readLine (Text.trim l) = .ok (.blank : Line α) := by
  have hmissing (cs : List Char) :
      Text.afterStart? "no solution available".toList ("solution status:".toList ++ cs) = none := rfl
  have hstatus := Text.afterStart?_eq_some_iff.2 (h.trim_eq (by simp [headings]))
  have hmentions : Text.occursIn "infeasible".toList (Text.trimRight rest) = false := by
    rw [Bool.eq_false_iff]
    intro hoccurs
    have hprefix : Text.trimRight rest <+: rest := Text.isPrefix_dropEnd _ rest
    exact hfeasible ((Text.occursIn_iff.1 hoccurs).trans hprefix.isInfix)
  rw [h.trim_eq (by simp [headings])] at hstatus ⊢
  unfold readLine
  simp only [hmissing, hstatus, hmentions]
  rfl

theorem readLine_objective (h : Heads "objective value:" l rest) :
    readLine (Text.trim l) = match (Scalar.read? (String.ofList (Text.trim rest)) : Option α) with
      | some x => .ok (.objective x)
      | none => .error (.reply (.invalidObjective (String.ofList (Text.trim rest)))) := by
  have hmissing (cs : List Char) :
      Text.afterStart? "no solution available".toList ("objective value:".toList ++ cs) = none := rfl
  have hstatus (cs : List Char) :
      Text.afterStart? "solution status:".toList ("objective value:".toList ++ cs) = none := rfl
  have hobjective := Text.afterStart?_eq_some_iff.2 (h.trim_eq (by simp [headings]))
  rw [h.trim_eq (by simp [headings])] at hobjective ⊢
  unfold readLine
  simp only [hmissing, hstatus, hobjective, Text.trim_trimRight]
  rfl

theorem Tells.readLine_eq {e : Line α} (h : Tells l e) : readLine (Text.trim l) = .ok e := by
  cases h with
  | blank h => rw [h.trim_eq_nil]; rfl
  | status h hfeasible => exact readLine_status h hfeasible
  | objective h hx => rw [readLine_objective h, hx]
  | value h hx => rw [readLine_plain h (h.plain hx), hx]

theorem reportsNone_of_readLine (h : readLine (Text.trim l) = .ok (.missing : Line α)) :
    ReportsNone l := by
  unfold readLine at h
  dsimp only at h
  split at h
  · cases h
  split at h
  · next hmissing =>
    obtain ⟨cs, hcs⟩ := Option.isSome_iff_exists.1 hmissing
    obtain ⟨after, hheads⟩ := heads_of_afterStart? hcs
    exact ⟨_, .inl hheads⟩
  split at h
  · next cs hcs =>
    split at h
    · next hmentions =>
      obtain ⟨after, hheads⟩ := heads_of_afterStart? hcs
      refine ⟨_, .inr ⟨hheads, ?_⟩⟩
      have hoccurs := (Bool.and_eq_true_iff.1 hmentions).1
      exact (Text.occursIn_iff.1 hoccurs).trans (List.prefix_append cs after).isInfix
    · cases h
  · split at h
    · split at h <;> cases h
    · split at h
      · split at h <;> cases h
      · cases h

/-- Whatever cannot be read is a fault of the reply. -/
theorem exists_fault_of_readLine {e : SolverError} (h : (readLine cs : Except _ (Line α)) = .error e) :
    ∃ fault, e = .reply fault := by
  unfold readLine at h
  dsimp only at h
  split at h
  · cases h
  split at h
  · cases h
  split at h
  · split at h <;> cases h
  split at h
  · split at h
    · cases h
    · cases h
      exact ⟨_, rfl⟩
  split at h
  · split at h
    · cases h
    · cases h
      exact ⟨_, rfl⟩
  · cases h
    exact ⟨_, rfl⟩

/-- A line that spoils the file either cannot be read or is about an unknown variable. -/
theorem Spoils.readLine_eq {p : Program α} (h : Spoils p l) :
    (∃ e, (readLine (Text.trim l) : Except _ (Line α)) = .error e) ∨
      ∃ name, (∃ x, readLine (Text.trim l) = .ok (.value name x : Line α)) ∧
        ∀ v ∈ p.vars.toList, v.name ≠ name := by
  cases h with
  | @unknown name value h hplain hname =>
    rw [readLine_plain h hplain]
    cases hx : (readValue? value : Option α) with
    | some x => exact .inr ⟨name, ⟨x, rfl⟩, hname⟩
    | none => exact .inl ⟨_, rfl⟩
  | unreadable h hplain hvalue =>
    rw [readLine_plain h hplain, hvalue]
    exact .inl ⟨_, rfl⟩
  | objective h hx =>
    rw [readLine_objective h, hx]
    exact .inl ⟨_, rfl⟩

end

/-! ## Reading all lines -/

section

variable {ls : List (List Char)} {entries : List (Line α)} {o o' : Option α}
  {named named' : List (String × α)}

theorem readLines_of_tells (h : List.Forall₂ Tells ls entries) (o : Option α)
    (named : List (String × α)) :
    readLines o named ls = .ok (some ((entries.filterMap Line.objective?).getLast?.or o,
      named ++ entries.filterMap Line.value?)) := by
  induction h generalizing o named with
  | nil => rw [List.filterMap_nil, List.filterMap_nil, List.append_nil]; rfl
  | @cons l e ls entries hl _ ih =>
    rw [readLines, hl.readLine_eq]
    cases hl with
    | blank | status => exact ih o named
    | objective =>
      refine (ih _ named).trans ?_
      simp only [List.filterMap_cons, Line.objective?, Line.value?, List.getLast?_cons]
      cases (entries.filterMap Line.objective?).getLast? <;> rfl
    | value =>
      refine (ih o _).trans ?_
      rw [List.append_assoc]
      rfl

theorem exists_fault_of_readLines {e : SolverError} (h : readLines o named ls = .error e) :
    ∃ fault, e = .reply fault := by
  induction ls generalizing o named with
  | nil => cases h
  | cons l ls ih =>
    rw [readLines] at h
    cases hread : (readLine (Text.trim l) : Except _ (Line α)) with
    | error e' =>
      rw [hread] at h
      cases h
      exact exists_fault_of_readLine hread
    | ok entry =>
      rw [hread] at h
      cases entry with
      | blank => exact ih h
      | missing => cases h
      | objective x => exact ih h
      | value name x => exact ih h

theorem exists_missing_of_readLines (h : readLines o named ls = .ok none) :
    ∃ l ∈ ls, readLine (Text.trim l) = .ok (.missing : Line α) := by
  induction ls generalizing o named with
  | nil => cases h
  | cons l ls ih =>
    rw [readLines] at h
    cases hread : (readLine (Text.trim l) : Except _ (Line α)) with
    | error e =>
      rw [hread] at h
      cases h
    | ok entry =>
      rw [hread] at h
      cases entry with
      | missing => exact ⟨l, List.mem_cons_self, hread⟩
      | blank | objective | value =>
        obtain ⟨l', hl', hmissing⟩ := ih h
        exact ⟨l', List.mem_cons_of_mem l hl', hmissing⟩

/-- All lines are read, and no value is left out. -/
theorem readLines_eq_some (h : readLines o named ls = .ok (some (o', named'))) :
    named ⊆ named' ∧ ∀ l ∈ ls, ∃ entry : Line α, readLine (Text.trim l) = .ok entry ∧
      ∀ x, entry.value? = some x → x ∈ named' := by
  induction ls generalizing o named with
  | nil =>
    cases h
    exact ⟨List.Subset.refl _, fun l hl => absurd hl List.not_mem_nil⟩
  | cons l ls ih =>
    rw [readLines] at h
    cases hread : (readLine (Text.trim l) : Except _ (Line α)) with
    | error e =>
      rw [hread] at h
      cases h
    | ok entry =>
      rw [hread] at h
      cases entry with
      | missing => cases h
      | blank | objective =>
        obtain ⟨hnamed, hls⟩ := ih h
        exact ⟨hnamed, List.forall_mem_cons.2 ⟨⟨_, hread, fun _ hx => (by cases hx)⟩, hls⟩⟩
      | value name x =>
        obtain ⟨hnamed, hls⟩ := ih h
        refine ⟨fun y hy => hnamed (List.mem_append_left _ hy),
          List.forall_mem_cons.2 ⟨⟨_, hread, fun y hy => ?_⟩, hls⟩⟩
        cases hy
        exact hnamed (List.mem_append_right _ (List.mem_singleton.2 rfl))

end

/-! ## Values of variables -/

section

variable {p : Program α} {ls ls' : List (List Char)} {entries entries' : List (Line α)} {x : α}
  {named : List (String × α)} {values values' : Array α} {name : String}

theorem exists_fault_of_enter {e : SolverError} (h : enter p values named = .error e) :
    ∃ fault, e = .reply fault := by
  fun_induction enter p values named with
  | case1 values => cases h
  | case2 values name x rest v hv ih => exact ih h
  | case3 values name x rest hv =>
    cases h
    exact ⟨_, rfl⟩

theorem varOf?_ne_none_of_enter (h : enter p values named = .ok values') (y : String × α)
    (hy : y ∈ named) : p.varOf? y.1 ≠ none := by
  fun_induction enter p values named with
  | case1 values => cases hy
  | case2 values name x rest v hv ih =>
    rcases List.mem_cons.1 hy with rfl | hy
    · rw [hv]
      exact Option.some_ne_none v
    · exact ih h hy
  | case3 values name x rest hv => cases h

/-- The last value of a name counts. -/
theorem exists_enter (hp : p.Indexed) (hsize : values.size = p.vars.size)
    (hnamed : ∀ y ∈ named, ∃ v ∈ p.vars.toList, v.name = y.1) :
    ∃ values', enter p values named = .ok values' ∧ values'.size = p.vars.size ∧
      ∀ (i : ℕ) v, p.vars[i]? = some v →
        values'[i]? = ((named.filter (·.1 = v.name)).getLast?.map (·.2)).or values[i]? := by
  induction named generalizing values with
  | nil => exact ⟨values, rfl, hsize, fun i v _ => rfl⟩
  | cons y named ih =>
    obtain ⟨name, x⟩ := y
    obtain ⟨hname, hnamed⟩ := List.forall_mem_cons.1 hnamed
    obtain ⟨k, hk⟩ : ∃ k, p.varOf? name = some k := by
      rw [← Option.ne_none_iff_exists', Ne, hp.varOf?_eq_none]
      push Not
      exact hname
    obtain ⟨w, hw, hwname⟩ := (hp name k).1 hk
    have hset : (values.setIfInBounds k x).size = p.vars.size := by rw [Array.size_setIfInBounds, hsize]
    obtain ⟨values', henter, hsize', hvalues⟩ := ih hset hnamed
    refine ⟨values', by rw [enter, hk]; exact henter, hsize', fun i v hv => ?_⟩
    rw [hvalues i v hv, Array.getElem?_setIfInBounds, List.filter_cons]
    by_cases heq : name = v.name
    · -- names are different, so the value has been entered at the place of this variable
      obtain rfl : k = i := Option.some.inj (hk.symm.trans ((hp name i).2 ⟨v, hv, heq.symm⟩))
      have hlt : k < values.size := hsize ▸ (Array.getElem?_eq_some_iff.1 hv).1
      rw [if_pos rfl, if_pos hlt, if_pos (by simpa using heq), List.getLast?_cons]
      cases (named.filter (·.1 = v.name)).getLast? <;> rfl
    · have hne : k ≠ i := by
        rintro rfl
        exact heq (hwname.symm.trans (congrArg _ (Option.some.inj (hw.symm.trans hv))))
      rw [if_neg hne, if_neg (by simpa using heq)]

/-- A text is read in two steps: all of its lines, then the values that they give. -/
theorem read_cases (p : Program α) (text : String) :
    (∃ e, readLines (α := α) none [] (Text.lines text.toList) = .error e ∧ read p text = .error e) ∨
      (readLines (α := α) none [] (Text.lines text.toList) = .ok none ∧ read p text = .ok none) ∨
      (∃ named, readLines (α := α) none [] (Text.lines text.toList) = .ok (some (none, named)) ∧
        read p text = .error (.reply .noObjective)) ∨
      ∃ (x : α) (named : List (String × α)),
        readLines none [] (Text.lines text.toList) = .ok (some (some x, named)) ∧
          read p text = (enter p (Array.replicate p.vars.size Scalar.zero) named).map fun values =>
            some ⟨values, x⟩ := by
  rw [read]
  rcases readLines (α := α) none [] (Text.lines text.toList) with e | _ | ⟨⟨_ | x, named⟩⟩
  · exact .inl ⟨e, rfl, rfl⟩
  · exact .inr (.inl ⟨rfl, rfl⟩)
  · exact .inr (.inr (.inl ⟨named, rfl, rfl⟩))
  · refine .inr (.inr (.inr ⟨x, named, rfl, ?_⟩))
    change ofNamed p named >>= _ = _
    unfold ofNamed
    cases enter p (Array.replicate p.vars.size Scalar.zero) named <;> rfl

/-- A text in which all lines are part of a solution gives that solution. -/
theorem Describes.exists_read (hp : p.Indexed) {text : String}
    (h : Describes p (Text.lines text.toList) entries x) :
    ∃ values, read p text = .ok (some ⟨values, x⟩) ∧ values.size = p.vars.size ∧
      ∀ (i : ℕ) v, p.vars[i]? = some v →
        values[i]? = some (lastValue v.name (entries.filterMap Line.value?)) := by
  have hnamed : ∀ y ∈ entries.filterMap Line.value?, ∃ v ∈ p.vars.toList, v.name = y.1 := by
    intro y hy
    obtain ⟨e, he, hvalue⟩ := List.mem_filterMap.1 hy
    cases e with
    | blank | missing | objective => cases hvalue
    | value name z =>
      cases hvalue
      exact h.known name z he
  have hzero : (Array.replicate p.vars.size (Scalar.zero : α)).size = p.vars.size := Array.size_replicate
  obtain ⟨values, henter, hsize, hvalues⟩ := exists_enter hp hzero hnamed
  refine ⟨values, ?_, hsize, fun i v hv => ?_⟩
  · have hlines := readLines_of_tells h.tells none []
    rw [h.objective, List.nil_append] at hlines
    obtain ⟨e, he, -⟩ | ⟨he, -⟩ | ⟨_, he, -⟩ | ⟨y, named, he, hr⟩ := read_cases p text
    · cases hlines.symm.trans he
    · cases hlines.symm.trans he
    · cases hlines.symm.trans he
    · cases hlines.symm.trans he
      rw [hr, henter]
      rfl
  · have hlt : i < p.vars.size := (Array.getElem?_eq_some_iff.1 hv).1
    rw [hvalues i v hv, Array.getElem?_replicate, if_pos hlt, lastValue]
    cases ((entries.filterMap Line.value?).filter (·.1 = v.name)).getLast?.map (·.2) <;> rfl

open Classical in
/-- What is said about a variable is said on the lines about it. -/
theorem filter_values (h : List.Forall₂ Tells ls entries) (name : String) :
    (entries.filterMap Line.value?).filter (·.1 = name) = (linesOf α name ls).filterMap fun l =>
      (readLine (Text.trim l) : Except _ (Line α)).toOption.bind Line.value? := by
  induction h with
  | nil => rfl
  | @cons l e ls entries hl _ ih =>
    have hread := hl.readLine_eq
    have habout : (∃ y : α, Tells l (.value name y)) ↔ ∃ y, e = .value name y := by
      constructor
      · rintro ⟨y, hy⟩
        exact ⟨y, Except.ok.inj (hread.symm.trans hy.readLine_eq)⟩
      · rintro ⟨y, rfl⟩
        exact ⟨y, hl⟩
    have htold : (readLine (Text.trim l) : Except _ (Line α)).toOption.bind Line.value? = e.value? := by
      rw [hread]
      rfl
    rw [linesOf, List.filter_cons]
    by_cases hname : ∃ y, e = .value name y
    · rw [if_pos (decide_eq_true (habout.2 hname))]
      obtain ⟨y, rfl⟩ := hname
      have hleft : (Line.value name y :: entries).filterMap Line.value? =
          (name, y) :: entries.filterMap Line.value? := rfl
      rw [hleft, List.filter_cons_of_pos (by simp), ih]
      simp only [List.filterMap_cons, htold]
      rfl
    · rw [if_neg (by simpa using mt habout.1 hname)]
      refine Eq.trans ?_ ih
      cases e with
      | blank | missing | objective => rfl
      | value n y =>
        exact List.filter_cons_of_neg (by simpa using fun heq : n = name => hname ⟨y, heq ▸ rfl⟩)

/-- The same lines in another order say the same about each variable if its lines stay in order. -/
theorem Describes.perm (h : Describes p ls entries x) (hperm : ls'.Perm ls) :
    ∃ entries', Describes p ls' entries' x := by
  obtain ⟨entries', htells, hentries⟩ := List.perm_comp_forall₂ hperm h.tells
  refine ⟨entries', htells, ?_, fun name y hy => h.known name y (hentries.subset hy)⟩
  have hobjective := hentries.filterMap Line.objective?
  rwa [h.objective, List.perm_singleton] at hobjective

theorem Describes.read_perm (hp : p.Indexed) {text text' : String}
    (h : Describes p (Text.lines text.toList) entries x)
    (hperm : (Text.lines text'.toList).Perm (Text.lines text.toList))
    (horder : ∀ name, linesOf α name (Text.lines text'.toList) = linesOf α name (Text.lines text.toList)) :
    read p text' = read p text := by
  obtain ⟨entries', h'⟩ := h.perm hperm
  obtain ⟨values, hread, hsize, hvalues⟩ := h.exists_read hp
  obtain ⟨values', hread', hsize', hvalues'⟩ := h'.exists_read hp
  have heq : values' = values := by
    refine Array.ext (hsize'.trans hsize.symm) fun i hi hi' => ?_
    obtain ⟨v, hv⟩ : ∃ v, p.vars[i]? = some v := ⟨_, Array.getElem?_eq_getElem (hsize' ▸ hi)⟩
    rw [← Option.some_inj, ← Array.getElem?_eq_getElem, ← Array.getElem?_eq_getElem, hvalues i v hv,
      hvalues' i v hv, lastValue, lastValue, filter_values h.tells, filter_values h'.tells, horder]
  rw [hread, hread', heq]

/-- A line that spoils the text leaves no solution. -/
theorem Spoils.read_ne (hp : p.Indexed) {text : String} {l : List Char} (hl : l ∈ Text.lines text.toList)
    (h : Spoils p l) (s : Solution α) : read p text ≠ .ok (some s) := by
  intro hread
  obtain ⟨e, -, hr⟩ | ⟨-, hr⟩ | ⟨-, -, hr⟩ | ⟨x, named, hlines, hr⟩ := read_cases p text
  · cases hread.symm.trans hr
  · cases hread.symm.trans hr
  · cases hread.symm.trans hr
  · obtain ⟨entry, hentry, hvalue⟩ := (readLines_eq_some hlines).2 l hl
    rcases h.readLine_eq with ⟨e, he⟩ | ⟨name, ⟨y, hy⟩, hname⟩
    · cases he.symm.trans hentry
    · obtain rfl := Except.ok.inj (hentry.symm.trans hy)
      cases henter : enter p (Array.replicate p.vars.size Scalar.zero) named with
      | error e =>
        rw [henter] at hr
        cases hread.symm.trans hr
      | ok values => exact varOf?_ne_none_of_enter henter _ (hvalue _ rfl) (hp.varOf?_eq_none.2 hname)

/-- Whatever is wrong with a text is a fault of the reply. -/
theorem exists_fault_of_read {text : String} {e : SolverError} (h : read p text = .error e) :
    ∃ fault, e = .reply fault := by
  obtain ⟨e', hlines, hr⟩ | ⟨-, hr⟩ | ⟨-, -, hr⟩ | ⟨x, named, -, hr⟩ := read_cases p text
  · cases h.symm.trans hr
    exact exists_fault_of_readLines hlines
  · cases h.symm.trans hr
  · cases h.symm.trans hr
    exact ⟨_, rfl⟩
  · cases henter : enter p (Array.replicate p.vars.size Scalar.zero) named with
    | error e' =>
      rw [henter] at hr
      cases h.symm.trans hr
      exact exists_fault_of_enter henter
    | ok values =>
      rw [henter] at hr
      cases h.symm.trans hr

theorem exists_reportsNone_of_read {text : String} (h : read p text = .ok none) :
    ∃ l ∈ Text.lines text.toList, ReportsNone l := by
  obtain ⟨e, -, hr⟩ | ⟨hlines, -⟩ | ⟨-, -, hr⟩ | ⟨x, named, -, hr⟩ := read_cases p text
  · cases h.symm.trans hr
  · obtain ⟨l, hl, hmissing⟩ := exists_missing_of_readLines hlines
    exact ⟨l, hl, reportsNone_of_readLine hmissing⟩
  · cases h.symm.trans hr
  · cases henter : enter p (Array.replicate p.vars.size Scalar.zero) named with
    | error e =>
      rw [henter] at hr
      cases h.symm.trans hr
    | ok values =>
      rw [henter] at hr
      cases h.symm.trans hr

end

/-! ## Texts in any order -/

/-- A text of lines that are part of a solution gives its objective and, for each variable, the value of
its last line or zero. The lines may come in any other order that keeps those about the same variable in
theirs. A line about an unknown variable or with a number that cannot be read, wherever it stands, leaves
no solution; it is a fault of the reply unless a line reports that there is no solution. -/
theorem read_any_order (name : String) (calls : List (ProgramCall α)) :
    (∀ (text : String) (entries : List (Line α)) (x : α),
      Describes (Program.after name calls) (Text.lines text.toList) entries x →
        (∃ values, read (Program.after name calls) text = .ok (some ⟨values, x⟩) ∧
          values.size = (Program.after name calls).vars.size ∧
          ∀ (i : ℕ) v, (Program.after name calls).vars[i]? = some v →
            values[i]? = some (lastValue v.name (entries.filterMap Line.value?))) ∧
        ∀ text' : String, (Text.lines text'.toList).Perm (Text.lines text.toList) →
          (∀ n, linesOf α n (Text.lines text'.toList) = linesOf α n (Text.lines text.toList)) →
          read (Program.after name calls) text' = read (Program.after name calls) text) ∧
    ∀ text : String, (∃ l ∈ Text.lines text.toList, Spoils (Program.after name calls) l) →
      (∀ s, read (Program.after name calls) text ≠ .ok (some s)) ∧
      ((∀ l ∈ Text.lines text.toList, ¬ReportsNone l) →
        ∃ fault, read (Program.after name calls) text = .error (.reply fault)) := by
  have hp := (Program.consistent_after name calls).index
  refine ⟨fun text entries x h => ⟨h.exists_read hp, fun text' => h.read_perm hp⟩, ?_⟩
  rintro text ⟨l, hl, h⟩
  refine ⟨h.read_ne hp hl, fun hnone => ?_⟩
  cases hread : read (Program.after name calls) text with
  | error e =>
    obtain ⟨fault, rfl⟩ := exists_fault_of_read hread
    exact ⟨fault, rfl⟩
  | ok o =>
    cases o with
    | none =>
      obtain ⟨l', hl', hreports⟩ := exists_reportsNone_of_read hread
      exact absurd hreports (hnone l' hl')
    | some s => exact absurd hread (h.read_ne hp hl s)

/-- A variable on two lines, one of them with further fields, gets the value of the second one. -/
theorem read_any_order_repeated :
    let p : Program Binary64 := Program.after "" [.addVar "x" .continuous Scalar.zero Scalar.one]
    ∃ values, read p "objective value: 1\n x  2 (obj:0)\n\nx 3\n" = .ok (some ⟨values, Scalar.one⟩) ∧
      ∀ (i : ℕ) v, p.vars[i]? = some v → values[i]? = some (Scalar.nat 3) := by
  intro p
  have hp : p = ({ name := "" } : Program Binary64).withVar
      (Program.newVar "x" .continuous Scalar.zero Scalar.one) := Program.after_addVar (by decide)
  have hname : ∀ v ∈ p.vars.toList, v.name = "x" := by
    rw [hp]
    intro v hv
    rw [List.mem_singleton.1 hv, Program.newVar]
  have hlines : Text.lines "objective value: 1\n x  2 (obj:0)\n\nx 3\n".toList =
      [[] ++ ("objective value:".toList ++ " 1".toList),
        [' '] ++ ("x".toList ++ ([' ', ' '] ++ ("2".toList ++ " (obj:0)".toList))), [],
        [] ++ ("x".toList ++ ([' '] ++ ("3".toList ++ [])))] := by rfl
  have hblank : Blank [] ∧ Blank [' '] ∧ Blank [' ', ' '] := by simp [Blank, Text.isBlank]
  have hx : IsWord "x".toList := ⟨by simp, by simp [Text.isBlank]⟩
  have hfirst : Tells ([' '] ++ ("x".toList ++ ([' ', ' '] ++ ("2".toList ++ " (obj:0)".toList))))
      (.value "x" (Scalar.nat 2 : Binary64)) := by
    refine .value (.intro hblank.2.1 hx hblank.2.2 (List.cons_ne_nil _ _) ⟨by simp, ?_⟩ ?_) rfl
    · simp [Text.isBlank]
    · simp [Text.isBlank]
  have hsecond : Tells ([] ++ ("x".toList ++ ([' '] ++ ("3".toList ++ []))))
      (.value "x" (Scalar.nat 3 : Binary64)) := by
    refine .value (.intro hblank.1 hx hblank.2.1 (List.cons_ne_nil _ _) ⟨by simp, ?_⟩ ?_) rfl
    · simp [Text.isBlank]
    · simp
  have hdescribes : Describes p (Text.lines "objective value: 1\n x  2 (obj:0)\n\nx 3\n".toList)
      [.objective Scalar.one, .value "x" (Scalar.nat 2), .blank, .value "x" (Scalar.nat 3)] Scalar.one := by
    rw [hlines]
    refine ⟨.cons (.objective ⟨[], hblank.1, rfl⟩ rfl) (.cons hfirst (.cons (.blank hblank.1)
      (.cons hsecond .nil))), rfl, fun name y hy => ?_⟩
    obtain rfl : name = "x" := by
      simp only [List.mem_cons, List.not_mem_nil, Line.value.injEq, or_false, reduceCtorEq,
        false_or] at hy
      exact hy.elim (·.1) (·.1)
    exact ⟨Program.newVar "x" .continuous Scalar.zero Scalar.one, hp ▸ List.mem_singleton.2 rfl, rfl⟩
  obtain ⟨values, hread, -, hvalues⟩ := ((read_any_order "" _).1 _ _ _ hdescribes).1
  refine ⟨values, hread, fun i v hv => ?_⟩
  rw [hvalues i v hv, hname v (Array.mem_toList_iff.2 (Array.mem_of_getElem? hv))]
  rfl

/-- The variables `no` and the one without a name have lines that are not taken for theirs. If `no` has
no number, its line can report that there is no solution. The other one has a line of one field, which
is not enough. -/
theorem read_misses_variables :
    let p : Program Binary64 := Program.after "" [.addVar "no" .continuous Scalar.zero Scalar.one,
      .addVar "" .continuous Scalar.zero Scalar.one]
    p.vars.toList.map (·.name) = ["no", ""] ∧
      (∀ v ∈ p.vars.toList, ∀ c ∈ v.name.toList, Text.isBlank c = false) ∧
      Fields "no solution available".toList "no" "solution" ∧
      (readValue? "solution" : Option Binary64) = none ∧
      read p "objective value: 1\nno solution available\n" = .ok none ∧
      read p "objective value: 1\n 2\n" = .error (.reply (.invalidLine "2")) := by
  intro p
  let q : Program Binary64 := Program.after "" [.addVar "no" .continuous Scalar.zero Scalar.one]
  have hbounds : ¬Scalar.lt (Program.bounds .continuous Scalar.zero (Scalar.one : Binary64)).2
      (Program.bounds .continuous Scalar.zero (Scalar.one : Binary64)).1 := by decide
  have hq : q = ({ name := "" } : Program Binary64).withVar
      (Program.newVar "no" .continuous Scalar.zero Scalar.one) := Program.after_addVar hbounds
  have hnameless : q.varOf? "" = none := by
    refine (Program.consistent_after _ _).index.varOf?_eq_none.2 fun v hv => ?_
    have hv : v ∈ q.vars.toList := hv
    rw [hq] at hv
    rw [List.mem_singleton.1 hv]
    decide
  have hp : p = q.withVar (Program.newVar "" .continuous Scalar.zero Scalar.one) :=
    congrArg Prod.snd (Program.run_addVar_eq_ok hnameless hbounds)
  have hnames : p.vars.toList.map (·.name) = ["no", ""] := by
    rw [hp, hq]
    rfl
  have hfields : Fields ([] ++ ("no".toList ++ ([' '] ++ ("solution".toList ++ " available".toList))))
      "no" "solution" := by
    refine .intro ?_ ⟨by simp, by simp [Text.isBlank]⟩ ?_ (List.cons_ne_nil _ _)
      ⟨by simp, by simp [Text.isBlank]⟩ ?_
    · simp [Blank]
    · simp [Blank, Text.isBlank]
    · simp [Text.isBlank]
  refine ⟨hnames, fun v hv => ?_, hfields, by rfl, by rfl, by rfl⟩
  have hname : v.name ∈ ["no", ""] := hnames ▸ List.mem_map_of_mem hv
  simp only [List.mem_cons, List.not_mem_nil, or_false] at hname
  rcases hname with hname | hname
  · simp [hname, Text.isBlank]
  · simp [hname]

end HybridPlan.Solution
