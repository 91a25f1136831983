import HybridPlan.Domain.Printer
import HybridPlan.Proofs.Domain.Acceptance
import HybridPlan.Proofs.Domain.Names
import HybridPlan.Proofs.Domain.Relocation
import HybridPlan.Proofs.Numbers.Binary64

set_option autoImplicit false

/-! # The text of a domain reads back

A domain that was read is written as sections: constants and variables on lines that declare them again,
and every expression as it was written. The text falls into these sections, the same expressions are
added to an arena in the same order, and the same checks pass. -/

namespace HybridPlan

open Build

variable {α : Type} [Scalar α]

namespace Domain

/-! ## What is written -/

/-- The sections of the file of a domain, but for the reward. -/
def written (d : Domain α) : List (SectionKind × List String) :=
  [(.constants, d.constants.map Declaration.constantText),
   (.declarations, d.vars.map Variable.text),
   (d.mode.equations, d.equations.map (·.span.text)),
   (.initials, d.initials.map (·.span.text)),
   (.instantaneous, d.instantaneous.map (·.span.text)),
   (.temporal, d.temporal.map (·.span.text)),
   (.goals, d.goals.map (·.span.text))]

theorem toList_sectionText (kind : SectionKind) (entries : List String) :
    (sectionText kind entries).toList =
      ((FileSection.lines (kind, entries)).map String.toList).flatMap (· ++ ['\n']) := by
  simp [sectionText, FileSection.lines, SectionKind.header, String.toList_join, List.flatMap_map]

theorem intercalate_append {s : String} {ss : List String} (hne : ss ≠ []) :
    s.intercalate ss ++ s = String.join (ss.map (· ++ s)) := by
  obtain ⟨t, ss, rfl⟩ := List.exists_cons_of_ne_nil hne
  induction ss generalizing t with
  | nil => simp
  | cons u ss ih =>
    rw [String.intercalate_cons_cons, String.append_assoc, ih u (List.cons_ne_nil _ _)]
    simp only [List.map_cons, String.join_cons]

/-- Entries with line feeds between them are one entry on each line. -/
theorem sectionText_intercalate {entries : List String} (hne : entries ≠ []) (kind : SectionKind) :
    sectionText kind [String.intercalate "\n" entries] = sectionText kind entries := by
  have hjoin := intercalate_append (s := "\n") hne
  simp only [sectionText, List.map_cons, List.map_nil, String.join_cons, String.join_nil, String.append_empty,
    hjoin]

/-- The file of a domain consists of lines. -/
theorem toList_text {d : Domain α} (hvars : d.vars ≠ []) : d.text.toList =
    (FileSection.frontLines d.written .reward).flatMap (· ++ ['\n']) ++ d.reward.span.text.toList := by
  have hvars' : d.vars.map Variable.text ≠ [] := by simpa using hvars
  have hreward : s!"{SectionKind.reward.name}:\n{d.reward.span.text}" = "reward:\n" ++ d.reward.span.text := rfl
  unfold text
  dsimp only
  rw [sectionText_intercalate hvars', hreward]
  simp only [String.intercalate_cons_cons, String.intercalate_singleton, String.toList_append,
    toList_sectionText]
  simp [FileSection.frontLines, written, FileSection.lines, SectionKind.header, sectionSeparator]
  rfl

/-! ## What was read -/

section

variable {settings : ReadSettings α} {sections : List FileSection} {kind : SectionKind} {a b : Arena α}
  {d : Domain α}

theorem readEntry_eq_ok {entry : Span} {c : Constraint} : (readEntry entry).run.run a = (.ok c, b) ↔
    (parseRange entry.source entry.start entry.stop).run.run a = (.ok c.expr, b) ∧ c.span = entry := by
  unfold readEntry
  rw [Attempt.run_bind_eq_ok]
  simp only [Attempt.run_adapt_eq_ok]
  constructor
  · rintro ⟨e, b', hparse, h⟩
    cases h
    exact ⟨hparse, rfl⟩
  · rintro ⟨hparse, rfl⟩
    exact ⟨c.expr, b, hparse, rfl⟩

/-- Constraints are the entries that they were read from. -/
theorem gives_readEntries (sections : List FileSection) (kind : SectionKind) :
    Attempt.Gives (fun cs => cs.map (·.span) = entries sections kind) (readEntries (α := α) sections kind) := by
  refine (Attempt.Gives.mapM (R := fun entry c => c.span = entry) fun entry _ a c h => ?_).weaken fun cs h => ?_
  · exact (readEntry_eq_ok.1 (Prod.ext h rfl)).2
  · have hspans : cs.map (·.span) = (entries sections kind).map id :=
      (map_eq_of_forall₂ h fun entry _ c _ hc => hc.symm).symm
    rw [hspans, List.map_id]

/-- The equation of an entry keeps its place. -/
theorem span_of_equation {c : Constraint} {q : Equation} (h : d.equation c = .ok q) : q.span = c.span := by
  unfold equation at h
  split at h
  · obtain ⟨state, -, h⟩ := Except.bind_eq_ok.1 h
    split at h
    · split at h <;> cases h
      rfl
    · cases h
  · cases h

theorem onlyReward_eq_ok {cs : List Constraint} {c : Constraint} : onlyReward cs = .ok c ↔ cs = [c] := by
  unfold onlyReward
  split <;> simp

/-! ## Reading elsewhere -/

/-- The constants have the same name, and the value of the second one is what the text of the first one
reads back as. -/
structure Restored (c c' : Constant α) : Prop where
  name : c'.name.text = c.name.text
  value : Scalar.Restores c.value c'.value
  same : Scalar.Same c.value c'.value

theorem Restored.text {c c' : Constant α} (h : Restored c c') :
    Declaration.constantText c' = Declaration.constantText c := by
  rw [Declaration.constantText, Declaration.constantText, h.name, h.value.text]

theorem forall₂_of_map_eq {ι ι' κ : Type} {f : ι → κ} {g : ι' → κ} {l : List ι} {l' : List ι'}
    (h : l'.map g = l.map f) : List.Forall₂ (fun i i' => g i' = f i) l l' := by
  induction l generalizing l' with
  | nil =>
    rw [List.map_eq_nil_iff.1 h]
    exact .nil
  | cons i l ih =>
    obtain ⟨i', l', rfl, hi, hrest⟩ := List.map_eq_cons_iff.1 h
    exact .cons hi (ih hrest)

omit [Scalar α] in
/-- A text that defines the constants of the run gets no other ones. -/
theorem withDefaults_elsewhere {constants constants' : List (Constant α)}
    (h : constants'.map (·.name.text) = (withDefaults settings constants).map (·.name.text)) :
    withDefaults settings constants' = constants' := by
  -- the name of a constant of the run stands in the text or is added to it
  have hdefined (c : Constant α)
      (hc : c ∈ [⟨⟨bigMName, none⟩, settings.bigM⟩, ⟨⟨epsilonName, none⟩, settings.epsilon⟩]) :
      constants'.any (·.name.text = c.name.text) := by
    have hname : c.name.text ∈ constants'.map (·.name.text) := by
      rw [h, withDefaults, List.map_append, List.mem_append]
      by_cases hany : constants.any (·.name.text = c.name.text)
      · obtain ⟨c', hc', hsame⟩ := List.any_eq_true.1 hany
        exact .inl (List.mem_map.2 ⟨c', hc', of_decide_eq_true hsame⟩)
      · exact .inr (List.mem_map_of_mem (List.mem_filter.2 ⟨hc, by simpa using hany⟩))
    obtain ⟨c', hc', hsame⟩ := List.mem_map.1 hname
    exact List.any_eq_true.2 ⟨c', hc', decide_eq_true hsame⟩
  unfold withDefaults
  dsimp only
  rw [List.filter_eq_nil_iff.2 fun c hc => by simp [hdefined c hc], List.append_nil]

/-- Lines with the texts of constants are read as these constants. -/
theorem mapM_readConstant (hnumbers : ∀ v : α, ∃ w, Scalar.Restores v w ∧ Scalar.Same v w)
    {constants : List (Constant α)} {lines : List Span} (hnames : ∀ c ∈ constants, isIdentifier c.name.text.toList)
    (hlines : lines.map Span.text = constants.map Declaration.constantText) :
    ∃ constants', lines.mapM (Declaration.readConstant settings) = .ok constants' ∧
      List.Forall₂ Restored constants constants' := by
  refine Except.exists_mapM ((List.forall₂_and_left _ _).2 ⟨hnames, forall₂_of_map_eq hlines⟩) ?_
  rintro c line ⟨hname, hline⟩
  obtain ⟨w, hw, hsame⟩ := hnumbers c.value
  obtain ⟨span, hread⟩ := Declaration.readConstant_text hline hname hw
  exact ⟨_, hread, rfl, hw, hsame⟩

/-- Lines with the texts of variables are read as these variables. -/
theorem mapM_readVariable {vars : List Variable} {lines : List Span}
    (hnames : ∀ v ∈ vars, isIdentifier v.name.text.toList)
    (hlines : lines.map Span.text = vars.map Variable.text) :
    ∃ vars', lines.mapM Declaration.readVariable = .ok vars' ∧
      vars'.map Variable.bare = vars.map Variable.bare := by
  have hread (v : Variable) (line : Span) (h : isIdentifier v.name.text.toList ∧ line.text = v.text) :
      ∃ v', Declaration.readVariable line = .ok v' ∧ v.bare = v'.bare := by
    obtain ⟨span, hspan⟩ := Declaration.readVariable_text h.2 h.1
    exact ⟨_, hspan, rfl⟩
  obtain ⟨vars', hvars', hbare⟩ :=
    Except.exists_mapM ((List.forall₂_and_left _ _).2 ⟨hnames, forall₂_of_map_eq hlines⟩) hread
  exact ⟨vars', hvars', (map_eq_of_forall₂ hbare fun _ _ _ _ hv => hv).symm⟩

/-- Entries with the same texts are read as the same constraints. -/
theorem follows_readEntries {sections' : List FileSection}
    (h : (entries sections' kind).map Span.text = (entries sections kind).map Span.text) :
    Attempt.Follows (α := α) (List.Forall₂ Constraint.Alike) (readEntries sections kind)
      (readEntries sections' kind) := by
  refine .mapM (forall₂_of_map_eq h) fun entry entry' htext a a' b c ha hrun => ?_
  obtain ⟨hparse, rfl⟩ := readEntry_eq_ok.1 hrun
  obtain ⟨e, b', hparse', hb, rfl⟩ :=
    Attempt.follows_parseRange (String.ofList_injective htext) a a' b _ ha hparse
  exact ⟨⟨c.expr, entry'⟩, b', readEntry_eq_ok.2 ⟨hparse', rfl⟩, hb, rfl, htext⟩

/-- Sections with the same entries, where constants and variables may be declared by other lines, are read
as the same parts. -/
theorem readParts_elsewhere (hnumbers : ∀ v : α, ∃ w, Scalar.Restores v w ∧ Scalar.Same v w)
    {sections' : List FileSection} {declared : FileSection} {qs : List Constraint}
    (hconstants : (entries sections' .constants).map Span.text = d.constants.map Declaration.constantText)
    (hdeclared : section? sections' .declarations = some declared)
    (hvars : declared.entries.map Span.text = d.vars.map Variable.text)
    (hother : section? sections' settings.mode.otherEquations = none)
    (hkinds : ∀ kind ∈ expressionKinds settings.mode,
      (entries sections' kind).map Span.text = (entries sections kind).map Span.text)
    (h : (readParts settings sections).run.run a = (.ok (d, qs), b)) :
    ∃ d' qs' b', (readParts settings sections').run.run a = (.ok (d', qs'), b') ∧ d.Alike d' ∧
      List.Forall₂ Constraint.Alike qs qs' ∧ List.Forall₂ Restored d.constants d'.constants := by
  obtain ⟨hidentifier, hidentifier'⟩ := isIdentifier_of_readParts h
  obtain ⟨constants', hread, hrestored⟩ := @mapM_readConstant α _ settings hnumbers _ _ hidentifier hconstants
  obtain ⟨vars', hread', hbare⟩ := mapM_readVariable hidentifier' hvars
  obtain ⟨constants, _, vars, initials, instantaneous, temporal, goals, rewards, reward, -, -, -, -, hrun, hreward,
    rfl⟩ := readParts_eq_ok_iff.1 h
  have hnames : constants'.map (·.name.text) = (withDefaults settings constants).map (·.name.text) :=
    (map_eq_of_forall₂ hrestored fun c _ c' _ hc => hc.name.symm).symm
  have hfollows := Attempt.Follows.mapM (R := fun kind kind' => kind' = kind ∧ kind ∈ expressionKinds settings.mode)
    (f := readEntries (α := α) sections) (g := readEntries sections') (List.forall₂_same.2 fun kind hkind => ⟨rfl, hkind⟩)
    (by
      rintro kind _ ⟨rfl, hkind⟩
      exact follows_readEntries (hkinds _ hkind))
  obtain ⟨css, b', hrun', hb, hcss⟩ := hfollows a a b _ rfl hrun
  obtain _ | ⟨hqs, _ | ⟨hinitials, _ | ⟨hinstantaneous, _ | ⟨htemporal, _ | ⟨hgoals, _ | ⟨hrewards, _ | _⟩⟩⟩⟩⟩⟩ := hcss
  rw [onlyReward_eq_ok] at hreward
  subst hreward
  obtain _ | ⟨hreward', _ | _⟩ := hrewards
  refine ⟨_, _, b', readParts_eq_ok_iff.2 ⟨constants', declared, vars', _, _, _, _, _, _, hread, hdeclared, hread',
    hother, hrun', onlyReward_eq_ok.2 rfl, rfl⟩, ?_, hqs, ?_⟩
  · exact {
      arena := hb
      constants := by rw [withDefaults_elsewhere hnames, hnames]
      vars := hbare
      dt := rfl
      mode := rfl
      equations := .nil
      initials := hinitials
      instantaneous := hinstantaneous
      temporal := htemporal
      goals := hgoals
      reward := hreward' }
  · rw [withDefaults_elsewhere hnames]
    exact hrestored

/-! ## Places of expressions -/

/-- Where the expressions of a domain were written, section by section. -/
def expressionSpans (d : Domain α) : List (List Span) :=
  [d.equations.map (·.span), d.initials.map (·.span), d.instantaneous.map (·.span), d.temporal.map (·.span),
    d.goals.map (·.span), [d.reward.span]]

theorem spans_of_validate {qs : List Constraint} {d' : Domain α} (h : d.validate qs = .ok d') :
    d'.equations.map (·.span) = qs.map (·.span) := by
  obtain ⟨-, equations, hequations, -, -, rfl⟩ := validate_eq_ok_iff.1 h
  exact (map_eq_of_forall₂ (Except.mapM_eq_ok.1 hequations) fun c _ q _ hq => (span_of_equation hq).symm).symm

/-- The expressions of a domain are the entries of the sections that it was read from. -/
theorem expressionSpans_of_read {qs : List Constraint} {d' : Domain α}
    (h : (readParts settings sections).run.run a = (.ok (d, qs), b)) (hvalid : d.validate qs = .ok d') :
    d'.expressionSpans = (expressionKinds settings.mode).map (entries sections) := by
  have hequations := spans_of_validate hvalid
  obtain ⟨-, equations, -, -, -, rfl⟩ := validate_eq_ok_iff.1 hvalid
  obtain ⟨constants, _, vars, initials, instantaneous, temporal, goals, rewards, reward, -, -, -, -, hrun, hreward,
    rfl⟩ := readParts_eq_ok_iff.1 h
  obtain rfl := onlyReward_eq_ok.1 hreward
  have hspans := (Attempt.Gives.mapM (l := expressionKinds settings.mode) fun kind _ =>
    gives_readEntries (α := α) sections kind) a _ (congrArg Prod.fst hrun)
  rw [map_eq_of_forall₂ hspans fun kind _ cs _ h => h.symm, expressionSpans, hequations]
  rfl

theorem isEntry_of_mem_entries (hclean : ∀ s ∈ sections, s.Clean) {e : Span} (he : e ∈ entries sections kind) :
    IsEntry e.text := by
  unfold entries at he
  cases hsection : section? sections kind with
  | none =>
    rw [hsection] at he
    cases he
  | some s =>
    rw [hsection] at he
    exact hclean s (List.mem_of_find?_eq_some hsection) e he

/-! ## Sections of the text -/

/-- What is written in the sections of a domain is read as an entry. -/
structure Printable (d : Domain α) : Prop where
  vars : d.vars ≠ []
  written : ∀ s ∈ d.written, ∀ e ∈ s.2, IsEntry e
  reward : IsEntry d.reward.span.text

/-- All sections of the file of a domain. -/
def contents (d : Domain α) : List (SectionKind × List String) :=
  d.written ++ [(.reward, [d.reward.span.text])]

/-- The kinds of the sections that are written. -/
def contentsKinds (mode : TransitionMode) : List SectionKind :=
  [.constants, .declarations, mode.equations, .initials, .instantaneous, .temporal, .goals, .reward]

theorem kinds_contents (d : Domain α) : d.contents.map (·.1) = contentsKinds d.mode := rfl

theorem nodup_contentsKinds (mode : TransitionMode) : (contentsKinds mode).Nodup := by
  cases mode <;> decide

/-- The text of a domain falls into its sections. -/
theorem Printable.split_text (h : d.Printable) (file : Option String) :
    ∃ ss, FileSection.split ⟨d.text, file⟩ = .ok ss ∧ ss.map FileSection.contents = d.contents := by
  have hkinds : (d.written.map (·.1) ++ [SectionKind.reward]).Nodup := nodup_contentsKinds d.mode
  exact FileSection.split_of_text (toList_text h.vars) h.written h.reward hkinds

theorem printable_of_read (hnumbers : ∀ v : α, ∃ w, Scalar.Restores v w) {source : Source}
    (h : read source settings = .ok d) : d.Printable := by
  have hnamed := named_of_read h
  obtain ⟨sections, d₀, qs, b, hsplit, hparts, hvalid⟩ := read_eq_ok_iff.1 h
  have hspans := expressionSpans_of_read hparts hvalid
  have hentry (spans : List Span) (hmem : spans ∈ d.expressionSpans) : ∀ e ∈ spans.map Span.text, IsEntry e := by
    rw [hspans] at hmem
    obtain ⟨kind, -, rfl⟩ := List.mem_map.1 hmem
    exact List.forall_mem_map.2 fun e he => isEntry_of_mem_entries (FileSection.clean_of_split hsplit) he
  obtain ⟨-, equations, -, -, -, rfl⟩ := validate_eq_ok_iff.1 hvalid
  obtain ⟨hconstants, hvars⟩ := isIdentifier_of_readParts hparts
  refine ⟨?_, ?_, ?_⟩
  · obtain ⟨v, hv, -⟩ := hnamed.duration
    exact List.ne_nil_of_mem (mem_of_declared? hv)
  · simp only [written, List.forall_mem_cons]
    simp only [expressionSpans, List.forall_mem_cons, List.map_map] at hentry
    obtain ⟨hequations, hinitials, hinstantaneous, htemporal, hgoals, -⟩ := hentry
    refine ⟨List.forall_mem_map.2 fun c hc => ?_, List.forall_mem_map.2 fun v hv => ?_, hequations, hinitials,
      hinstantaneous, htemporal, hgoals, nofun⟩
    · obtain ⟨w, hw⟩ := hnumbers c.value
      exact Declaration.isEntry_constantText (hconstants c hc) hw
    · exact Declaration.isEntry_variableText (hvars v hv)
  · exact hentry [_] (by simp [expressionSpans]) _ (List.mem_singleton_self _)

theorem find?_contents (sections : List FileSection) (kind : SectionKind) :
    (sections.map FileSection.contents).find? (·.1 = kind) =
      (section? sections kind).map FileSection.contents := by
  rw [List.find?_map]
  rfl

theorem exists_section? {bs : List (SectionKind × List String)} (h : sections.map FileSection.contents = bs)
    {texts : List String} (hfind : bs.find? (·.1 = kind) = some (kind, texts)) :
    ∃ s, section? sections kind = some s ∧ s.entries.map Span.text = texts := by
  subst h
  rw [find?_contents] at hfind
  obtain ⟨s, hs, hcontents⟩ := Option.map_eq_some_iff.1 hfind
  exact ⟨s, hs, congrArg Prod.snd hcontents⟩

theorem map_text_entries {bs : List (SectionKind × List String)} (h : sections.map FileSection.contents = bs)
    (kind : SectionKind) :
    (entries sections kind).map Span.text = ((bs.find? (·.1 = kind)).map (·.2)).getD [] := by
  subst h
  rw [find?_contents, entries]
  cases section? sections kind <;> rfl

theorem section?_eq_none {bs : List (SectionKind × List String)} (h : sections.map FileSection.contents = bs)
    (hkind : kind ∉ bs.map (·.1)) : section? sections kind = none := by
  subst h
  rw [List.map_map] at hkind
  rw [section?, List.find?_eq_none]
  intro s hs hsame
  exact hkind (List.mem_map.2 ⟨s, hs, of_decide_eq_true hsame⟩)

/-- The expressions of a domain stand in the sections of its file. -/
theorem map_text_expressionSpans (h : sections.map FileSection.contents = d.contents) :
    (expressionKinds d.mode).map (fun kind => (entries sections kind).map Span.text) =
      d.expressionSpans.map (List.map Span.text) := by
  rw [List.map_congr_left fun kind _ => map_text_entries h kind]
  unfold contents written expressionSpans
  cases d.mode <;> simp [expressionKinds, TransitionMode.equations]

/-! ## Domains -/

theorem mode_of_read {source : Source} (h : read source settings = .ok d) : d.mode = settings.mode := by
  obtain ⟨sections, d₀, qs, b, -, hparts, hvalid⟩ := read_eq_ok_iff.1 h
  obtain ⟨-, equations, -, -, -, rfl⟩ := validate_eq_ok_iff.1 hvalid
  obtain ⟨constants, _, vars, initials, instantaneous, temporal, goals, rewards, reward, -, -, -, -, -, -, rfl⟩ :=
    readParts_eq_ok_iff.1 hparts
  rfl

/-- The text of a domain that was read is read, as a domain that differs in places only. -/
theorem exists_read_text (hnumbers : ∀ v : α, ∃ w, Scalar.Restores v w ∧ Scalar.Same v w) {source : Source}
    (h : read source settings = .ok d) (file : Option String) :
    ∃ d', read ⟨d.text, file⟩ settings = .ok d' ∧ d.Alike d' ∧ List.Forall₂ Restored d.constants d'.constants := by
  have hprintable := printable_of_read (fun v => (hnumbers v).imp fun w hw => hw.1) h
  obtain ⟨sections', hsplit', hcontents⟩ := hprintable.split_text file
  obtain ⟨sections, d₀, qs, b, -, hparts, hvalid⟩ := read_eq_ok_iff.1 h
  have hspans := expressionSpans_of_read hparts hvalid
  have hmode : d.mode = settings.mode := mode_of_read h
  -- the file has the same entries
  have hkinds : ∀ kind ∈ expressionKinds settings.mode,
      (entries sections' kind).map Span.text = (entries sections kind).map Span.text := by
    have htexts := map_text_expressionSpans hcontents
    rw [hspans, hmode, List.map_map] at htexts
    exact List.map_inj_left.1 htexts
  have hother : section? sections' settings.mode.otherEquations = none := by
    refine section?_eq_none hcontents ?_
    rw [kinds_contents, hmode]
    cases settings.mode <;> decide
  obtain ⟨declared, hdeclared, hvars⟩ : ∃ declared, section? sections' .declarations = some declared ∧
      declared.entries.map Span.text = d.vars.map Variable.text :=
    exists_section? hcontents rfl
  have hconstants : (entries sections' .constants).map Span.text = d.constants.map Declaration.constantText :=
    map_text_entries hcontents .constants
  obtain ⟨-, equations, -, -, -, rfl⟩ := validate_eq_ok_iff.1 hvalid
  -- and is read as the same parts
  obtain ⟨d', qs', b', hparts', halike, hqs, hrestored⟩ :=
    readParts_elsewhere (d := d₀) hnumbers hconstants hdeclared hvars hother hkinds hparts
  obtain ⟨equations', hvalid', halike'⟩ := halike.validate hqs hvalid
  exact ⟨_, read_eq_ok_iff.2 ⟨sections', d', qs', b', hsplit', hparts', hvalid'⟩, halike', hrestored⟩

/-- The trees of constraints, and how they were written. -/
def expressions (d : Domain α) (cs : List Constraint) : List (Expr α × String) :=
  cs.map fun c => (d.arena.tree c.expr, c.span.text)

/-- The domains are the same, but for the places where their parts were written. -/
structure SameAs (d d' : Domain α) : Prop where
  constants : List.Forall₂ (fun c c' : Constant α => c'.name.text = c.name.text ∧ Scalar.Same c.value c'.value)
    d.constants d'.constants
  vars : d'.vars.map Variable.bare = d.vars.map Variable.bare
  dt : d'.dt = d.dt
  mode : d'.mode = d.mode
  equations : d'.equations.map (fun q => (q.state.text, d'.arena.tree q.rhs, q.span.text)) =
    d.equations.map (fun q => (q.state.text, d.arena.tree q.rhs, q.span.text))
  initials : d'.expressions d'.initials = d.expressions d.initials
  instantaneous : d'.expressions d'.instantaneous = d.expressions d.instantaneous
  temporal : d'.expressions d'.temporal = d.expressions d.temporal
  goals : d'.expressions d'.goals = d.expressions d.goals
  reward : d'.expressions [d'.reward] = d.expressions [d.reward]

section

variable {d' : Domain α} (h : d.Alike d')
include h

theorem Alike.expressions_eq {cs cs' : List Constraint} (hcs : List.Forall₂ Constraint.Alike cs cs') :
    d'.expressions cs' = d.expressions cs :=
  (map_eq_of_forall₂ hcs fun c _ c' _ hc => by rw [hc.expr, hc.text, h.arena.tree_eq]).symm

theorem Alike.sameAs (hconstants : List.Forall₂ Restored d.constants d'.constants) : d.SameAs d' where
  constants := hconstants.imp fun _ _ hc => ⟨hc.name, hc.same⟩
  vars := h.vars
  dt := h.dt
  mode := h.mode
  equations := (map_eq_of_forall₂ h.equations fun q _ q' _ hq => by
    rw [hq.state, hq.rhs, hq.text, h.arena.tree_eq]).symm
  initials := h.expressions_eq h.initials
  instantaneous := h.expressions_eq h.instantaneous
  temporal := h.expressions_eq h.temporal
  goals := h.expressions_eq h.goals
  reward := h.expressions_eq (.cons h.reward .nil)

/-- The domains are written in the same way. -/
theorem Alike.text_eq (hconstants : List.Forall₂ Restored d.constants d'.constants) (hvars : d.vars ≠ []) :
    d'.text = d.text := by
  have hvars' : d'.vars ≠ [] := by
    rwa [Ne, ← List.map_eq_nil_iff (f := Variable.bare), h.vars, List.map_eq_nil_iff]
  have hspans {cs cs' : List Constraint} (hcs : List.Forall₂ Constraint.Alike cs cs') :
      cs'.map (·.span.text) = cs.map (·.span.text) :=
    (map_eq_of_forall₂ hcs fun c _ c' _ hc => hc.text.symm).symm
  have hwritten : d'.written = d.written := by
    have hconstants' : d'.constants.map Declaration.constantText = d.constants.map Declaration.constantText :=
      (map_eq_of_forall₂ hconstants fun c _ c' _ hc => hc.text.symm).symm
    have hlines : d'.vars.map Variable.text = d.vars.map Variable.text := by
      have hbare (vs : List Variable) : vs.map Variable.text = (vs.map Variable.bare).map Variable.text := by
        rw [List.map_map]
        rfl
      rw [hbare, h.vars, ← hbare]
    have hequations : d'.equations.map (·.span.text) = d.equations.map (·.span.text) :=
      (map_eq_of_forall₂ h.equations fun q _ q' _ hq => hq.text.symm).symm
    rw [written, written, h.mode, hconstants', hlines, hequations, hspans h.initials, hspans h.instantaneous,
      hspans h.temporal, hspans h.goals]
  rw [← String.toList_inj, toList_text hvars', toList_text hvars, hwritten, h.reward.text]

end

end

/-- A printed domain reads back as itself: whatever text was read, the text of its domain is accepted with the
same settings. The domain that it describes has the same constants, variables, equations, constraints
and reward, and is written as the same text. -/
theorem read_printed {source : Source} {settings : ReadSettings Binary64} {d : Domain Binary64}
    (h : read source settings = .ok d) (file : Option String) :
    ∃ d', read ⟨d.text, file⟩ settings = .ok d' ∧ d.SameAs d' ∧ d'.text = d.text := by
  obtain ⟨d', hread, halike, hconstants⟩ := exists_read_text Binary64.exists_restores h file
  have hprintable := printable_of_read (fun v => (Binary64.exists_restores v).imp fun w hw => hw.1) h
  exact ⟨d', hread, halike.sameAs hconstants, halike.text_eq hconstants hprintable.vars⟩

/-! ### A text that is not written as it was read -/

namespace Loose

/-- A text with a placeholder, a comment and a type in capitals. -/
def source : Source where
  text := "constants:\nstep = config_epsilon\n---\n# time\npvariables:\n  Action_Continuous : Dt\n---\nreward:\nDt"

def settings : ReadSettings Binary64 := ⟨Scalar.one, Scalar.one, Scalar.one, "Dt", .odes⟩

/-- The entry for what is earned. -/
def earning : Span := ⟨source, 93, 95⟩

def sections : List FileSection :=
  [⟨.constants, ⟨source, 0, 10⟩, [⟨source, 11, 32⟩]⟩,
   ⟨.declarations, ⟨source, 44, 55⟩, [⟨source, 58, 80⟩]⟩,
   ⟨.reward, ⟨source, 85, 92⟩, [earning]⟩]

def constants : List (Constant Binary64) := [⟨⟨"step", some ⟨source, 11, 15⟩⟩, Scalar.one⟩]

def duration : Variable := ⟨⟨"Dt", some ⟨source, 78, 80⟩⟩, .continuous, .action, false⟩

def domain (a : Arena Binary64) (r : Constraint) : Domain Binary64 where
  arena := a
  constants := withDefaults settings constants
  vars := [duration]
  dt := "Dt"
  mode := .odes
  equations := []
  initials := []
  instantaneous := []
  temporal := []
  goals := []
  reward := r

theorem scan_earning : Lexeme.scan earning.start
    (Text.slice earning.source.text.toList earning.start earning.stop) = .ok [⟨.ident "Dt", 93, 95⟩] := by
  have hslice : Text.slice earning.source.text.toList earning.start earning.stop = "Dt".toList := rfl
  have hscan : Lexeme.Scans 93 "Dt".toList [] _ := .word rfl Token.delimits_nil
  rw [hslice]
  exact hscan.scan_eq

theorem exists_readParts : ∃ a r, (readParts settings sections).run.run {} = (.ok (domain a r, []), a) ∧
    a.table.items[r.expr]? = some (.sym "Dt") := by
  obtain ⟨r, a, hrun, -, -, hr⟩ := leads_readEntry (P := fun b e => b.table.items[e]? = some (.sym "Dt"))
    scan_earning (.of_build (parseTokens_symbol _ _ _ _) (leads_sym (α := Binary64) Arena.wellFormed_empty _))
  have hmissing (kind : SectionKind) (h : entries sections kind = []) (a : Arena Binary64) :
      (readEntries sections kind).run.run a = (.ok [], a) := by
    rw [readEntries, h]
    rfl
  have hreward : (readEntries sections .reward).run.run {} = (.ok [r], a) :=
    Attempt.run_mapM_cons_eq_ok.2 ⟨r, [], a, hrun, rfl, rfl⟩
  refine ⟨a, r, readParts_eq_ok_iff.2 ⟨constants, ⟨.declarations, ⟨source, 44, 55⟩, [⟨source, 58, 80⟩]⟩, [duration],
    [], [], [], [], [r], r, ?_, rfl, ?_, rfl, ?_, rfl, rfl⟩, hr⟩
  · rfl
  · rfl
  · simp only [expressionKinds, Attempt.run_mapM_cons_eq_ok]
    exact ⟨_, _, _, hmissing _ rfl _, ⟨_, _, _, hmissing _ rfl _, ⟨_, _, _, hmissing _ rfl _,
      ⟨_, _, _, hmissing _ rfl _, ⟨_, _, _, hmissing _ rfl _, ⟨_, _, _, hreward, rfl, rfl⟩, rfl⟩, rfl⟩, rfl⟩, rfl⟩,
      rfl⟩

theorem validate_domain {a : Arena Binary64} {r : Constraint} (hr : a.table.items[r.expr]? = some (.sym "Dt")) :
    (domain a r).validate [] = .ok (domain a r) := by
  have hdeclarations : (domain a r).checkDeclarations = .ok () := by
    refine Except.bind_eq_ok.2 ⟨(), ?_, rfl⟩
    change checkNames [] [⟨"step", _⟩, ⟨"bigM", none⟩, ⟨"Epsilon", none⟩, ⟨"Dt", _⟩] = _
    have hstep : isReserved "step" = false := by decide
    have hbigM : isReserved "bigM" = false := by decide
    have hepsilon : isReserved "Epsilon" = false := by decide
    have hduration : isReserved "Dt" = false := by decide
    simp [checkNames, hstep, hbigM, hepsilon, hduration]
  have huses : a.Uses (.formulas Binary64 (· = "Dt")) r.expr := .node hr rfl (by simp [Node.operands])
  have hplain : a.MadeOf (fun n => isBoolean n = false) r.expr := .node hr rfl (by simp [Node.operands])
  have hreward : (domain a r).checkFormula .constraint r.expr r.span = .ok () := by
    refine Except.bind_eq_ok.2 ⟨(), checkSymbols_eq_ok huses ?_, checkArithmetic_eq_ok hplain⟩
    rintro s rfl
    rfl
  refine validate_eq_ok_iff.2 ⟨hdeclarations, [], rfl, rfl, ?_, rfl⟩
  exact Except.bind_eq_ok.2 ⟨(), rfl, Except.bind_eq_ok.2 ⟨(), rfl, Except.bind_eq_ok.2 ⟨(), rfl, hreward⟩⟩⟩

theorem exists_domain : ∃ d, read source settings = .ok d := by
  obtain ⟨a, r, hparts, hr⟩ := exists_readParts
  have hsplit : FileSection.split source = .ok sections := rfl
  exact ⟨domain a r, read_eq_ok_iff.2 ⟨sections, domain a r, [], a, hsplit, hparts, validate_domain hr⟩⟩

end Loose

theorem read_printed_loose : ∃ d d', read Loose.source Loose.settings = .ok d ∧
    read ⟨d.text, none⟩ Loose.settings = .ok d' ∧ d.SameAs d' ∧ d'.text = d.text := by
  obtain ⟨d, hd⟩ := Loose.exists_domain
  obtain ⟨d', hread, hsame, htext⟩ := read_printed hd none
  exact ⟨d, d', hd, hread, hsame, htext⟩

end Domain

end HybridPlan
