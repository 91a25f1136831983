import HybridPlan.Domain.Sections
import HybridPlan.Proofs.Except
import HybridPlan.Proofs.Text.Lines

set_option autoImplicit false

/-! # Texts of sections

The entries of a section are trimmed lines that are no comments and no separators. A text that is written
as sections with such entries falls into these sections. -/

namespace HybridPlan

open Text

/-- A line that is read as an entry, if a section is open. -/
structure IsEntry (text : String) : Prop where
  trimmed : Trimmed text.toList
  line : '\n' ∉ text.toList
  ne_nil : text.toList ≠ []
  no_comment : text.toList.head? ≠ some '#'
  no_separator : text.toList ≠ sectionSeparator

/-- The line that opens a section. -/
def SectionKind.header (kind : SectionKind) : String := kind.name ++ ":"

namespace FileSection

variable {source : Source} {start : Nat}

/-- The kind of the section and the texts of its entries. -/
def contents (s : FileSection) : SectionKind × List String := (s.kind, s.entries.map Span.text)

/-- The lines of a section. -/
def lines (b : SectionKind × List String) : List String := b.1.header :: b.2

theorem trimmed_header (kind : SectionKind) : Trimmed kind.header.toList :=
  trimmed_of_all (by cases kind <;> rfl)

theorem lineFeed_not_mem_header (kind : SectionKind) : '\n' ∉ kind.header.toList := by
  cases kind <;> decide

/-! ## What a line does -/

/-- The line is neither blank nor a comment nor a separator. -/
def HasContent (l : List Char) : Prop :=
  trim l ≠ [] ∧ (trim l).head? ≠ some '#' ∧ trim l ≠ sectionSeparator

instance (l : List Char) : Decidable (HasContent l) := inferInstanceAs (Decidable (_ ∧ _ ∧ _))

/-- The range of a line without the white space around it. -/
def inner (source : Source) (x : Nat × List Char) : Span :=
  ⟨source, x.1 + (byteSize x.2 - byteSize (trimLeft x.2)),
    x.1 + (byteSize x.2 - byteSize (trimLeft x.2)) + byteSize (trim x.2)⟩

theorem text_inner {x : Nat × List Char} (h : StandsAt source.text.toList x.1 x.2) :
    (inner source x).text = String.ofList (trim x.2) :=
  congrArg String.ofList h.trim.slice

/-- A header opens a section that is empty, the first one of its kind. -/
theorem eq_of_opened {closed : List FileSection} {line : Span} {text : List Char} {s : FileSection}
    (h : opened closed line text = .ok s) : s.header = line ∧ s.entries = [] ∧ (∀ t ∈ closed, t.kind ≠ s.kind) ∧
      ∃ name, text = name ++ [':'] ∧ SectionKind.ofName? (String.ofList (trim name)) = some s.kind := by
  unfold opened at h
  split at h
  · cases h
  · next name hname =>
    split at h
    · cases h
    · next kind hkind =>
      split at h
      · cases h
      · next hnew =>
        cases h
        exact ⟨rfl, rfl, by simpa using hnew, name, beforeEnd?_eq_some_iff.1 hname, hkind⟩

/-- A line without content changes nothing, unless it is a separator; any other line is an entry of the open
section or opens one. -/
theorem step_cases {p p' : Progress} {x : Nat × List Char} (h : p.step source x = .ok p') :
    (¬HasContent x.2 ∧ trim x.2 ≠ sectionSeparator ∧ p' = p) ∨
    (¬HasContent x.2 ∧ trim x.2 = sectionSeparator ∧ p' = ⟨p.current.toList ++ p.closed, none⟩) ∨
    (HasContent x.2 ∧ ∃ s, p.current = some s ∧
      p' = ⟨p.closed, some { s with entries := s.entries ++ [inner source x] }⟩) ∨
    (HasContent x.2 ∧ p.current = none ∧ ∃ s, opened p.closed (inner source x) (trim x.2) = .ok s ∧
      p' = ⟨p.closed, some s⟩) := by
  obtain ⟨start, l⟩ := x
  unfold Progress.step at h
  dsimp only at h ⊢
  split at h
  · next hskip =>
    have hskip : trim l = [] ∨ (trim l).head? = some '#' := by simpa using hskip
    cases h
    refine .inl ⟨fun hcontent => hskip.elim hcontent.1 hcontent.2.1, fun hseparator => ?_, rfl⟩
    rw [hseparator] at hskip
    exact hskip.elim (fun h => (by cases h)) (by decide)
  · next hskip =>
    obtain ⟨hne, hcomment⟩ := not_or.1 (by simpa using hskip)
    split at h
    · next hseparator =>
      cases h
      exact .inr (.inl ⟨fun hcontent => hcontent.2.2 hseparator, hseparator, rfl⟩)
    · next hseparator =>
      have hcontent : HasContent l := ⟨hne, hcomment, hseparator⟩
      split at h
      · next s hs =>
        cases h
        exact .inr (.inr (.inl ⟨hcontent, s, hs, rfl⟩))
      · next hnone =>
        obtain ⟨s, hs, h⟩ := Except.bind_eq_ok.1 h
        cases h
        exact .inr (.inr (.inr ⟨hcontent, hnone, s, hs, rfl⟩))

/-! ## Entries of a text -/

theorem isEntry_trim {l : List Char} (hline : '\n' ∉ l) (h : HasContent l) :
    IsEntry (String.ofList (trim l)) := by
  obtain ⟨hne, hcomment, hseparator⟩ := h
  obtain ⟨before, after, hl, -⟩ := exists_trim l
  have hpart : '\n' ∉ trim l := fun h => hline <| by
    rw [hl]
    exact List.mem_append_left _ (List.mem_append_right _ h)
  constructor <;> rw [String.toList_ofList]
  · exact trimmed_trim l
  · exact hpart
  · exact hne
  · exact hcomment
  · exact hseparator

/-- The section has no entries but trimmed lines. -/
def Clean (s : FileSection) : Prop := ∀ e ∈ s.entries, IsEntry e.text

/-- A step keeps to this. -/
theorem clean_step {p p' : Progress} {x : Nat × List Char} (hp : ∀ s ∈ p.current.toList ++ p.closed, s.Clean)
    (hplace : StandsAt source.text.toList x.1 x.2) (hline : '\n' ∉ x.2) (h : p.step source x = .ok p') :
    ∀ s ∈ p'.current.toList ++ p'.closed, s.Clean := by
  rcases step_cases h with ⟨-, -, rfl⟩ | ⟨-, -, rfl⟩ | ⟨hcontent, s, hs, rfl⟩ | ⟨-, hnone, s, hs, rfl⟩
  · exact hp
  · exact hp
  · rw [hs] at hp
    obtain ⟨hs, hclosed⟩ := List.forall_mem_cons.1 hp
    refine List.forall_mem_cons.2 ⟨List.forall_mem_append.2 ⟨hs, ?_⟩, hclosed⟩
    rw [List.forall_mem_singleton, text_inner hplace]
    exact isEntry_trim hline hcontent
  · rw [hnone] at hp
    refine List.forall_mem_cons.2 ⟨fun e he => ?_, hp⟩
    rw [(eq_of_opened hs).2.1] at he
    cases he

/-- All entries of a text are trimmed lines. -/
theorem clean_of_split {sections : List FileSection} (h : split source = .ok sections) :
    ∀ s ∈ sections, s.Clean := by
  obtain ⟨p, hp, h⟩ := Except.bind_eq_ok.1 h
  cases h
  have hclean : ∀ s ∈ p.current.toList ++ p.closed, s.Clean :=
    Except.foldlM_invariant (P := fun p : Progress => ∀ s ∈ p.current.toList ++ p.closed, s.Clean) hp
      (by simp) fun p x hx p' hp h =>
        clean_step hp (standsAt_of_mem_placedLines hx) (lineFeed_not_mem hx) h
  intro s hs
  exact hclean s (List.mem_reverse.1 hs)

/-! ## Sections of a text -/

section

variable {closed : List FileSection} {s : FileSection} {placed : List (Nat × List Char)}

/-- A line that is an entry belongs to the section that is open. -/
theorem step_entry {e : String} (he : IsEntry e) (hplace : StandsAt source.text.toList start e.toList) :
    ∃ span : Span, span.text = e ∧ Progress.step source ⟨closed, some s⟩ (start, e.toList) =
      .ok ⟨closed, some { s with entries := s.entries ++ [span] }⟩ := by
  have htrim := he.trimmed.trim_eq
  refine ⟨inner source (start, e.toList), (text_inner hplace).trans (by rw [htrim, String.ofList_toList]), ?_⟩
  unfold Progress.step inner
  dsimp only
  rw [htrim, if_neg, if_neg he.no_separator]
  · rfl
  · simpa only [Bool.or_eq_true, List.isEmpty_iff, decide_eq_true_eq, not_or] using
      ⟨he.ne_nil, he.no_comment⟩

theorem opened_header {kind : SectionKind} (hkind : ∀ s ∈ closed, s.kind ≠ kind) (line : Span) :
    opened closed line kind.header.toList = .ok ⟨kind, line, []⟩ := by
  have hname : Text.beforeEnd? [':'] kind.header.toList = some kind.name.toList :=
    beforeEnd?_eq_some_iff.2 String.toList_append
  have hkind' : SectionKind.ofName? (String.ofList (trim kind.name.toList)) = some kind := by
    cases kind <;> rfl
  have hnew : closed.reverse.find? (·.kind = kind) = none := by
    simpa using hkind
  unfold opened
  rw [hname]
  dsimp only
  rw [hkind']
  dsimp only
  rw [hnew]

/-- The name of a kind that was not met before opens a section. -/
theorem step_header {kind : SectionKind} (hkind : ∀ s ∈ closed, s.kind ≠ kind) (start : Nat) :
    ∃ span : Span, Progress.step source ⟨closed, none⟩ (start, kind.header.toList) =
      .ok ⟨closed, some ⟨kind, span, []⟩⟩ := by
  have htrim := (trimmed_header kind).trim_eq
  refine ⟨⟨source, start + (byteSize kind.header.toList - byteSize (trimLeft kind.header.toList)),
    start + (byteSize kind.header.toList - byteSize (trimLeft kind.header.toList)) +
      byteSize kind.header.toList⟩, ?_⟩
  unfold Progress.step
  dsimp only
  rw [htrim, if_neg, if_neg, opened_header hkind]
  · rfl
  · cases kind <;> decide
  · cases kind <;> decide

theorem step_separator (start : Nat) : Progress.step source ⟨closed, some s⟩ (start, sectionSeparator) =
    .ok ⟨s :: closed, none⟩ := rfl

/-- Lines that are entries belong to the section that is open. -/
theorem foldlM_entries {es : List String} (hes : ∀ e ∈ es, IsEntry e)
    (hplaced : ∀ x ∈ placed, StandsAt source.text.toList x.1 x.2)
    (hlines : placed.map Prod.snd = es.map String.toList) :
    ∃ spans : List Span, spans.map Span.text = es ∧
      placed.foldlM (Progress.step source) ⟨closed, some s⟩ =
        .ok ⟨closed, some { s with entries := s.entries ++ spans }⟩ := by
  induction es generalizing placed s with
  | nil =>
    obtain rfl := List.map_eq_nil_iff.1 hlines
    exact ⟨[], rfl, by rw [List.append_nil]; rfl⟩
  | cons e es ih =>
    obtain ⟨⟨start, l⟩, placed, rfl, rfl, hrest⟩ := List.map_eq_cons_iff.1 hlines
    obtain ⟨hplace, hplaced⟩ := List.forall_mem_cons.1 hplaced
    obtain ⟨he, hes⟩ := List.forall_mem_cons.1 hes
    obtain ⟨span, hspan, hstep⟩ := @step_entry source start closed s e he hplace
    obtain ⟨spans, hspans, hrun⟩ :=
      @ih { s with entries := s.entries ++ [span] } placed hes hplaced hrest
    refine ⟨span :: spans, by rw [List.map_cons, hspan, hspans], ?_⟩
    rw [List.foldlM_cons, ← List.singleton_append, ← List.append_assoc]
    exact Except.bind_eq_ok.2 ⟨_, hstep, hrun⟩

/-- The lines of a section, of which there was none before, are read as the section. -/
theorem foldlM_section {b : SectionKind × List String} (hb : ∀ e ∈ b.2, IsEntry e)
    (hkind : ∀ s ∈ closed, s.kind ≠ b.1) (hplaced : ∀ x ∈ placed, StandsAt source.text.toList x.1 x.2)
    (hlines : placed.map Prod.snd = (lines b).map String.toList) :
    ∃ s : FileSection, s.contents = b ∧
      placed.foldlM (Progress.step source) ⟨closed, none⟩ = .ok ⟨closed, some s⟩ := by
  obtain ⟨⟨start, l⟩, placed, rfl, rfl, hrest⟩ := List.map_eq_cons_iff.1 hlines
  obtain ⟨span, hstep⟩ := @step_header source closed b.1 hkind start
  obtain ⟨spans, hspans, hrun⟩ := @foldlM_entries source closed ⟨b.1, span, []⟩ placed b.2 hb
    (List.forall_mem_cons.1 hplaced).2 hrest
  refine ⟨⟨b.1, span, spans⟩, by rw [contents, hspans], ?_⟩
  rw [List.foldlM_cons]
  exact Except.bind_eq_ok.2 ⟨_, hstep, hrun⟩

/-- Sections with separators behind them are read as these sections. -/
theorem foldlM_sections {bs : List (SectionKind × List String)} (hbs : ∀ b ∈ bs, ∀ e ∈ b.2, IsEntry e)
    (hkinds : (closed.map (·.kind) ++ bs.map Prod.fst).Nodup)
    (hplaced : ∀ x ∈ placed, StandsAt source.text.toList x.1 x.2)
    (hlines : placed.map Prod.snd =
      bs.flatMap fun b => (lines b).map String.toList ++ [sectionSeparator]) :
    ∃ ss : List FileSection, ss.map contents = bs ∧
      placed.foldlM (Progress.step source) ⟨closed, none⟩ = .ok ⟨ss.reverse ++ closed, none⟩ := by
  induction bs generalizing placed closed with
  | nil =>
    obtain rfl := List.map_eq_nil_iff.1 hlines
    exact ⟨[], rfl, rfl⟩
  | cons b bs ih =>
    rw [List.flatMap_cons, List.append_assoc] at hlines
    obtain ⟨own, rest, rfl, hown, hlines⟩ := List.map_eq_append_iff.1 hlines
    obtain ⟨⟨start, l⟩, rest, rfl, rfl, hrest⟩ := List.map_eq_cons_iff.1 hlines
    obtain ⟨hb, hbs⟩ := List.forall_mem_cons.1 hbs
    obtain ⟨hplaced, hplaced'⟩ := List.forall_mem_append.1 hplaced
    have hnew : ∀ s ∈ closed, s.kind ≠ b.1 := fun s hs =>
      (List.nodup_append.1 hkinds).2.2 _ (List.mem_map_of_mem hs) _ List.mem_cons_self
    obtain ⟨s, hs, hrun⟩ := foldlM_section hb hnew hplaced hown
    have hkinds' : ((s :: closed).map (·.kind) ++ bs.map Prod.fst).Nodup := by
      have hkind : s.kind = b.1 := congrArg Prod.fst hs
      rw [List.map_cons, hkind, List.cons_append]
      exact (List.perm_middle.nodup_iff).1 hkinds
    obtain ⟨ss, hss, hrun'⟩ := ih hbs hkinds' (List.forall_mem_cons.1 hplaced').2 hrest
    refine ⟨s :: ss, by rw [List.map_cons, hs, hss], ?_⟩
    rw [List.foldlM_append, List.reverse_cons, List.append_assoc]
    refine Except.bind_eq_ok.2 ⟨_, hrun, ?_⟩
    rw [List.foldlM_cons]
    exact Except.bind_eq_ok.2 ⟨_, step_separator start, hrun'⟩

end

/-- The lines of a text of sections, but for its last line. -/
def frontLines (bs : List (SectionKind × List String)) (kind : SectionKind) : List (List Char) :=
  (bs.flatMap fun b => (lines b).map String.toList ++ [sectionSeparator]) ++ [kind.header.toList]

/-- A text that is written as sections, the last one with one entry, falls into these sections. -/
theorem split_of_text {bs : List (SectionKind × List String)} {kind : SectionKind} {e : String}
    (htext : source.text.toList = (frontLines bs kind).flatMap (· ++ ['\n']) ++ e.toList)
    (hbs : ∀ b ∈ bs, ∀ e ∈ b.2, IsEntry e) (he : IsEntry e) (hkinds : (bs.map Prod.fst ++ [kind]).Nodup) :
    ∃ ss, split source = .ok ss ∧ ss.map contents = bs ++ [(kind, [e])] := by
  have hclean : ∀ l ∈ frontLines bs kind, Trimmed l ∧ '\n' ∉ l := by
    intro l hl
    rcases List.mem_append.1 hl with hl | hl
    · obtain ⟨b, hb, hl⟩ := List.mem_flatMap.1 hl
      rcases List.mem_append.1 hl with hl | hl
      · rcases List.mem_cons.1 hl with rfl | hl
        · exact ⟨trimmed_header _, lineFeed_not_mem_header _⟩
        · obtain ⟨e, hmem, rfl⟩ := List.mem_map.1 hl
          exact ⟨(hbs b hb e hmem).trimmed, (hbs b hb e hmem).line⟩
      · rw [List.mem_singleton.1 hl]
        exact ⟨trimmed_of_all rfl, by decide⟩
    · rw [List.mem_singleton.1 hl]
      exact ⟨trimmed_header _, lineFeed_not_mem_header _⟩
  have hlines := placedLines_append hclean ⟨he.trimmed, he.line⟩ he.ne_nil
  rw [← htext, frontLines, List.append_assoc] at hlines
  have hplaced : ∀ x ∈ placedLines source.text.toList, StandsAt source.text.toList x.1 x.2 :=
    fun x hx => standsAt_of_mem_placedLines hx
  unfold split
  generalize placedLines source.text.toList = placed at hlines hplaced
  obtain ⟨front, back, rfl, hfront, hback⟩ := List.map_eq_append_iff.1 hlines
  obtain ⟨hplaced, hplaced'⟩ := List.forall_mem_append.1 hplaced
  obtain ⟨ss, hss, hrun⟩ := @foldlM_sections source [] front bs hbs (List.nodup_append.1 hkinds).1 hplaced hfront
  have hnew : ∀ s ∈ ss.reverse, s.kind ≠ kind := by
    intro s hs
    have hmem : s.kind ∈ bs.map Prod.fst := by
      rw [← hss, List.map_map]
      exact List.mem_map_of_mem (f := fun s : FileSection => s.kind) (List.mem_reverse.1 hs)
    exact (List.nodup_append.1 hkinds).2.2 _ hmem _ (List.mem_singleton_self kind)
  obtain ⟨s, hs, hrun'⟩ := @foldlM_section source ss.reverse back (kind, [e])
    (List.forall_mem_singleton.2 he) hnew hplaced' hback
  refine ⟨ss ++ [s], ?_, by rw [List.map_append, hss, List.map_singleton, hs]⟩
  rw [List.foldlM_append]
  refine Except.bind_eq_ok.2 ⟨⟨ss.reverse, some s⟩, ?_, by simp [Progress.finish]; rfl⟩
  refine Except.bind_eq_ok.2 ⟨_, hrun, ?_⟩
  rw [List.append_nil]
  exact hrun'

end FileSection

end HybridPlan
