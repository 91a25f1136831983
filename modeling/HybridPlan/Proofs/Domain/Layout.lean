import HybridPlan.Proofs.Domain.Sections
import HybridPlan.Proofs.Source.Range
import Mathlib.Data.List.Nodup

set_option autoImplicit false

/-! # What becomes of the lines of a file

When a text falls into sections, every line that is neither blank nor a comment nor a separator is, in the
order of the text, the header or an entry of a section; it is a header if it is the first such line behind a
separator or in the text. -/

namespace HybridPlan

open Text

theorem SectionKind.name_injective : Function.Injective SectionKind.name := fun k l h => by
  have hk := ofName?_name k
  rw [h, ofName?_name] at hk
  exact (Option.some.inj hk).symm

namespace FileSection

variable {source : Source}

/-- The header of a section and its entries. -/
def spans (s : FileSection) : List Span := s.header :: s.entries

/-- The last lines, as far as no separator is among them. -/
def sinceSeparator (ls : List (Nat × List Char)) : List (Nat × List Char) :=
  ls.rtakeWhile fun x => trim x.2 ≠ sectionSeparator

/-- No line since the last separator has content. -/
def Quiet (ls : List (Nat × List Char)) : Prop := ∀ x ∈ sinceSeparator ls, ¬HasContent x.2

/-- A line with content that opens a section. -/
def Opens (ls : List (Nat × List Char)) (x : Nat × List Char) : Prop :=
  HasContent x.2 ∧ ∃ before after, ls = before ++ x :: after ∧ Quiet before

/-- The sections hold the text of the source, line by line. -/
structure Layout (source : Source) (sections : List FileSection) : Prop where
  /-- No line with content is lost, none is met twice, and they keep their order. -/
  spans_eq : sections.flatMap spans =
    ((placedLines source.text.toList).filter fun x => HasContent x.2).map (inner source)
  /-- The ranges stand in the text one behind the other. -/
  ordered : (sections.flatMap spans).Pairwise fun s t => s.stop ≤ t.start
  /-- None of them is empty, so they differ. -/
  distinct : (sections.flatMap spans).Nodup
  /-- The range of a line slices the text to the trimmed line. -/
  text : ∀ x ∈ placedLines source.text.toList, (inner source x).text? = some (String.ofList (trim x.2))
  /-- The headers are the lines before which there was no content since the last separator. -/
  header_iff : ∀ before x after, placedLines source.text.toList = before ++ x :: after → HasContent x.2 →
    (inner source x ∈ sections.map (·.header) ↔ Quiet before)
  /-- A header is the name of a section and a colon. -/
  named : ∀ s ∈ sections, ∃ name, s.header.text = name ++ ":" ∧ String.ofList (trim name.toList) = s.kind.name
  known : ∀ s ∈ sections, s.kind.name ∈ SectionKind.all.map SectionKind.name
  names_nodup : (sections.map (·.kind.name)).Nodup

/-! ## Separators -/

section

variable {ls : List (Nat × List Char)} {x y : Nat × List Char}

theorem quiet_concat : Quiet (ls ++ [x]) ↔ trim x.2 = sectionSeparator ∨ Quiet ls ∧ ¬HasContent x.2 := by
  unfold Quiet sinceSeparator
  by_cases hx : trim x.2 = sectionSeparator
  · rw [List.rtakeWhile_concat_neg _ _ _ (by simpa using hx)]
    simp [hx]
  · rw [List.rtakeWhile_concat_pos _ _ _ (by simpa using hx), List.forall_mem_append, List.forall_mem_singleton,
      or_iff_right hx]

theorem opens_concat : Opens (ls ++ [x]) y ↔ Opens ls y ∨ y = x ∧ HasContent x.2 ∧ Quiet ls := by
  constructor
  · rintro ⟨hcontent, before, after, hls, hquiet⟩
    rcases List.eq_nil_or_concat after with rfl | ⟨after, z, rfl⟩
    · obtain ⟨rfl, hx⟩ := List.append_inj' hls rfl
      obtain rfl := List.singleton_inj.1 hx
      exact .inr ⟨rfl, hcontent, hquiet⟩
    · rw [List.concat_eq_append, ← List.cons_append, ← List.append_assoc] at hls
      exact .inl ⟨hcontent, before, after, (List.append_inj' hls rfl).1, hquiet⟩
  · rintro (⟨hcontent, before, after, rfl, hquiet⟩ | ⟨rfl, hcontent, hquiet⟩)
    · exact ⟨hcontent, before, after ++ [x], by simp, hquiet⟩
    · exact ⟨hcontent, ls, [], rfl, hquiet⟩

end

/-! ## One line after the other -/

/-- What the lines read so far have become. -/
structure Reads (source : Source) (ls : List (Nat × List Char)) (p : Progress) : Prop where
  spans_eq : p.finish.flatMap spans = (ls.filter fun x => HasContent x.2).map (inner source)
  header_iff : ∀ span, span ∈ p.finish.map (·.header) ↔ ∃ x, Opens ls x ∧ inner source x = span
  quiet : p.current = none ↔ Quiet ls
  named : ∀ s ∈ p.finish, ∃ x ∈ ls, s.header = inner source x ∧
    ∃ name, trim x.2 = name ++ [':'] ∧ SectionKind.ofName? (String.ofList (trim name)) = some s.kind
  kinds_nodup : (p.finish.map (·.kind)).Nodup

theorem finish_open (closed : List FileSection) (s : FileSection) :
    Progress.finish ⟨closed, some s⟩ = closed.reverse ++ [s] :=
  List.reverse_cons

theorem finish_closed (closed : List FileSection) : Progress.finish ⟨closed, none⟩ = closed.reverse := rfl

namespace Reads

variable {ls : List (Nat × List Char)} {p : Progress} {x : Nat × List Char}

theorem start : Reads source [] {} where
  spans_eq := rfl
  header_iff span := by simp [finish_closed, Opens]
  quiet := by simp [Quiet, sinceSeparator]
  named s hs := by cases hs
  kinds_nodup := .nil

/-- A line without content leaves the sections as they are. -/
theorem skip (h : Reads source ls p) (hx : ¬HasContent x.2) {p' : Progress} (hfinish : p'.finish = p.finish)
    (hquiet : p'.current = none ↔ Quiet (ls ++ [x])) : Reads source (ls ++ [x]) p' where
  spans_eq := by simp [hfinish, h.spans_eq, hx]
  header_iff span := by
    rw [hfinish, h.header_iff]
    refine exists_congr fun y => and_congr_left' ?_
    rw [opens_concat, or_iff_left fun hy => hx hy.2.1]
  quiet := hquiet
  named s hs := by
    rw [hfinish] at hs
    obtain ⟨y, hy, hnamed⟩ := h.named s hs
    exact ⟨y, List.mem_append_left _ hy, hnamed⟩
  kinds_nodup := by
    rw [hfinish]
    exact h.kinds_nodup

/-- A line with content goes to the open section. -/
theorem entry {closed : List FileSection} {s : FileSection} (h : Reads source ls ⟨closed, some s⟩)
    (hx : HasContent x.2) :
    Reads source (ls ++ [x]) ⟨closed, some { s with entries := s.entries ++ [inner source x] }⟩ := by
  have hopen : ¬Quiet ls := fun hquiet => by cases h.quiet.2 hquiet
  obtain ⟨hspans, hheaders, -, hnamed, hkinds⟩ := h
  rw [finish_open] at hspans hheaders hnamed hkinds
  constructor <;> try rw [finish_open]
  · simp only [List.flatMap_append, List.flatMap_singleton] at hspans ⊢
    rw [List.filter_append, List.map_append, ← hspans, List.append_assoc]
    simp [spans, hx]
  · intro span
    rw [List.map_append] at hheaders ⊢
    refine (hheaders span).trans (exists_congr fun y => and_congr_left' ?_)
    rw [opens_concat, or_iff_left fun hy => hopen hy.2.2]
  · rw [quiet_concat]
    exact ⟨fun h => (by cases h), fun h => (h.elim hx.2.2 fun h => h.2 hx).elim⟩
  · intro t ht
    obtain ⟨t', ht', hheader, hkind⟩ :
        ∃ t' ∈ closed.reverse ++ [s], t'.header = t.header ∧ t'.kind = t.kind := by
      rcases List.mem_append.1 ht with ht | ht
      · exact ⟨t, List.mem_append_left _ ht, rfl, rfl⟩
      · rw [List.mem_singleton.1 ht]
        exact ⟨s, List.mem_append_right _ (List.mem_singleton_self s), rfl, rfl⟩
    obtain ⟨y, hy, hnamed⟩ := hnamed t' ht'
    exact ⟨y, List.mem_append_left _ hy, by rwa [← hheader, ← hkind]⟩
  · simpa using hkinds

/-- Where no section is open, it is the header of one. -/
theorem header {closed : List FileSection} {s : FileSection} (h : Reads source ls ⟨closed, none⟩)
    (hx : HasContent x.2) (hs : opened closed (inner source x) (trim x.2) = .ok s) :
    Reads source (ls ++ [x]) ⟨closed, some s⟩ := by
  obtain ⟨hheader, hentries, hnew, hname⟩ := eq_of_opened hs
  have hquiet : Quiet ls := h.quiet.1 rfl
  constructor <;> try rw [finish_open]
  · rw [List.flatMap_append, ← finish_closed, h.spans_eq, List.filter_append, List.map_append]
    simp [spans, hheader, hentries, hx]
  · intro span
    rw [List.map_append, List.mem_append, ← finish_closed, h.header_iff, List.map_singleton,
      List.mem_singleton, hheader]
    simp only [opens_concat, or_and_right, exists_or]
    refine or_congr_right ⟨fun hspan => ⟨x, ⟨rfl, hx, hquiet⟩, hspan.symm⟩, ?_⟩
    rintro ⟨y, ⟨rfl, -⟩, rfl⟩
    rfl
  · rw [quiet_concat]
    exact ⟨fun h => (by cases h), fun h => (h.elim hx.2.2 fun h => h.2 hx).elim⟩
  · intro t ht
    rcases List.mem_append.1 ht with ht | ht
    · obtain ⟨y, hy, hnamed⟩ := h.named t ht
      exact ⟨y, List.mem_append_left _ hy, hnamed⟩
    · rw [List.mem_singleton.1 ht]
      exact ⟨x, List.mem_append_right _ (List.mem_singleton_self x), hheader, hname⟩
  · rw [List.map_append, List.map_singleton, List.nodup_append]
    refine ⟨h.kinds_nodup, List.pairwise_singleton _ _, ?_⟩
    simpa using hnew

/-- Each line is read so. -/
theorem step (h : Reads source ls p) {p' : Progress} (hstep : p.step source x = .ok p') :
    Reads source (ls ++ [x]) p' := by
  obtain ⟨closed, current⟩ := p
  rcases step_cases hstep with ⟨hx, hseparator, rfl⟩ | ⟨hx, hseparator, rfl⟩ | ⟨hx, s, hs, rfl⟩ |
    ⟨hx, hnone, s, hs, rfl⟩
  · refine h.skip hx rfl (h.quiet.trans ?_)
    rw [quiet_concat, or_iff_right hseparator, and_iff_left hx]
  · exact h.skip hx rfl (iff_of_true rfl (quiet_concat.2 (.inl hseparator)))
  · obtain rfl : current = some s := hs
    exact h.entry hx
  · obtain rfl : current = none := hnone
    exact h.header hx hs

end Reads

/-- The sections of a text, as its lines have made them. -/
theorem reads_of_split {sections : List FileSection} (h : split source = .ok sections) :
    ∃ p, sections = p.finish ∧ Reads source (placedLines source.text.toList) p := by
  obtain ⟨p, hp, h⟩ := Except.bind_eq_ok.1 h
  cases h
  exact ⟨p, rfl, Except.foldlM_prefix hp Reads.start fun _ _ _ _ hreads hstep => hreads.step hstep⟩

/-! ## Ranges of lines -/

section

variable {cs : List Char} {x y : Nat × List Char} {before after before' after' : List (Nat × List Char)}

theorem fits_inner (h : StandsAt source.text.toList x.1 x.2) : (inner source x).Fits := ⟨trim x.2, h.trim, rfl⟩

theorem start_lt_stop_inner (h : HasContent x.2) : (inner source x).start < (inner source x).stop :=
  Nat.lt_add_of_pos_right (byteSize_pos h.1)

theorem stop_inner_le (source : Source) (x : Nat × List Char) :
    (inner source x).stop ≤ x.1 + byteSize x.2 := by
  obtain ⟨before, after, hl, hsize⟩ := exists_trim x.2
  have hsum := congrArg byteSize hl
  rw [byteSize_append, byteSize_append] at hsum
  unfold inner
  dsimp only
  omega

/-- The range of a line ends before the one of a later line starts. -/
theorem stop_inner_le_start (source : Source) (h : x.1 + byteSize x.2 ≤ y.1) :
    (inner source x).stop ≤ (inner source y).start :=
  (stop_inner_le source x).trans (h.trans (Nat.le_add_right _ _))

/-- A line with content shares its range with no later line. -/
theorem inner_ne_of_mem (hlines : placedLines cs = before ++ y :: after) (hx : x ∈ before)
    (hcontent : HasContent x.2) : inner source x ≠ inner source y := by
  intro heq
  have hpairwise := pairwise_placedLines cs
  rw [hlines] at hpairwise
  have hle := stop_inner_le_start source ((List.pairwise_append.1 hpairwise).2.2 x hx y List.mem_cons_self)
  have hlt : (inner source x).start < (inner source x).stop := start_lt_stop_inner hcontent
  rw [heq] at hlt hle
  omega

/-- Lines with content that have one range are one line, at one place of the text. -/
theorem eq_of_inner_eq (h : placedLines cs = before ++ x :: after)
    (h' : placedLines cs = before' ++ y :: after') (hx : HasContent x.2) (hy : HasContent y.2)
    (heq : inner source x = inner source y) : before = before' := by
  rcases List.append_eq_append_iff.1 (h.symm.trans h') with ⟨mid, hbefore, hmid⟩ | ⟨mid, hbefore, hmid⟩
  · cases mid with
    | nil => rw [hbefore, List.append_nil]
    | cons z mid =>
      obtain ⟨rfl, -⟩ := List.cons.inj hmid
      exact absurd heq (inner_ne_of_mem h' (by simp [hbefore]) hx)
  · cases mid with
    | nil => rw [hbefore, List.append_nil]
    | cons z mid =>
      obtain ⟨rfl, -⟩ := List.cons.inj hmid
      exact absurd heq.symm (inner_ne_of_mem h (by simp [hbefore]) hy)

end

/-! ## The whole text -/

/-- A text that falls into sections is laid out as these sections. -/
theorem layout_of_split {sections : List FileSection} (h : split source = .ok sections) :
    Layout source sections := by
  obtain ⟨p, rfl, hreads⟩ := reads_of_split h
  have hpairwise : ((placedLines source.text.toList).filter fun x => HasContent x.2).Pairwise
      fun x y => x.1 + byteSize x.2 ≤ y.1 := (pairwise_placedLines _).filter _
  have hordered : (p.finish.flatMap spans).Pairwise fun s t => s.stop ≤ t.start := by
    rw [hreads.spans_eq, List.pairwise_map]
    exact hpairwise.imp (stop_inner_le_start source)
  have hnonempty : ∀ s ∈ p.finish.flatMap spans, s.start < s.stop := by
    rw [hreads.spans_eq, List.forall_mem_map]
    intro x hx
    exact start_lt_stop_inner (of_decide_eq_true (List.mem_filter.1 hx).2)
  constructor
  · exact hreads.spans_eq
  · exact hordered
  · refine hordered.imp_of_mem fun hs _ hle heq => ?_
    have hlt := hnonempty _ hs
    rw [← heq] at hle
    omega
  · intro x hx
    have hplace := standsAt_of_mem_placedLines hx
    rw [(fits_inner hplace).text?_eq, text_inner hplace]
  · intro before x after hlines hx
    rw [hreads.header_iff]
    constructor
    · rintro ⟨y, ⟨hy, before', after', hlines', hquiet⟩, heq⟩
      rwa [eq_of_inner_eq hlines hlines' hx hy heq.symm]
    · intro hquiet
      exact ⟨x, ⟨hx, before, after, hlines, hquiet⟩, rfl⟩
  · intro s hs
    obtain ⟨x, hx, hheader, name, htrim, hkind⟩ := hreads.named s hs
    refine ⟨String.ofList name, ?_, ?_⟩
    · rw [hheader, text_inner (standsAt_of_mem_placedLines hx), htrim, String.ofList_append]
    · rw [String.toList_ofList]
      exact (of_decide_eq_true (List.find?_some hkind :)).symm
  · intro s _
    refine List.mem_map_of_mem ?_
    cases s.kind <;> decide
  · have hnames := List.Nodup.map SectionKind.name_injective hreads.kinds_nodup
    rwa [List.map_map] at hnames

namespace Untidy

/-- A separator before the first header, two in a row, comments, blank lines, white space of all kinds, and a
section without entries. -/
def file : Source where
  text := "---\n# limits\r\n goals :\n\n\tx <= 1 \r\n# and\n\u2003y >= 2\n---\n---\nreward:"

def sections : List FileSection :=
  [⟨.goals, ⟨file, 15, 22⟩, [⟨file, 25, 31⟩, ⟨file, 43, 49⟩]⟩, ⟨.reward, ⟨file, 58, 65⟩, []⟩]

end Untidy

theorem layout_untidy : split Untidy.file = .ok Untidy.sections ∧ Layout Untidy.file Untidy.sections :=
  ⟨rfl, layout_of_split rfl⟩

end FileSection

end HybridPlan
