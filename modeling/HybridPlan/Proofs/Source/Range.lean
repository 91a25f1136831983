import HybridPlan.Proofs.Text.Bytes
import HybridPlan.Proofs.Text.Lines
import HybridPlan.Source.Message

set_option autoImplicit false

/-! # Ranges of a source

A byte range of a source has a text if both of its ends lie between characters of the source, and the
message about a place can be made if the place is such a range. -/

namespace HybridPlan

open Text

/-- The characters between two bytes of a text are those that stand there. -/
theorem Text.slice?_eq_some_iff {cs part : List Char} {start stop : Nat} :
    slice? cs start stop = some part ↔ StandsAt cs start part ∧ stop = start + byteSize part := by
  unfold slice?
  split
  · next hlt =>
    refine ⟨fun h => (by cases h), ?_⟩
    rintro ⟨-, hstop⟩
    omega
  · next hle =>
    simp only [Option.bind_eq_bind, Option.bind_eq_some_iff, Prod.exists, cutAt?_eq_some_iff, Option.pure_def,
      Option.some.injEq]
    constructor
    · rintro ⟨before, rest, ⟨rfl, rfl⟩, part', after, ⟨rfl, hsize⟩, rfl⟩
      exact ⟨⟨before, after, (List.append_assoc _ _ _).symm, rfl⟩, by omega⟩
    · rintro ⟨⟨before, after, rfl, rfl⟩, rfl⟩
      exact ⟨before, part ++ after, ⟨List.append_assoc _ _ _, rfl⟩, part, after,
        ⟨rfl, (Nat.add_sub_cancel_left _ _).symm⟩, rfl⟩

namespace Span

/-- The range lies in its source, and begins and ends between characters. -/
def Fits (s : Span) : Prop :=
  ∃ part, StandsAt s.source.text.toList s.start part ∧ s.stop = s.start + byteSize part

/-- A range has a text exactly if it is one. -/
theorem isSome_text?_iff {s : Span} : s.text?.isSome ↔ s.Fits := by
  rw [text?, Option.isSome_map, Option.isSome_iff_exists]
  exact exists_congr fun _ => slice?_eq_some_iff

theorem Fits.text?_eq {s : Span} (h : s.Fits) : s.text? = some s.text := by
  obtain ⟨part, hplace, hstop⟩ := h
  rw [text?, text, slice?_eq_some_iff.2 ⟨hplace, hstop⟩, hstop, hplace.slice]
  rfl

theorem Fits.stop_le {s : Span} (h : s.Fits) : s.stop ≤ s.source.text.utf8ByteSize := by
  obtain ⟨part, ⟨before, after, htext, hstart⟩, hstop⟩ := h
  rw [utf8ByteSize_eq, htext, byteSize_append, byteSize_append]
  omega

end Span

/-- There is a message about every place that is a range of its source. -/
theorem Message.about?_eq {s : Span} (h : s.Fits) (fault : String) :
    Message.about? s fault = some (.about s fault) := by
  unfold about? about
  rw [h.text?_eq]
  split <;> rfl

/-- There is none about a short place that is no range of its source. -/
theorem Message.about?_eq_none {s : Span} (h : ¬s.Fits) (hsize : s.size < quoteLimit) (fault : String) :
    Message.about? s fault = none := by
  have hnone : s.text? = none := by
    rwa [← Option.not_isSome_iff_eq_none, Span.isSome_text?_iff]
  rw [about?, if_pos hsize, hnone, Option.map_none]

end HybridPlan
