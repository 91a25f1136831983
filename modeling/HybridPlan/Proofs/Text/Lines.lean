import HybridPlan.Text.Lines
import Mathlib.Data.List.DropRight

set_option autoImplicit false

/-! # Lines of a text

Every line of a text stands in the text at its place, and holds no line feed. A text that is put together
from lines falls into these lines again. -/

namespace HybridPlan.Text

variable {cs ds l tail : List Char}

/-! ## White space around a text -/

/-- No white space stands at either end. -/
structure Trimmed (cs : List Char) : Prop where
  head : ∀ c ∈ cs.head?, isBlank c = false
  last : ∀ c ∈ cs.getLast?, isBlank c = false

theorem visible_of_isAlphanum {c : Char} (h : c.isAlphanum) : '!' ≤ c ∧ c ≤ '~' := by
  unfold Char.isAlphanum Char.isAlpha Char.isUpper Char.isLower Char.isDigit at h
  grind [Char.le_def]

/-- Letters and digits are no white space. -/
theorem isBlank_of_isAlphanum {c : Char} (h : c.isAlphanum) : isBlank c = false := by
  obtain ⟨hlow, hhigh⟩ := visible_of_isAlphanum h
  have hlow : 33 ≤ c.toNat := hlow
  have hhigh : c.toNat ≤ 126 := hhigh
  simp [isBlank]
  omega

theorem isPrefix_dropEnd (p : Char → Bool) (cs : List Char) : dropEnd p cs <+: cs :=
  List.rdropWhile_prefix p cs

/-- Nothing is dropped from an end that is not of the class. -/
theorem dropEnd_eq_self {p : Char → Bool} (h : ∀ c ∈ cs.getLast?, p c = false) : dropEnd p cs = cs :=
  List.rdropWhile_eq_self_iff.2 fun hne => by
    rw [h _ (List.getLast?_eq_some_getLast hne)]
    exact Bool.false_ne_true

theorem dropEnd_concat {p : Char → Bool} {c : Char} (hc : p c) : dropEnd p (cs ++ [c]) = dropEnd p cs :=
  List.rdropWhile_concat_pos p cs c hc

theorem last_dropEnd {p : Char → Bool} : ∀ c ∈ (dropEnd p cs).getLast?, p c = false := by
  intro c hc
  have hne : dropEnd p cs ≠ [] := fun h => by simp [h] at hc
  obtain rfl : (dropEnd p cs).getLast hne = c :=
    Option.some.inj ((List.getLast?_eq_some_getLast hne).symm.trans hc)
  exact Bool.eq_false_iff.2 (List.rdropWhile_last_not p cs hne)

theorem trimLeft_eq_self (h : ∀ c ∈ cs.head?, isBlank c = false) : trimLeft cs = cs := by
  cases cs with
  | nil => rfl
  | cons c cs => exact List.dropWhile_cons_of_neg (by simp [h c rfl])

theorem head_trimLeft : ∀ c ∈ (trimLeft cs).head?, isBlank c = false := by
  intro c hc
  have hnot := List.head?_dropWhile_not isBlank cs
  rw [show (cs.dropWhile isBlank).head? = some c from hc] at hnot
  simpa using hnot

theorem trimmed_trim (cs : List Char) : Trimmed (trim cs) where
  head c hc := by
    obtain ⟨rest, hrest⟩ := isPrefix_dropEnd isBlank (trimLeft cs)
    refine @head_trimLeft cs c ?_
    rw [← hrest, List.head?_append, show (dropEnd isBlank (trimLeft cs)).head? = some c from hc]
    rfl
  last := last_dropEnd

theorem Trimmed.trim_eq (h : Trimmed cs) : trim cs = cs := by
  rw [trim, trimLeft_eq_self h.head]
  exact dropEnd_eq_self h.last

/-- White space before a text is removed. -/
theorem trim_space_append (h : Trimmed cs) : trim (' ' :: cs) = cs := h.trim_eq

/-- White space behind a text is removed. -/
theorem trim_append_space (h : Trimmed cs) : trim (cs ++ [' ']) = cs := by
  by_cases hne : cs = []
  · subst hne
    rfl
  · have hhead : ∀ c ∈ (cs ++ [' ']).head?, isBlank c = false := by
      rw [List.head?_append_of_ne_nil _ hne]
      exact h.head
    rw [trim, trimLeft_eq_self hhead, trimRight, dropEnd_concat rfl]
    exact dropEnd_eq_self h.last

/-- A text without white space is trimmed. -/
theorem trimmed_of_forall (h : ∀ c ∈ cs, isBlank c = false) : Trimmed cs where
  head c hc := h c (List.mem_of_mem_head? hc)
  last c hc := h c (List.mem_of_mem_getLast? hc)

theorem trimmed_of_all (h : cs.all (!isBlank ·)) : Trimmed cs :=
  trimmed_of_forall fun c hc => by simpa using List.all_eq_true.1 h c hc

/-- The text stands between white space, and the white space before it is what `trimLeft` drops. -/
theorem exists_trim (cs : List Char) : ∃ before after, cs = before ++ trim cs ++ after ∧
    byteSize cs - byteSize (trimLeft cs) = byteSize before := by
  obtain ⟨after, hafter⟩ := isPrefix_dropEnd isBlank (trimLeft cs)
  have hbefore : cs.takeWhile isBlank ++ trimLeft cs = cs := List.takeWhile_append_dropWhile
  refine ⟨cs.takeWhile isBlank, after, ?_, ?_⟩
  · rw [List.append_assoc, show trim cs ++ after = trimLeft cs from hafter, hbefore]
  · have hsize := congrArg byteSize hbefore
    rw [byteSize_append] at hsize
    omega

/-! ## Places -/

theorem byteSize_pos (h : cs ≠ []) : 0 < byteSize cs := by
  obtain ⟨c, cs, rfl⟩ := List.exists_cons_of_ne_nil h
  rw [byteSize_cons]
  exact Nat.add_pos_left c.utf8Size_pos _

/-- The characters stand in the text from the byte `start` on. -/
def StandsAt (cs : List Char) (start : Nat) (l : List Char) : Prop :=
  ∃ before after, cs = before ++ l ++ after ∧ byteSize before = start

theorem StandsAt.slice {start : Nat} (h : StandsAt cs start l) :
    slice cs start (start + byteSize l) = l := by
  obtain ⟨before, after, rfl, rfl⟩ := h
  exact slice_append before l after

/-- Characters that stand in a text stand there piece by piece. -/
theorem StandsAt.of_append {start : Nat} (h : StandsAt cs start (l ++ ds)) :
    StandsAt cs start l ∧ StandsAt cs (start + byteSize l) ds := by
  obtain ⟨before, after, rfl, rfl⟩ := h
  exact ⟨⟨before, ds ++ after, by simp, rfl⟩, ⟨before ++ l, after, by simp, byteSize_append before l⟩⟩

/-- Without the white space around them, the characters stand where they did. -/
theorem StandsAt.trim {start : Nat} (h : StandsAt cs start l) :
    StandsAt cs (start + (byteSize l - byteSize (trimLeft l))) (trim l) := by
  obtain ⟨before, after, rfl, rfl⟩ := h
  obtain ⟨blank, blank', hl, hsize⟩ := exists_trim l
  refine ⟨before ++ blank, blank' ++ after, ?_, by rw [byteSize_append, hsize]⟩
  conv_lhs => rw [hl]
  simp only [List.append_assoc]

theorem standsAt_of_mem_placeLines {ls : List (List Char)} {start : Nat} {before : List Char}
    (hstart : byteSize before = start) {x : Nat × List Char} (hx : x ∈ placeLines start ls) :
    StandsAt (before ++ ls.flatten) x.1 x.2 := by
  induction ls generalizing start before with
  | nil => cases hx
  | cons l ls ih =>
    rcases List.mem_cons.1 hx with rfl | hx
    · obtain ⟨rest, hrest⟩ := isPrefix_dropEnd isLineEnd l
      refine ⟨before, rest ++ ls.flatten, ?_, hstart⟩
      rw [List.flatten_cons, List.append_assoc, ← List.append_assoc _ rest, hrest]
    · rw [List.flatten_cons, ← List.append_assoc]
      exact ih (by rw [byteSize_append, hstart]) hx

/-- Every line stands in the text at its place. -/
theorem standsAt_of_mem_placedLines {x : Nat × List Char} (hx : x ∈ placedLines cs) :
    StandsAt cs x.1 x.2 := by
  have h := standsAt_of_mem_placeLines byteSize_nil hx
  rwa [List.nil_append, flatten_pieces] at h

theorem start_le_of_mem_placeLines {ls : List (List Char)} {start : Nat} {x : Nat × List Char}
    (hx : x ∈ placeLines start ls) : start ≤ x.1 := by
  induction ls generalizing start with
  | nil => cases hx
  | cons l ls ih =>
    rcases List.mem_cons.1 hx with rfl | hx
    · exact Nat.le_refl _
    · exact (Nat.le_add_right _ _).trans (ih hx)

theorem byteSize_mono {cs ds : List Char} (h : cs <+: ds) : byteSize cs ≤ byteSize ds := by
  obtain ⟨rest, rfl⟩ := h
  rw [byteSize_append]
  exact Nat.le_add_right _ _

/-- Each line ends before the next one starts. -/
theorem pairwise_placedLines (cs : List Char) :
    (placedLines cs).Pairwise fun x y => x.1 + byteSize x.2 ≤ y.1 := by
  have h (ls : List (List Char)) (start : Nat) :
      (placeLines start ls).Pairwise fun x y => x.1 + byteSize x.2 ≤ y.1 := by
    induction ls generalizing start with
    | nil => exact .nil
    | cons l ls ih =>
      refine .cons (fun y hy => ?_) (ih _)
      exact (Nat.add_le_add_left (byteSize_mono (isPrefix_dropEnd _ _)) start).trans
        (start_le_of_mem_placeLines hy)
  exact h (pieces cs) 0

/-! ## Line feeds -/

/-- A line feed ends a piece. -/
theorem exists_of_mem_piecesFrom {p : List Char} (hl : '\n' ∉ l) (hp : p ∈ piecesFrom l cs) :
    ∃ q, '\n' ∉ q ∧ (p = q ∨ p = q ++ ['\n']) := by
  induction cs generalizing l with
  | nil =>
    unfold piecesFrom at hp
    split at hp
    · cases hp
    · exact ⟨l.reverse, by simpa using hl, .inl (List.mem_singleton.1 hp)⟩
  | cons c cs ih =>
    unfold piecesFrom at hp
    split at hp
    · next hc =>
      rcases List.mem_cons.1 hp with rfl | hp
      · exact ⟨l.reverse, by simpa using hl, .inr (by rw [List.reverse_cons, hc])⟩
      · exact ih List.not_mem_nil hp
    · next hc => exact ih (by simp [hl, Ne.symm hc]) hp

theorem snd_placeLines (start : Nat) (ls : List (List Char)) :
    (placeLines start ls).map Prod.snd = ls.map (dropEnd isLineEnd) := by
  induction ls generalizing start with
  | nil => rfl
  | cons l ls ih => rw [placeLines, List.map_cons, List.map_cons, ih]

theorem snd_placedLines (cs : List Char) :
    (placedLines cs).map Prod.snd = (pieces cs).map (dropEnd isLineEnd) :=
  snd_placeLines 0 (pieces cs)

/-- No line holds a line feed. -/
theorem lineFeed_not_mem {x : Nat × List Char} (hx : x ∈ placedLines cs) : '\n' ∉ x.2 := by
  have hline : x.2 ∈ (pieces cs).map (dropEnd isLineEnd) :=
    snd_placedLines cs ▸ List.mem_map_of_mem hx
  obtain ⟨p, hp, hx⟩ := List.mem_map.1 hline
  rw [← hx]
  obtain ⟨q, hq, rfl | rfl⟩ := exists_of_mem_piecesFrom List.not_mem_nil hp
  · exact fun h => hq ((isPrefix_dropEnd _ _).subset h)
  · rw [dropEnd_concat rfl]
    exact fun h => hq ((isPrefix_dropEnd _ _).subset h)

/-! ## Texts of lines -/

theorem piecesFrom_append (hl : '\n' ∉ l) (line : List Char) :
    piecesFrom line (l ++ cs) = piecesFrom (l.reverse ++ line) cs := by
  induction l generalizing line with
  | nil => rfl
  | cons c l ih =>
    obtain ⟨hc, hl⟩ := not_or.1 (mt List.mem_cons.2 hl)
    rw [List.cons_append, piecesFrom, if_neg (Ne.symm hc), ih hl, List.reverse_cons, List.append_assoc]
    rfl

theorem pieces_append {ls : List (List Char)} (hls : ∀ l ∈ ls, '\n' ∉ l) (htail : '\n' ∉ tail)
    (hne : tail ≠ []) :
    pieces (ls.flatMap (· ++ ['\n']) ++ tail) = ls.map (· ++ ['\n']) ++ [tail] := by
  induction ls with
  | nil =>
    have h := @piecesFrom_append [] tail htail []
    rw [List.append_nil, List.append_nil] at h
    rw [List.flatMap_nil, List.nil_append, pieces, h, piecesFrom, if_neg (by simpa using hne),
      List.reverse_reverse]
    rfl
  | cons l ls ih =>
    obtain ⟨hl, hls⟩ := List.forall_mem_cons.1 hls
    rw [List.flatMap_cons, List.append_assoc, List.append_assoc, pieces, piecesFrom_append hl,
      List.append_nil, List.singleton_append, piecesFrom, if_pos rfl, List.reverse_cons,
      List.reverse_reverse, List.map_cons, List.cons_append]
    exact congrArg _ (ih hls)

/-- A text that is put together from lines falls into these lines. -/
theorem placedLines_append {ls : List (List Char)} (hls : ∀ l ∈ ls, Trimmed l ∧ '\n' ∉ l)
    (htail : Trimmed tail ∧ '\n' ∉ tail) (hne : tail ≠ []) :
    (placedLines (ls.flatMap (· ++ ['\n']) ++ tail)).map Prod.snd = ls ++ [tail] := by
  have hkept {l : List Char} (hl : Trimmed l) : dropEnd isLineEnd l = l := by
    refine dropEnd_eq_self fun c hc => ?_
    have hblank := hl.last c hc
    by_contra hend
    rcases Bool.or_eq_true_iff.1 (Bool.not_eq_false _ ▸ hend) with h | h
    · rw [of_decide_eq_true h] at hblank
      contradiction
    · rw [of_decide_eq_true h] at hblank
      contradiction
  rw [snd_placedLines, pieces_append (fun l hl => (hls l hl).2) htail.2 hne, List.map_append,
    List.map_map, List.map_singleton, hkept htail.1]
  congr 1
  conv_rhs => rw [← List.map_id ls]
  refine List.map_congr_left fun l hl => ?_
  rw [Function.comp_apply, dropEnd_concat rfl, hkept (hls l hl).1, id]

end HybridPlan.Text
