import HybridPlan.Text.Blank

set_option autoImplicit false

/-! # Bytes and lines of a text

Places in a text are counted in bytes of its UTF-8 encoding. A text falls into lines, each of which
but the last one ends with a line feed. -/

namespace HybridPlan.Text

/-! ## Bytes -/

/-- The number of bytes of a list of characters. -/
def byteSize (cs : List Char) : Nat := cs.foldl (fun n c => n + c.utf8Size) 0

@[simp] theorem byteSize_nil : byteSize [] = 0 := rfl

@[simp] theorem byteSize_cons (c : Char) (cs : List Char) :
    byteSize (c :: cs) = c.utf8Size + byteSize cs := by
  have h (ds : List Char) (n : Nat) : ds.foldl (fun n c => n + c.utf8Size) n = n + byteSize ds := by
    induction ds generalizing n with
    | nil => rfl
    | cons d ds ih =>
      unfold byteSize
      simp only [List.foldl_cons]
      rw [ih, ih]
      omega
  rw [show byteSize (c :: cs) = cs.foldl (fun n c => n + c.utf8Size) (0 + c.utf8Size) from rfl, h]
  omega

@[simp] theorem byteSize_append (cs ds : List Char) :
    byteSize (cs ++ ds) = byteSize cs + byteSize ds := by
  induction cs with
  | nil => simp
  | cons c cs ih => simp [ih, Nat.add_assoc]

/-- What follows the first `n` bytes. A character that the cut would split is dropped. -/
def dropBytes : Nat → List Char → List Char
  | _, [] => []
  | 0, cs => cs
  | n + 1, c :: cs => dropBytes (n + 1 - c.utf8Size) cs

/-- The first `n` bytes. A character that the cut would split is taken. -/
def takeBytes : Nat → List Char → List Char
  | _, [] => []
  | 0, _ => []
  | n + 1, c :: cs => c :: takeBytes (n + 1 - c.utf8Size) cs

/-- Both parts of a cut together are the text. -/
theorem takeBytes_append_dropBytes (n : Nat) (cs : List Char) :
    takeBytes n cs ++ dropBytes n cs = cs := by
  fun_induction takeBytes n cs with
  | case1 n => simp [dropBytes]
  | case2 cs => cases cs <;> simp [dropBytes]
  | case3 n c cs ih => simp [dropBytes, ih]

/-- A cut between characters takes what is before it. -/
theorem takeBytes_byteSize_append (cs ds : List Char) : takeBytes (byteSize cs) (cs ++ ds) = cs := by
  induction cs with
  | nil => cases ds <;> rfl
  | cons c cs ih =>
    obtain ⟨n, hn⟩ : ∃ n, c.utf8Size + byteSize cs = n + 1 :=
      Nat.exists_eq_add_one.2 (Nat.add_pos_left c.utf8Size_pos _)
    rw [byteSize_cons, hn, List.cons_append, takeBytes]
    rw [show n + 1 - c.utf8Size = byteSize cs by omega, ih]

theorem dropBytes_byteSize_append (cs ds : List Char) : dropBytes (byteSize cs) (cs ++ ds) = ds := by
  have h := takeBytes_append_dropBytes (byteSize cs) (cs ++ ds)
  rw [takeBytes_byteSize_append] at h
  exact List.append_cancel_left h

/-- The characters in the byte range from `start` up to `stop`. -/
def slice (cs : List Char) (start stop : Nat) : List Char :=
  takeBytes (stop - start) (dropBytes start cs)

theorem slice_append (cs ds es : List Char) :
    slice (cs ++ ds ++ es) (byteSize cs) (byteSize cs + byteSize ds) = ds := by
  rw [slice, Nat.add_sub_cancel_left, List.append_assoc, dropBytes_byteSize_append,
    takeBytes_byteSize_append]

/-- What precedes and what follows the first `n` bytes, if a character ends there. -/
def cutAt? : Nat → List Char → Option (List Char × List Char)
  | 0, cs => some ([], cs)
  | _ + 1, [] => none
  | n + 1, c :: cs =>
    if n + 1 < c.utf8Size then none
    else (cutAt? (n + 1 - c.utf8Size) cs).map fun (before, after) => (c :: before, after)

theorem cutAt?_eq_some_iff {n : Nat} {cs before after : List Char} :
    cutAt? n cs = some (before, after) ↔ cs = before ++ after ∧ byteSize before = n := by
  fun_induction cutAt? n cs generalizing before after with
  | case1 cs =>
    rw [Option.some.injEq, Prod.mk.injEq]
    constructor
    · rintro ⟨rfl, rfl⟩
      exact ⟨rfl, rfl⟩
    · rintro ⟨rfl, hsize⟩
      cases before with
      | nil => exact ⟨rfl, rfl⟩
      | cons c before =>
        rw [byteSize_cons] at hsize
        exact absurd c.utf8Size_pos (by omega)
  | case2 n =>
    refine ⟨fun h => (by cases h), ?_⟩
    rintro ⟨h, hsize⟩
    rw [(List.append_eq_nil_iff.1 h.symm).1] at hsize
    cases hsize
  | case3 n c cs hsplit =>
    refine ⟨fun h => (by cases h), ?_⟩
    rintro ⟨h, hsize⟩
    cases before with
    | nil => cases hsize
    | cons d before =>
      obtain ⟨rfl, -⟩ := List.cons.inj h
      rw [byteSize_cons] at hsize
      omega
  | case4 n c cs hsplit ih =>
    rw [Option.map_eq_some_iff]
    constructor
    · rintro ⟨⟨b, a⟩, hcut, heq⟩
      obtain ⟨rfl, rfl⟩ := Prod.mk.inj heq
      obtain ⟨rfl, hsize⟩ := ih.1 hcut
      exact ⟨rfl, by rw [byteSize_cons]; omega⟩
    · rintro ⟨h, hsize⟩
      cases before with
      | nil => cases hsize
      | cons d before =>
        obtain ⟨rfl, rfl⟩ := List.cons.inj h
        rw [byteSize_cons] at hsize
        exact ⟨(before, after), ih.2 ⟨rfl, by omega⟩, rfl⟩

/-- The characters in the byte range from `start` up to `stop`, if there is one: both have to lie
between characters of the text. -/
def slice? (cs : List Char) (start stop : Nat) : Option (List Char) :=
  if stop < start then none
  else do
    let (_, rest) ← cutAt? start cs
    let (part, _) ← cutAt? (stop - start) rest
    return part

/-! ## Lines -/

/-- The pieces of a text, each of which but the last one ends with a line feed; none is empty.
`line` holds the characters of the piece being read, the last one first. -/
def piecesFrom (line : List Char) : List Char → List (List Char)
  | [] => if line.isEmpty then [] else [line.reverse]
  | c :: cs =>
    if c = '\n' then (c :: line).reverse :: piecesFrom [] cs
    else piecesFrom (c :: line) cs

def pieces (cs : List Char) : List (List Char) := piecesFrom [] cs

theorem flatten_piecesFrom (line cs : List Char) :
    (piecesFrom line cs).flatten = line.reverse ++ cs := by
  fun_induction piecesFrom line cs <;> simp_all

/-- No character is lost. -/
theorem flatten_pieces (cs : List Char) : (pieces cs).flatten = cs := flatten_piecesFrom [] cs

def isLineEnd (c : Char) : Bool := c = '\n' || c = '\r'

/-- Each piece without its line end, with the byte at which it starts. -/
def placeLines (start : Nat) : List (List Char) → List (Nat × List Char)
  | [] => []
  | l :: ls => (start, dropEnd isLineEnd l) :: placeLines (start + byteSize l) ls

/-- The lines of a text without their ends, each with the byte at which it starts. All carriage
returns and line feeds at the end of a line belong to its end. -/
def placedLines (cs : List Char) : List (Nat × List Char) := placeLines 0 (pieces cs)

/-- A line without its end: a line feed, or a carriage return and a line feed. -/
def dropLineEnd (l : List Char) : List Char :=
  match l.reverse with
  | '\n' :: '\r' :: r => r.reverse
  | '\n' :: r => r.reverse
  | _ => l

/-- The lines of a text without their ends. -/
def lines (cs : List Char) : List (List Char) := (pieces cs).map dropLineEnd

/-! ## Parts -/

/-- The parts of a text between the separators. -/
def splitOn (sep : Char) : List Char → List (List Char)
  | [] => [[]]
  | c :: cs =>
    if c = sep then [] :: splitOn sep cs
    else match splitOn sep cs with
      | [] => [[c]]
      | part :: parts => (c :: part) :: parts

/-- The part of a text before the first separator and the part behind it. -/
def splitFirst? (sep : Char) : List Char → Option (List Char × List Char)
  | [] => none
  | c :: cs =>
    if c = sep then some ([], cs)
    else (splitFirst? sep cs).map fun (before, after) => (c :: before, after)

theorem splitFirst?_eq_some {sep : Char} {cs before after : List Char}
    (h : splitFirst? sep cs = some (before, after)) :
    cs = before ++ sep :: after ∧ sep ∉ before := by
  induction cs generalizing before after with
  | nil => simp [splitFirst?] at h
  | cons c cs ih =>
    unfold splitFirst? at h
    split at h
    · next hc => simp_all
    · next hc =>
      obtain ⟨⟨b, a⟩, hb, he⟩ := Option.map_eq_some_iff.1 h
      obtain ⟨rfl, rfl⟩ := Prod.mk.inj he
      obtain ⟨hcs, hsep⟩ := ih hb
      exact ⟨by rw [hcs, List.cons_append], by simp [hsep, Ne.symm hc]⟩

/-- What follows the given start of a text. -/
def afterStart? (start : List Char) (cs : List Char) : Option (List Char) :=
  if cs.take start.length = start then some (cs.drop start.length) else none

theorem afterStart?_eq_some_iff {start cs rest : List Char} :
    afterStart? start cs = some rest ↔ cs = start ++ rest := by
  unfold afterStart?
  constructor
  · intro h
    split at h
    · next hs =>
      rw [← Option.some.inj h]
      exact (List.take_append_drop start.length cs).symm.trans (by rw [hs])
    · contradiction
  · rintro rfl
    simp

/-- What precedes the given end of a text. -/
def beforeEnd? (stop : List Char) (cs : List Char) : Option (List Char) :=
  (afterStart? stop.reverse cs.reverse).map List.reverse

theorem beforeEnd?_eq_some_iff {stop cs rest : List Char} :
    beforeEnd? stop cs = some rest ↔ cs = rest ++ stop := by
  simp only [beforeEnd?, Option.map_eq_some_iff, afterStart?_eq_some_iff]
  constructor
  · rintro ⟨r, hr, rfl⟩
    simpa using congrArg List.reverse hr
  · rintro rfl
    exact ⟨rest.reverse, by simp⟩

/-- Whether a text occurs in another one. -/
def occursIn (part : List Char) : List Char → Bool
  | [] => part.isEmpty
  | c :: cs => (afterStart? part (c :: cs)).isSome || occursIn part cs

end HybridPlan.Text
