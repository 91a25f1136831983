import HybridPlan.Text.Lines

set_option autoImplicit false

/-! # Places in a source text

A `Span` is a byte range of a source text. A `Name` remembers where it was written, if it was
written in a source at all; two names are the same if their texts are. -/

namespace HybridPlan

/-- A text, with the name of the file that it was read from. -/
structure Source where
  text : String
  file : Option String := none

/-- The bytes from `start` up to, and without, `stop` of a source. -/
structure Span where
  source : Source
  start : Nat
  stop : Nat

namespace Span

/-- The text in the range. -/
def text (s : Span) : String := String.ofList (Text.slice s.source.text.toList s.start s.stop)

/-- The text in the range, if it is a range of the source. -/
def text? (s : Span) : Option String :=
  (Text.slice? s.source.text.toList s.start s.stop).map String.ofList

/-- The number of bytes in the range. -/
def size (s : Span) : Nat := s.stop - s.start

/-- The line on which the range starts, the first line being 1. -/
def line (s : Span) : Nat := (Text.takeBytes s.start s.source.text.toList).count '\n' + 1

/-- The range that covers a text of its own. -/
def whole (text : String) : Span := ⟨⟨text, none⟩, 0, text.utf8ByteSize⟩

end Span

/-- An identifier with the place where it was written. -/
structure Name where
  text : String
  span : Option Span := none

/-- The place of a name; a name from nowhere is its own source. -/
def Name.place (n : Name) : Span := n.span.getD (.whole n.text)

/-! ## Columns -/

/-- A place as a reader sees it: line, and column with width. -/
structure Place where
  line : Nat
  /-- The column where the range starts, the first column being 0, and the number of columns that
  it takes; known only in a line that is shown unchanged. -/
  columns : Option (Nat × Nat)
  deriving DecidableEq

namespace Place

/-- The number of columns that a character takes. -/
def columnsOf (c : Char) : Nat := if c = '\t' then 4 else 1

def width (cs : List Char) : Nat := cs.foldl (fun n c => n + columnsOf c) 0

/-- The longest line that is shown in full, in columns. -/
def maxWidth : Nat := 100

/-- A line is shown unchanged if it is not too long, holds only printable ASCII characters and
tabs, and has no dots that look like an ellipsis. -/
def showsUnchanged (line : List Char) : Bool :=
  width line ≤ maxWidth && line.all (fun c => c = '\t' || (' ' ≤ c && c ≤ '~')) &&
    !Text.occursIn ['.', '.', '.'] line

/-- The line of the text that holds the given byte, without its end: what precedes the byte, and
what follows. A byte of the line end comes after all of the line. -/
def lineAround (cs : List Char) (byte : Nat) : List Char × List Char :=
  let before := ((Text.takeBytes byte cs).reverse.takeWhile (· ≠ '\n')).reverse
  let rest := (Text.pieces (Text.dropBytes byte cs)).headD []
  let line := Text.dropLineEnd (before ++ rest)
  (line.take before.length, line.drop before.length)

end Place

/-- Where a range is found in its source. The width counts at least one column, and none beyond the
line on which the range starts. -/
def Span.place (s : Span) : Place :=
  let (before, after) := Place.lineAround s.source.text.toList s.start
  let line := before ++ after
  if Place.showsUnchanged line then
    let covered := Place.width (Text.takeBytes s.size after)
    ⟨s.line, some (Place.width before, max 1 covered)⟩
  else ⟨s.line, none⟩

end HybridPlan
