set_option autoImplicit false

/-! # White space

The characters with the Unicode property `White_Space`, the removal of white space at both ends of
a text, and the split of a text into words at white space. -/

namespace HybridPlan.Text

/-- Whether a character is white space: 25 code points. -/
def isBlank (c : Char) : Bool :=
  let n := c.toNat
  (0x9 ≤ n && n ≤ 0xD) || n = 0x20 || n = 0x85 || n = 0xA0 || n = 0x1680 ||
    (0x2000 ≤ n && n ≤ 0x200A) || n = 0x2028 || n = 0x2029 || n = 0x202F || n = 0x205F || n = 0x3000

/-- The text without the white space before it. -/
def trimLeft (cs : List Char) : List Char := cs.dropWhile isBlank

/-- The text without the characters of a class at its end. -/
def dropEnd (p : Char → Bool) (cs : List Char) : List Char := (cs.reverse.dropWhile p).reverse

/-- The text without the white space behind it. -/
def trimRight (cs : List Char) : List Char := dropEnd isBlank cs

/-- The text without the white space around it. -/
def trim (cs : List Char) : List Char := trimRight (trimLeft cs)

/-- The words of a text: its longest parts without white space. `word` holds the characters of the
word being read, the last one first. -/
def wordsFrom (word : List Char) : List Char → List (List Char)
  | [] => if word.isEmpty then [] else [word.reverse]
  | c :: cs =>
    if isBlank c then
      if word.isEmpty then wordsFrom [] cs else word.reverse :: wordsFrom [] cs
    else wordsFrom (c :: word) cs

/-- Words hold all characters but white space. -/
theorem flatten_wordsFrom (word cs : List Char) :
    (wordsFrom word cs).flatten = word.reverse ++ cs.filter (!isBlank ·) := by
  fun_induction wordsFrom word cs <;> simp_all

def words (cs : List Char) : List (List Char) := wordsFrom [] cs

end HybridPlan.Text
