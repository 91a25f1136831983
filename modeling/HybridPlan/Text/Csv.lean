set_option autoImplicit false

/-! # Comma-separated values

A table with one line for each record and commas between the fields. A field that holds a comma, a
quote or a line feed is quoted, with the quotes inside it written twice. -/

namespace HybridPlan.Csv

/-- Whether a character cannot stand in a field that is not quoted. -/
def needsQuotes (c : Char) : Bool := c = ',' || c = '"' || c = '\n'

/-- The characters of a quoted field. -/
def doubled : List Char → List Char
  | [] => []
  | c :: cs => if c = '"' then c :: c :: doubled cs else c :: doubled cs

/-- A quote is written twice and all else once. -/
theorem count_doubled (c : Char) (cs : List Char) :
    (doubled cs).count c = (if c = '"' then 2 else 1) * cs.count c := by
  induction cs with
  | nil => simp [doubled]
  | cons d cs ih =>
    simp only [doubled]
    grind

def field (s : String) : String :=
  if s.toList.any needsQuotes then "\"" ++ String.ofList (doubled s.toList) ++ "\"" else s

def line (fields : List String) : String := String.intercalate "," (fields.map field) ++ "\n"

def table (header : List String) (records : List (List String)) : String :=
  String.join ((header :: records).map line)

end HybridPlan.Csv
