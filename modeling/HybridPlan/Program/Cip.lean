import HybridPlan.Program.Basic

set_option autoImplicit false

/-! # The CIP text of a program

CIP is the text format in which the solver reads a program. Terms are written with parentheses
around every operation but powers, so that reading them needs no rule of precedence other than that
a power binds most tightly; a power with a variable exponent is written by exponential and
logarithm. -/

namespace HybridPlan

namespace Cip

variable {α : Type} [Scalar α]

/-- A number within a term. -/
def number (x : α) : String :=
  if Scalar.eq x Scalar.infinity then "+inf"
  else if Scalar.eq x (-Scalar.infinity) then "-inf"
  else if Scalar.lt x Scalar.zero then "(" ++ Scalar.text x ++ ")"
  else Scalar.text x

/-- A bound of a variable. -/
def bound (x : α) : String :=
  if Scalar.isFinite x || Scalar.isUndefined x then Scalar.text x else number x

mutual

def term (name : VarId → String) : Term α → String
  | .const c => number c
  | .var v => "<" ++ name v ++ ">"
  | .neg a => "(-" ++ term name a ++ ")"
  | .sum items => "(" ++ String.intercalate " + " (terms name items) ++ ")"
  | .binary .pow a (.const e) => term name a ++ "^(" ++ Scalar.text e ++ ")"
  | .binary .pow a b => "exp(" ++ term name b ++ " * log(" ++ term name a ++ "))"
  | .binary op a b => "(" ++ term name a ++ " " ++ op.symbol ++ " " ++ term name b ++ ")"
  | .call .sqrt a => term name a ++ "^(0.5)"
  | .call f a => f.name ++ "(" ++ term name a ++ ")"

def terms (name : VarId → String) : List (Term α) → List String
  | [] => []
  | t :: ts => term name t :: terms name ts

end

/-- The line of a variable. -/
def variableLine (p : Program α) (id : VarId) (v : ProgramVar α) : String :=
  s!"  [{v.domain.name}] <{v.name}>: obj={Scalar.text (p.coefficient id)}, " ++
    s!"original bounds=[{bound v.lower},{bound v.upper}]\n"

/-- The body of a row with its finite bounds; none if both are infinite. -/
def rowText? (body : String) (lower upper : α) : Option String :=
  match Scalar.isFinite lower, Scalar.isFinite upper with
  | true, true =>
    if Scalar.eq lower upper then some s!"{body} == {Scalar.text upper}"
    else some s!"{Scalar.text lower} <= {body} <= {Scalar.text upper}"
  | false, true => some s!"{body} <= {Scalar.text upper}"
  | true, false => some s!"{body} >= {Scalar.text lower}"
  | false, false => none

/-- The line of a row; empty if the row says nothing. -/
def rowLine (p : Program α) (r : Row α) : String :=
  match rowText? (term p.varName (Terms.tree p.terms r.body)) r.lower r.upper with
  | some text => s!"  [nonlinear] <{r.name}>: {text};\n"
  | none => ""

end Cip

/-- The CIP text of a program. -/
def Program.cip {α : Type} [Scalar α] (p : Program α) : String :=
  let count := p.countVars
  let rows := p.rows.size
  String.join <|
    [ "STATISTICS\n",
      s!"  Problem name     : {p.name}\n",
      s!"  Variables        : {p.vars.size} ({count .binary} binary, {count .integer} integer, " ++
        s!"0 implicit integer, {count .continuous} continuous)\n",
      s!"  Constraints      : {rows} initial, {rows} maximal\n",
      "OBJECTIVE\n",
      s!"  Sense            : {p.sense.name}\n",
      "VARIABLES\n" ] ++
    p.vars.toList.mapIdx (Cip.variableLine p) ++
    ["CONSTRAINTS\n"] ++
    p.rows.toList.map (Cip.rowLine p) ++
    ["END\n"]

end HybridPlan
