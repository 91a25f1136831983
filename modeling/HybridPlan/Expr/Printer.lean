import HybridPlan.Expr.Arena

set_option autoImplicit false

/-! # The text of an expression

Expressions are written with the parentheses that their operators need and no others. `Expr.listed`
is the fully bracketed form, head first. -/

namespace HybridPlan

/-- How tightly an arithmetic operator binds. -/
def ArithOp.precedence : ArithOp → Nat
  | add | sub => 4
  | mul | div => 5
  | pow => 7

def Connective.precedence : Connective → Nat
  | or => 1
  | and => 2

namespace Expr

variable {α : Type} [Scalar α]

/-- How tightly the outermost layer binds; a negative number binds like an opposite. -/
def precedence : Expr α → Nat
  | num v => if Scalar.lt v Scalar.zero then 6 else 8
  | sym _ | call _ _ => 8
  | neg _ => 6
  | arith op _ _ => op.precedence
  | compare _ _ _ => 3
  | join c _ => c.precedence

/-- A text in parentheses if they are needed. -/
def parenthesize (needed : Bool) (s : String) : String := if needed then "(" ++ s ++ ")" else s

/-- Whether the left operand needs parentheses: the power associates to the right. -/
def leftNeeds (op : ArithOp) (p : Nat) : Bool :=
  if op = .pow then p ≤ op.precedence else p < op.precedence

/-- Whether the right operand needs parentheses: subtraction and division associate to the left. -/
def rightNeeds (op : ArithOp) (p : Nat) : Bool :=
  if op = .sub || op = .div then p ≤ op.precedence else p < op.precedence

mutual

/-- The expression as it is written in a domain. -/
def text : Expr α → String
  | num v => Scalar.text v
  | sym s => s
  | neg a => "-" ++ parenthesize (precedence a ≤ 6) (text a)
  | arith op a b =>
    parenthesize (leftNeeds op (precedence a)) (text a) ++ " " ++ op.symbol ++ " " ++
      parenthesize (rightNeeds op (precedence b)) (text b)
  | call f args => f.name ++ "(" ++ String.intercalate ", " (texts args) ++ ")"
  | compare op a b =>
    parenthesize (precedence a < 3) (text a) ++ " " ++ op.symbol ++ " " ++
      parenthesize (precedence b ≤ 3) (text b)
  | join c items => String.intercalate (" " ++ c.word ++ " ") (itemTexts c.precedence items)

/-- The texts of several expressions. -/
def texts : List (Expr α) → List String
  | [] => []
  | e :: es => text e :: texts es

/-- The texts of the items of a connective that binds with strength `p`. -/
def itemTexts (p : Nat) : List (Expr α) → List String
  | [] => []
  | e :: es => parenthesize (precedence e ≤ p) (text e) :: itemTexts p es

end

mutual

/-- The expression in fully bracketed form, each operator before its operands. -/
def listed : Expr α → String
  | num v => Scalar.text v
  | sym s => s
  | neg a => "(neg " ++ listed a ++ ")"
  | arith op a b => "(" ++ op.symbol ++ " " ++ listed a ++ " " ++ listed b ++ ")"
  | call f args => "(" ++ f.name ++ listedAll args ++ ")"
  | compare op a b => "(" ++ op.symbol ++ " " ++ listed a ++ " " ++ listed b ++ ")"
  | join c items => "(" ++ c.word ++ listedAll items ++ ")"

/-- The bracketed forms of several expressions, a space before each. -/
def listedAll : List (Expr α) → String
  | [] => ""
  | e :: es => " " ++ listed e ++ listedAll es

end

end Expr

/-- The text of an expression of the arena. -/
def Arena.text {α : Type} [Scalar α] (a : Arena α) (e : ExprId) : String := (a.tree e).text

end HybridPlan
