import HybridPlan.Scalar

set_option autoImplicit false

/-! # Expressions

The expression language of planning domains: numbers, symbols, arithmetic, functions, comparisons,
and conjunctions and disjunctions of constraints. -/

namespace HybridPlan

/-! ## Operators and functions -/

/-- The functions that have a value. -/
inductive Elementary where
  | exp
  | log
  | sqrt
  | sin
  | cos
  | abs
  deriving DecidableEq, Hashable, Repr

namespace Elementary

def all : List Elementary := [exp, log, sqrt, sin, cos, abs]

def name : Elementary → String
  | exp => "exp"
  | log => "log"
  | sqrt => "sqrt"
  | sin => "sin"
  | cos => "cos"
  | abs => "abs"

def ofName? (s : String) : Option Elementary := all.find? (·.name = s)

theorem ofName?_name (f : Elementary) : ofName? f.name = some f := by cases f <;> rfl

def value {α : Type} [Scalar α] : Elementary → α → α
  | exp => Scalar.exp
  | log => Scalar.log
  | sqrt => Scalar.sqrt
  | sin => Scalar.sin
  | cos => Scalar.cos
  | abs => Scalar.abs

end Elementary

inductive Func where
  | elementary (f : Elementary)
  /-- `dd(X, Dt)`, the derivative of a state with respect to the duration of a stage. It stands on
  the left of a differential equation and has no value of its own. -/
  | dd
  deriving DecidableEq, Hashable, Repr

namespace Func

def name : Func → String
  | elementary f => f.name
  | dd => "dd"

/-- The function of a name, if there is one. -/
def ofName? (s : String) : Option Func :=
  if s = dd.name then some dd else (Elementary.ofName? s).map elementary

theorem ofName?_name (f : Func) : ofName? f.name = some f := by
  rcases f with f | _
  · cases f <;> rfl
  · rfl

/-- The number of arguments. -/
def arity : Func → Nat
  | elementary _ => 1
  | dd => 2

/-- The value of the function, if it has one. -/
def value? {α : Type} [Scalar α] : Func → α → Option α
  | elementary f, x => some (f.value x)
  | dd, _ => none

end Func

inductive Comparison where
  | lt
  | le
  | gt
  | ge
  | eq
  deriving DecidableEq, Hashable, Repr

namespace Comparison

def all : List Comparison := [lt, le, gt, ge, eq]

def symbol : Comparison → String
  | lt => "<"
  | le => "<="
  | gt => ">"
  | ge => ">="
  | eq => "=="

def ofSymbol? (s : String) : Option Comparison := all.find? (·.symbol = s)

theorem ofSymbol?_symbol (op : Comparison) : ofSymbol? op.symbol = some op := by cases op <;> rfl

/-- The comparison of the same two numbers in the other order. -/
def flip : Comparison → Comparison
  | lt => gt
  | le => ge
  | gt => lt
  | ge => le
  | eq => eq

theorem flip_flip (op : Comparison) : op.flip.flip = op := by cases op <;> rfl

def isStrict : Comparison → Bool
  | lt | gt => true
  | _ => false

end Comparison

inductive ArithOp where
  | add
  | sub
  | mul
  | div
  | pow
  deriving DecidableEq, Hashable, Repr

namespace ArithOp

def symbol : ArithOp → String
  | add => "+"
  | sub => "-"
  | mul => "*"
  | div => "/"
  | pow => "**"

/-- The operation on numbers. -/
def apply {α : Type} [Scalar α] : ArithOp → α → α → α
  | add, x, y => x + y
  | sub, x, y => x - y
  | mul, x, y => x * y
  | div, x, y => x / y
  | pow, x, y => Scalar.powReal x y

end ArithOp

/-- How several constraints are joined. -/
inductive Connective where
  | and
  | or
  deriving DecidableEq, Hashable, Repr

def Connective.word : Connective → String
  | and => "and"
  | or => "or"

/-! ## Trees -/

/-- An expression as a tree. -/
inductive Expr (α : Type) where
  | num (value : α)
  | sym (name : String)
  | neg (a : Expr α)
  | arith (op : ArithOp) (a b : Expr α)
  | call (f : Func) (args : List (Expr α))
  | compare (op : Comparison) (a b : Expr α)
  | join (c : Connective) (items : List (Expr α))

/-! ## Shared nodes -/

/-- The number of a node in an arena. -/
abbrev ExprId := Nat

/-- The outermost layer of an expression whose operands are nodes of an arena. -/
inductive Node (α : Type) where
  | num (value : α)
  | sym (name : String)
  | neg (a : ExprId)
  | arith (op : ArithOp) (a b : ExprId)
  | call (f : Func) (args : List ExprId)
  | compare (op : Comparison) (a b : ExprId)
  | join (c : Connective) (items : List ExprId)
  deriving DecidableEq, Hashable

/-- The operands, from left to right. -/
def Node.operands {α : Type} : Node α → List ExprId
  | num _ | sym _ => []
  | neg a => [a]
  | arith _ a b | compare _ a b => [a, b]
  | call _ items | join _ items => items

end HybridPlan
