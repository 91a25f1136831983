import HybridPlan.Expr.Basic
import HybridPlan.Interner

set_option autoImplicit false

/-! # Terms of a mathematical program

The bodies of the rows of a program: constants, variables, sums of any number of items, arithmetic
and functions. Terms are shared like expressions; their constructors fold constants, and a sum takes
over the items of the sums among its items and adds up the constants. -/

namespace HybridPlan

/-- The number of a variable of a program. -/
abbrev VarId := Nat

/-- The number of a term in its table. -/
abbrev TermId := Nat

inductive TermOp where
  | sub
  | mul
  | div
  | pow
  deriving DecidableEq, Hashable, Repr

def TermOp.symbol : TermOp → String
  | sub => "-"
  | mul => "*"
  | div => "/"
  | pow => "^"

def TermOp.value {α : Type} [Scalar α] : TermOp → α → α → α
  | sub, x, y => x - y
  | mul, x, y => x * y
  | div, x, y => x / y
  | pow, x, y => Scalar.pow x y

/-- A term as a tree. -/
inductive Term (α : Type) where
  | const (value : α)
  | var (v : VarId)
  | neg (a : Term α)
  | sum (items : List (Term α))
  | binary (op : TermOp) (a b : Term α)
  | call (f : Elementary) (a : Term α)

/-- The outermost layer of a term. -/
inductive TermNode (α : Type) where
  | const (value : α)
  | var (v : VarId)
  | neg (a : TermId)
  | sum (items : List TermId)
  | binary (op : TermOp) (a b : TermId)
  | call (f : Elementary) (a : TermId)
  deriving DecidableEq, Hashable

namespace Term

variable {α : Type} [Scalar α]

mutual

/-- The value of a term. -/
def eval (values : VarId → α) : Term α → α
  | const c => c
  | var v => values v
  | neg a => -eval values a
  | sum items => Scalar.sum (evalAll values items)
  | binary op a b => op.value (eval values a) (eval values b)
  | call f a => f.value (eval values a)

def evalAll (values : VarId → α) : List (Term α) → List α
  | [] => []
  | t :: ts => eval values t :: evalAll values ts

end

mutual

/-- The term in fully bracketed form, each operator before its operands. -/
def listed (name : VarId → String) : Term α → String
  | const c => Scalar.text c
  | var v => name v
  | neg a => "(neg " ++ listed name a ++ ")"
  | sum items => "(+" ++ listedAll name items ++ ")"
  | binary op a b => "(" ++ op.symbol ++ " " ++ listed name a ++ " " ++ listed name b ++ ")"
  | call f a => "(" ++ f.name ++ " " ++ listed name a ++ ")"

/-- The bracketed forms of several terms, a space before each. -/
def listedAll (name : VarId → String) : List (Term α) → String
  | [] => ""
  | t :: ts => " " ++ listed name t ++ listedAll name ts

end

end Term

/-- The terms made so far. -/
abbrev Terms (α : Type) [Scalar α] := Interner (TermNode α)

namespace Terms

variable {α : Type} [Scalar α]

/-- The node of a number. A number outside the table reads as the constant zero. -/
def node (ts : Terms α) (t : TermId) : TermNode α := ts.items.getD t (.const Scalar.zero)

def const? (ts : Terms α) (t : TermId) : Option α :=
  match node ts t with
  | .const c => some c
  | _ => none

/-- The tree of a term, down to the given number of levels. -/
def treeBelow (ts : Terms α) : Nat → TermId → Term α
  | 0, _ => .const Scalar.zero
  | n + 1, t =>
    match node ts t with
    | .const c => .const c
    | .var v => .var v
    | .neg a => .neg (treeBelow ts n a)
    | .sum items => .sum (items.map (treeBelow ts n))
    | .binary op a b => .binary op (treeBelow ts n a) (treeBelow ts n b)
    | .call f a => .call f (treeBelow ts n a)

/-- The tree that a node stands for. -/
def tree (ts : Terms α) (t : TermId) : Term α := treeBelow ts (t + 1) t

/-- The value of a term. -/
def eval (ts : Terms α) (values : VarId → α) (t : TermId) : α := (tree ts t).eval values

/-! ## Constructors -/

/-- A computation that may add terms. -/
abbrev Make (α : Type) [Scalar α] := StateM (Terms α)

def intern (node : TermNode α) : Make α TermId := modifyGet (Interner.intern · node)

/-- A constant; both zeros are the same constant. -/
def const (c : α) : Make α TermId := intern (.const (Scalar.unsignedZero c))

def var (v : VarId) : Make α TermId := intern (.var v)

/-- The opposite; of a constant computed. -/
def neg (a : TermId) : Make α TermId := do
  match const? (← get) a with
  | some c => const (-c)
  | none => intern (.neg a)

/-- The items of a sum without its constants, with the items of inner sums in their place. -/
def flatItems (ts : Terms α) (items : List TermId) : List TermId :=
  items.flatMap fun t =>
    match node ts t with
    | .const _ => []
    | .sum inner => inner
    | _ => [t]

/-- The constants among the items, added up. -/
def constantPart (ts : Terms α) (items : List TermId) : α :=
  (items.filterMap (const? ts)).foldl (· + ·) Scalar.zero

/-- The sum: without inner sums, its constants added up and put last if they do not vanish. One item
alone is itself. -/
def sum (items : List TermId) : Make α TermId := do
  let ts ← get
  let flat := flatItems ts items
  let c := constantPart ts items
  let all ← if !Scalar.isZero c || flat.isEmpty then do
      let c ← const c
      pure (flat ++ [c])
    else pure flat
  match all with
  | [t] => return t
  | _ => intern (.sum all)

def add (a b : TermId) : Make α TermId := sum [a, b]

/-- Whether a constant is the given number. -/
def isNum (value : α) (c : Option α) : Bool := c.any (Scalar.eq · value)

/-- The difference: of constants computed, and `a - 0` is `a`. -/
def sub (a b : TermId) : Make α TermId := do
  let ts ← get
  match const? ts a, const? ts b with
  | some x, some y => const (x - y)
  | _, y => if isNum Scalar.zero y then return a else intern (.binary .sub a b)

/-- The product: of constants computed, and a factor `1` is left out. -/
def mul (a b : TermId) : Make α TermId := do
  let ts ← get
  match const? ts a, const? ts b with
  | some x, some y => const (x * y)
  | x, y =>
    if isNum Scalar.one x then return b
    else if isNum Scalar.one y then return a
    else intern (.binary .mul a b)

/-- The quotient: of constants computed unless the divisor is zero, and `a / 1` is `a`. -/
def div (a b : TermId) : Make α TermId := do
  let ts ← get
  let (x, y) := (const? ts a, const? ts b)
  match x, y with
  | some u, some v =>
    if Scalar.isZero v then intern (.binary .div a b) else const (u / v)
  | _, _ => if isNum Scalar.one y then return a else intern (.binary .div a b)

/-- The power: of constants computed if the result is finite, and `a ^ 1` is `a`. -/
def pow (a b : TermId) : Make α TermId := do
  let ts ← get
  let (x, y) := (const? ts a, const? ts b)
  let general : Make α TermId :=
    if isNum Scalar.one y then return a else intern (.binary .pow a b)
  match x, y with
  | some u, some v =>
    let p := Scalar.pow u v
    if Scalar.isFinite p then const p else general
  | _, _ => general

/-- A function call; of a constant computed if the result is finite. -/
def call (f : Elementary) (a : TermId) : Make α TermId := do
  match const? (← get) a with
  | some c =>
    let value := f.value c
    if Scalar.isFinite value then const value else intern (.call f a)
  | none => intern (.call f a)

end Terms

end HybridPlan
