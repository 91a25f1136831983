import HybridPlan.Expr.Basic
import HybridPlan.Interner
import HybridPlan.Source.Span

set_option autoImplicit false

/-! # Arenas of shared expressions

An arena holds every distinct expression once. A node refers to its operands by their numbers, and
operands are interned before the nodes that use them, so an operand has a smaller number than its
node; a walk down from node `e` meets at most `e + 1` levels. Equal expressions of one arena have
equal numbers.

Expressions are made by the constructors in the namespace `Build`. They fold numbers and apply the
plainest laws of arithmetic, so that derivatives and substitutions stay small. -/

namespace HybridPlan

/-- The distinct expressions made so far. -/
structure Arena (α : Type) [Scalar α] where
  /-- The nodes. -/
  table : Interner (Node α) := {}
  /-- Where each symbol was written when it was interned. -/
  origins : Std.HashMap String Span := {}

/-- A computation that may add expressions to an arena. -/
abbrev Build (α : Type) [Scalar α] := StateM (Arena α)

/-- A construction that can fail. What was added to the arena before a failure stays. -/
abbrev Build.Attempt (α : Type) [Scalar α] (ε : Type) := ExceptT ε (Build α)

namespace Arena

variable {α : Type} [Scalar α] (a : Arena α)

/-- The number of distinct expressions. -/
def size : Nat := a.table.size

/-- The node of a number. A number outside the arena reads as the number zero. -/
def node (e : ExprId) : Node α := a.table.items.getD e (.num Scalar.zero)

/-- The value of a literal. -/
def num? (e : ExprId) : Option α :=
  match a.node e with
  | .num v => some v
  | _ => none

/-- The name of a symbol. -/
def sym? (e : ExprId) : Option String :=
  match a.node e with
  | .sym s => some s
  | _ => none

def isZero (e : ExprId) : Bool := (a.num? e).any Scalar.isZero

/-- The symbol together with the place where it was first written. -/
def symName? (e : ExprId) : Option Name := (a.sym? e).map fun s => ⟨s, a.origins[s]?⟩

/-- The tree of an expression, down to the given number of levels. -/
def treeBelow : Nat → ExprId → Expr α
  | 0, _ => .num Scalar.zero
  | n + 1, e =>
    match a.node e with
    | .num v => .num v
    | .sym s => .sym s
    | .neg x => .neg (treeBelow n x)
    | .arith op x y => .arith op (treeBelow n x) (treeBelow n y)
    | .call f args => .call f (args.map (treeBelow n))
    | .compare op x y => .compare op (treeBelow n x) (treeBelow n y)
    | .join c items => .join c (items.map (treeBelow n))

/-- The tree that a node stands for. -/
def tree (e : ExprId) : Expr α := a.treeBelow (e + 1) e

end Arena

namespace Build

variable {α : Type} [Scalar α]

/-- The number of a node, which is added to the arena if it is new. A new symbol keeps the place
where it was written. -/
def intern (node : Node α) (origin : Option (String × Span) := none) : Build α ExprId :=
  modifyGet fun ⟨table, origins⟩ =>
    let isNew := (table.find? node).isNone
    let (e, table) := table.intern node
    let origins := match isNew, origin with
      | true, some (s, span) => origins.insert s span
      | _, _ => origins
    (e, ⟨table, origins⟩)

/-- A literal; both zeros are the same literal. -/
def num (value : α) : Build α ExprId := intern (.num (Scalar.unsignedZero value))

def zero : Build α ExprId := num Scalar.zero

def one : Build α ExprId := num Scalar.one

/-- A symbol. -/
def sym (name : Name) : Build α ExprId := intern (.sym name.text) (name.span.map (name.text, ·))

/-- The opposite: of a number computed, of an opposite its operand. -/
def neg (x : ExprId) : Build α ExprId := do
  match (← get).node x with
  | .num v => num (-v)
  | .neg y => pure y
  | _ => intern (.neg x)

/-- The sum: of numbers computed, `0 + y` is `y`, and `x + 0` is `x`. -/
def add (x y : ExprId) : Build α ExprId := do
  let a ← get
  match a.num? x, a.num? y with
  | some u, some v => num (u + v)
  | u, v =>
    if u.any Scalar.isZero then pure y
    else if v.any Scalar.isZero then pure x
    else intern (.arith .add x y)

/-- The difference: of numbers computed, `x - x` is `0`, `0 - y` is `-y`, and `x - 0` is `x`. -/
def sub (x y : ExprId) : Build α ExprId := do
  if x = y then zero
  else
    let a ← get
    match a.num? x, a.num? y with
    | some u, some v => num (u - v)
    | u, v =>
      if u.any Scalar.isZero then neg y
      else if v.any Scalar.isZero then pure x
      else intern (.arith .sub x y)

/-- Whether a literal is the given number. -/
def isNum (value : α) (u : Option α) : Bool := u.any (Scalar.eq · value)

/-- The product: of numbers computed, and a factor `0`, `1` or `-1` is worked out. -/
def mul (x y : ExprId) : Build α ExprId := do
  let a ← get
  match a.num? x, a.num? y with
  | some u, some v => num (u * v)
  | u, v =>
    if isNum Scalar.zero u || isNum Scalar.zero v then zero
    else if isNum Scalar.one u then pure y
    else if isNum Scalar.one v then pure x
    else if isNum (-Scalar.one) u then neg y
    else if isNum (-Scalar.one) v then neg x
    else intern (.arith .mul x y)

/-- The quotient: of numbers computed unless the divisor is zero, `0 / y` is `0`, `x / 1` is `x`,
and `x / x` is `1`. -/
def div (x y : ExprId) : Build α ExprId := do
  let a ← get
  let otherwise (u v : Option α) : Build α ExprId :=
    if isNum Scalar.zero u then pure x
    else if isNum Scalar.one v then pure x
    else if x = y then one
    else intern (.arith .div x y)
  match a.num? x, a.num? y with
  | some u, some v => if Scalar.isZero v then otherwise (some u) (some v) else num (u / v)
  | u, v => otherwise u v

/-- The power: `x ** 0` is `1`, `x ** 1` is `x`, and of numbers computed if the result is finite. -/
def pow (x y : ExprId) : Build α ExprId := do
  let a ← get
  let (u, v) := (a.num? x, a.num? y)
  if isNum Scalar.zero v then one
  else if isNum Scalar.one v then pure x
  else match u, v with
    | some u, some v =>
      let p := Scalar.pow u v
      if Scalar.isFinite p then num p else intern (.arith .pow x y)
    | _, _ => intern (.arith .pow x y)

/-- The power with an integer exponent. -/
def powInt (x : ExprId) (n : Int) : Build α ExprId := do
  let e ← num (Scalar.int n)
  pow x e

/-- The constructor of an arithmetic operator. -/
def arith : ArithOp → ExprId → ExprId → Build α ExprId
  | .add => add
  | .sub => sub
  | .mul => mul
  | .div => div
  | .pow => pow

/-- A function call; of one number computed if the result is finite. -/
def call (f : Func) (args : List ExprId) : Build α ExprId := do
  let a ← get
  let value := match args with
    | [x] => (a.num? x).bind f.value?
    | _ => none
  match value with
  | some v => if Scalar.isFinite v then num v else intern (.call f args)
  | none => intern (.call f args)

/-- A call of a function that has a value. -/
def call₁ (f : Elementary) (x : ExprId) : Build α ExprId := call (.elementary f) [x]

def compare (op : Comparison) (x y : ExprId) : Build α ExprId := intern (.compare op x y)

/-- Several constraints joined; one alone is itself. -/
def join (c : Connective) (items : List ExprId) : Build α ExprId :=
  match items with
  | [x] => pure x
  | _ => intern (.join c items)

end Build

end HybridPlan
