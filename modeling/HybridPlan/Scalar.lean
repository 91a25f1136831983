import HybridPlan.Decimal.Numeral

set_option autoImplicit false

/-! # Numbers

Every numeric computation of the library is written once, against the class `Scalar`, so that the
same definitions run on binary floating point and can be studied over exact numbers. A scalar type
has the usual arithmetic, comparisons that answer yes or no, two infinities, and undefined numbers,
which compare with nothing, not even with themselves.

Equality of scalars as data, `x = y`, is decidable and separate from the numeric comparison
`Scalar.eq`: it tells `0` from `-0`, it may tell undefined numbers apart, and it holds between a
number and itself even if that number is undefined. -/

namespace HybridPlan

/-- Numbers with arithmetic, comparisons, infinities and undefined values. -/
class Scalar (α : Type) extends Neg α, Add α, Sub α, Mul α, Div α, Hashable α where
  /-- Equality as data. -/
  decEq : DecidableEq α
  /-- The number `digits * 10 ^ exponent`, rounded to the nearest representable one. -/
  ofDecimal : Nat → Int → α
  infinity : α
  /-- The undefined number that a numeral writes. -/
  undefined : α
  lt : α → α → Bool
  le : α → α → Bool
  /-- Numeric equality: `0` and `-0` are equal, an undefined number equals nothing. -/
  eq : α → α → Bool
  abs : α → α
  exp : α → α
  /-- Natural logarithm. -/
  log : α → α
  sqrt : α → α
  sin : α → α
  cos : α → α
  /-- Power with an arbitrary exponent. -/
  pow : α → α → α
  /-- The integer that the number is, if it is one. -/
  toInt? : α → Option Int
  /-- The nearest integer, halves going away from zero, clamped to 64 bits; an undefined number
  gives `0`. -/
  nearest64 : α → Int64
  /-- The number in decimal notation. -/
  text : α → String

namespace Scalar

variable {α : Type} [Scalar α]

instance (priority := low) : DecidableEq α := Scalar.decEq

/-! ## Literals -/

/-- A natural number as a scalar. -/
def nat (n : Nat) : α := ofDecimal n 0

def zero : α := nat 0

def one : α := nat 1

/-- An integer as a scalar. -/
def int (i : Int) : α := if i < 0 then -nat i.natAbs else nat i.natAbs

/-- The number that a numeral writes. -/
def ofNumeral (n : Decimal.Numeral) : α :=
  let magnitude : α := match n.magnitude with
    | .decimal digits exponent => ofDecimal digits exponent
    | .infinity => infinity
    | .undefined => undefined
  if n.negative then -magnitude else magnitude

/-- The number that a text writes, if it is a numeral. -/
def read? (s : String) : Option α := (Decimal.Numeral.read? s.toList).map ofNumeral

/-! ## Classification and order -/

def isUndefined (x : α) : Bool := !eq x x

def isFinite (x : α) : Bool := lt (abs x) (infinity : α)

def isZero (x : α) : Bool := eq x (zero : α)

/-- The larger of two numbers; an undefined one is ignored. Of two equal ones it is the second, so
of `0` and `-0` the one that comes last. -/
def max (x y : α) : α :=
  if isUndefined x then y else if isUndefined y then x else if lt y x then x else y

/-- The smaller of two numbers; an undefined one is ignored. Of two equal ones it is the second, as
for `max`. -/
def min (x y : α) : α :=
  if isUndefined x then y else if isUndefined y then x else if lt x y then x else y

/-- Zero without its sign, all other numbers as they are. -/
def unsignedZero (x : α) : α := if isZero x then zero else x

/-! ## Sums and powers -/

/-- The sum from left to right. The sum of nothing is `-0`, the number that changes no other one
when added to it. -/
def sum (xs : List α) : α := xs.foldl (· + ·) (-zero)

/-- `power m a p` is `m * a ^ p` by repeated squaring. -/
def power (m a : α) (p : Nat) : α :=
  if p ≤ 1 then
    if p = 1 then m * a else m
  else
    power (if p % 2 = 1 then m * a else m) (a * a) (p / 2)
termination_by p

/-- Power with an integer exponent. -/
def powInt (a : α) (n : Int) : α :=
  let r := power one a n.natAbs
  if n < 0 then one / r else r

/-- The largest exponent for which a power is computed by multiplication, `2 ^ 31 - 1`. -/
def maxIntExponent : Nat := 2147483647

/-- The power as expressions mean it: integer exponents are computed by multiplication, so that
they apply to every base. -/
def powReal (base exponent : α) : α :=
  match toInt? exponent with
  | some n => if n.natAbs ≤ maxIntExponent then powInt base n else pow base exponent
  | none => pow base exponent

end Scalar

end HybridPlan
