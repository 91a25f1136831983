import HybridPlan.Decimal.Fixed
import HybridPlan.Scalar

set_option autoImplicit false

/-! # Double precision as scalars

`Binary64` is the scalar type that the program runs on: the numbers of double precision, where an
undefined number has a sign like any other. Data equality tells all of them apart, `0` from `-0`
as well as the two undefined numbers; to the numeric comparisons and in every text these two are
the same. The text of a number is the shortest decimal that reads back, in positional notation. -/

namespace HybridPlan

/-- A number in double precision. -/
inductive Binary64 where
  | number (value : Float) (defined : value.isNaN = false)
  | undefined (negative : Bool)
  deriving DecidableEq

namespace Binary64

/-! ## Arithmetic -/

/-- The number as the machine computes with it. -/
def toFloat : Binary64 → Float
  | number x _ => x
  | undefined _ => 0 / 0

/-- The sign of an undefined number. -/
def undefinedSign? : Binary64 → Option Bool
  | number _ _ => none
  | undefined negative => some negative

/-- A result of the machine. If it is undefined, it has the sign of the operand that was undefined
before it; without one, it is negative. -/
def ofFloat (x : Float) (operandSign : Option Bool := none) : Binary64 :=
  if h : x.isNaN then undefined (operandSign.getD true) else number x (by simpa using h)

/-- A function of one number, computed by the machine. -/
def unary (f : Float → Float) (x : Binary64) : Binary64 := ofFloat (f x.toFloat) x.undefinedSign?

/-- A function of two numbers, computed by the machine. Of two undefined operands the first one
gives the sign of the result. -/
def binary (f : Float → Float → Float) (x y : Binary64) : Binary64 :=
  ofFloat (f x.toFloat y.toFloat) (x.undefinedSign?.or y.undefinedSign?)

/-- The opposite number. -/
def neg : Binary64 → Binary64
  | number x _ => ofFloat (-x)
  | undefined negative => undefined !negative

/-- The number without its sign. -/
def abs : Binary64 → Binary64
  | number x _ => ofFloat x.abs
  | undefined _ => undefined false

/-- `digits * 10 ^ exponent`, rounded to nearest. Numbers far outside the range of the format are
answered from their order of magnitude alone. -/
def ofDecimal (digits : Nat) (exponent : Int) : Binary64 :=
  if digits = 0 then ofFloat 0
  else
    let order : Int := (toString digits).length + exponent
    if order > 310 then ofFloat (1 / 0)
    else if order < -330 then ofFloat 0
    else ofFloat (Float.ofScientific digits (exponent < 0) exponent.natAbs)

/-! ## Exact values -/

/-- Whether the sign bit of a number is set. -/
def isNegative (x : Binary64) : Bool := x.toFloat.toBits >>> 63 = 1

/-- The magnitude of a finite number. -/
def magnitude? (x : Binary64) : Option Decimal.Binary :=
  if x.toFloat.isFinite then some (.ofBits x.toFloat.toBits) else none

/-- The magnitude of a finite number as a quotient of naturals. -/
def quotient? (x : Binary64) : Option (Nat × Nat) :=
  x.magnitude?.map fun b => Decimal.twoScaled b.significand b.exponent

/-- An integer of the given size with the sign of the number. -/
def withSign (x : Binary64) (n : Nat) : Int := if x.isNegative then -n else n

/-- The integer that a finite number is, if it is one. -/
def toInt? (x : Binary64) : Option Int :=
  x.quotient?.bind fun (num, den) => if num % den = 0 then some (x.withSign (num / den)) else none

/-- Clamps an integer to 64 bits. -/
def clamp64 (i : Int) : Int64 :=
  if i < Int64.minValue.toInt then Int64.minValue
  else if i > Int64.maxValue.toInt then Int64.maxValue
  else Int64.ofInt i

/-- The nearest integer, halves away from zero, clamped to 64 bits. -/
def nearest64 (x : Binary64) : Int64 :=
  match x, x.quotient? with
  | undefined _, _ => 0
  | _, none => if x.isNegative then Int64.minValue else Int64.maxValue
  | _, some (num, den) => clamp64 (x.withSign ((2 * num + den) / (2 * den)))

/-! ## Texts -/

/-- The number with its sign, a finite magnitude written by `write`. Infinities and undefined
numbers have names, and the sign of the latter is not shown. -/
def signed (x : Binary64) (write : Decimal.Binary → String) : String :=
  match x with
  | undefined _ => "NaN"
  | x =>
    let magnitude := (x.magnitude?.map write).getD "inf"
    if x.isNegative then "-" ++ magnitude else magnitude

/-- The shortest decimal that reads back, without an exponent. -/
def text (x : Binary64) : String := x.signed fun b => b.shortest.positional

/-- The number with exactly `places` digits behind the point. -/
def fixedText (places : Nat) (x : Binary64) : String := x.signed fun b => b.fixed places

/-! ## The scalar type -/

instance : Scalar Binary64 where
  hash
    | number x _ => hash x.toBits
    | undefined negative => hash negative
  decEq := inferInstance
  neg := neg
  add := binary (· + ·)
  sub := binary (· - ·)
  mul := binary (· * ·)
  div := binary (· / ·)
  ofDecimal := ofDecimal
  infinity := ofFloat (1 / 0)
  undefined := undefined false
  lt x y := x.toFloat < y.toFloat
  le x y := x.toFloat ≤ y.toFloat
  eq x y := x.toFloat == y.toFloat
  abs := abs
  exp := unary Float.exp
  log := unary Float.log
  sqrt := unary Float.sqrt
  sin := unary Float.sin
  cos := unary Float.cos
  pow := binary Float.pow
  toInt? := toInt?
  nearest64 := nearest64
  text := text

/-! ## Laws of undefined numbers -/

/-- Taking the opposite of an undefined number twice gives it back. -/
theorem neg_neg_undefined (negative : Bool) :
    neg (neg (undefined negative)) = undefined negative := by
  simp [neg]

/-- An undefined number is not its opposite. -/
theorem neg_undefined_ne (negative : Bool) : neg (undefined negative) ≠ undefined negative := by
  cases negative <;> simp [neg]

/-- An undefined number is written without its sign. -/
theorem text_undefined (negative : Bool) : text (undefined negative) = "NaN" := rfl

end Binary64

end HybridPlan
