import HybridPlan.Scalar.Binary64

set_option autoImplicit false

/-! # Lengths of time

Lengths of time are counted in nanoseconds; users and solvers give and take them in seconds. -/

namespace HybridPlan

/-- A length of time in nanoseconds. -/
abbrev Nanoseconds := Nat

/-- Why a number of seconds is not a length of time. -/
inductive DurationError where
  | negative
  | tooLong
  deriving DecidableEq, Repr

def DurationError.text : DurationError → String
  | negative => "value is negative"
  | tooLong => "value is either too big or NaN"

namespace Nanoseconds

/-- The nanoseconds of a second. -/
def perSecond : Nat := 1000000000

/-- The number of whole seconds from which on a length of time is too long, `2 ^ 64`. -/
def maxSeconds : Nat := 18446744073709551616

/-- The longest length of time. -/
def longest : Nanoseconds := maxSeconds * perSecond - 1

/-- A number of seconds to the nearest nanosecond, a half going to the even neighbour. -/
def ofSeconds (x : Binary64) : Except DurationError Nanoseconds :=
  if Scalar.lt x Scalar.zero then .error .negative
  else match x.quotient? with
    | none => .error .tooLong
    | some (num, den) =>
      let n := Decimal.roundDiv (num * perSecond) den
      if n ≤ longest then .ok n else .error .tooLong

/-- The number of seconds: whole seconds and the rest, each rounded, and their sum. -/
def toSeconds {α : Type} [Scalar α] (n : Nanoseconds) : α :=
  Scalar.nat (n / perSecond) + Scalar.nat (n % perSecond) / Scalar.nat perSecond

/-- The seconds with three places. -/
def secondsText (n : Nanoseconds) : String := Decimal.fixedQuotient 3 n perSecond

end Nanoseconds

end HybridPlan
