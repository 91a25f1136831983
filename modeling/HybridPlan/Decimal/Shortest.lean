set_option autoImplicit false

/-! # Shortest decimals

A binary floating-point number stands for an interval of reals: all those that round to it. Its
shortest decimal is the one of fewest digits in that interval, and of several the nearest to the
number itself. The search tries one digit, two digits, … and tests on each grid of decimals the two
neighbours of the number, in exact arithmetic. -/

namespace HybridPlan.Decimal

/-- The non-negative number `significand * 2 ^ exponent`. -/
structure Binary where
  significand : Nat
  exponent : Int
  /-- The gap to the next smaller number is half of that to the next larger one. -/
  narrowBelow : Bool
  deriving DecidableEq, Repr

/-- The magnitude held by the bits of a finite double-precision number. -/
def Binary.ofBits (bits : UInt64) : Binary :=
  let biased := ((bits >>> 52) &&& 0x7FF).toNat
  let fraction := (bits &&& 0xFFFFFFFFFFFFF).toNat
  if biased = 0 then ⟨fraction, -1074, false⟩
  else ⟨Nat.pow 2 52 + fraction, (biased : Int) - 1075, fraction = 0 && biased > 1⟩

/-- The decimal `digits * 10 ^ exponent`. -/
structure Digits where
  digits : Nat
  exponent : Int
  deriving DecidableEq, Repr

/-- The exact quotient of two naturals that equals `n * 2 ^ e`. -/
def twoScaled (n : Nat) (e : Int) : Nat × Nat := (n * Nat.pow 2 e.toNat, Nat.pow 2 (-e).toNat)

/-- How `a * 10 ^ i` compares with `n * 2 ^ j`. -/
def compareScaled (a : Nat) (i : Int) (n : Nat) (j : Int) : Ordering :=
  compare (a * Nat.pow 10 i.toNat * Nat.pow 2 (-j).toNat)
    (n * Nat.pow 2 j.toNat * Nat.pow 10 (-i).toNat)

/-- Whether the decimal lies among the reals that round to `x`. The ends of the interval belong to
it exactly if the significand is even. -/
def Binary.covers (x : Binary) (d : Digits) : Bool :=
  let low := 4 * x.significand - (if x.narrowBelow then 1 else 2)
  let high := 4 * x.significand + 2
  let even := x.significand % 2 = 0
  let toLow := compareScaled d.digits d.exponent low (x.exponent - 2)
  let toHigh := compareScaled d.digits d.exponent high (x.exponent - 2)
  (toLow = .gt || (even && toLow = .eq)) && (toHigh = .lt || (even && toHigh = .eq))

/-- The largest grid point `k * 10 ^ e` that is at most `x`, as `k`. -/
def Binary.gridFloor (x : Binary) (e : Int) : Nat :=
  let (num, den) := twoScaled x.significand x.exponent
  (num * Nat.pow 10 (-e).toNat) / (den * Nat.pow 10 e.toNat)

/-- The grid neighbour of `x` that reads back as `x`: of two such neighbours the nearer one, and on
a tie the larger one. -/
def Binary.onGrid? (x : Binary) (e : Int) : Option Digits :=
  let k := x.gridFloor e
  let below : Digits := ⟨k, e⟩
  let above : Digits := ⟨k + 1, e⟩
  match x.covers below, x.covers above with
  | false, false => none
  | true, false => some below
  | false, true => some above
  | true, true =>
    match compareScaled (2 * k + 1) e (2 * x.significand) x.exponent with
    | .gt => some below
    | .lt | .eq => some above

/-- The first grid with a hit, among the grids `10 ^ top`, `10 ^ (top - 1)`, …; at most `n` of
them. -/
def Binary.search (x : Binary) : Nat → Int → Option Digits
  | 0, _ => none
  | n + 1, top => match x.onGrid? top with
    | some d => some d
    | none => x.search n (top - 1)

/-- An exponent `k` with `x < 10 ^ k` that exceeds the least such exponent by little. -/
def Binary.decimalBound (x : Binary) : Int :=
  let bits : Int := (Nat.log2 x.significand : Int) + 1 + x.exponent
  bits * 30103 / 100000 + 2

/-- The shortest decimal that reads back as `x`. Should no grid have a hit, the exact value of `x`
is its decimal. -/
def Binary.shortest (x : Binary) : Digits :=
  if x.significand = 0 then ⟨0, 0⟩
  else match x.search 22 x.decimalBound with
    | some d => d
    | none =>
      let (num, _) := twoScaled x.significand x.exponent
      if x.exponent ≥ 0 then ⟨num, 0⟩
      else ⟨x.significand * Nat.pow 5 (-x.exponent).toNat, x.exponent⟩

/-! ## Positional notation -/

/-- The digits of a natural number. -/
def natText (n : Nat) : String := toString n

/-- The decimal without an exponent: digits, and a point with further digits if it is no integer.
Zeros that end the fraction are not written. -/
def Digits.positional (d : Digits) : String :=
  if d.digits = 0 then "0"
  else if d.exponent ≥ 0 then natText (d.digits * Nat.pow 10 d.exponent.toNat)
  else
    let places := (-d.exponent).toNat
    let whole := d.digits / Nat.pow 10 places
    let fraction := d.digits % Nat.pow 10 places
    if fraction = 0 then natText whole
    else
      let written := (natText fraction).toList
      let padded := List.replicate (places - written.length) '0' ++ written
      let trimmed := (padded.reverse.dropWhile (· = '0')).reverse
      natText whole ++ "." ++ String.ofList trimmed

end HybridPlan.Decimal
