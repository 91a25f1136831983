set_option autoImplicit false

/-! # Numerals

The numbers that a text can write: an optional sign, then decimal digits with an optional point and
an optional exponent (`3`, `.5`, `5.`, `1e-6`), or one of the words `inf`, `infinity` and `nan` in
any case. `Numeral.read?` accepts a text exactly if all of it is such a numeral. -/

namespace HybridPlan.Decimal

/-- What a numeral writes, apart from its sign. -/
inductive Magnitude where
  /-- `digits * 10 ^ exponent` -/
  | decimal (digits : Nat) (exponent : Int)
  | infinity
  | undefined
  deriving DecidableEq, Repr

structure Numeral where
  negative : Bool
  magnitude : Magnitude
  deriving DecidableEq, Repr

/-- The value of a digit. -/
def digitValue (c : Char) : Nat := c.toNat - '0'.toNat

/-- The number written by decimal digits, the most significant first. -/
def ofDigits (cs : List Char) : Nat := cs.foldl (fun n c => 10 * n + digitValue c) 0

/-- An exponent with its optional sign; at least one digit, and nothing behind the digits. -/
def readExponent? (cs : List Char) : Option Int :=
  let (negative, digits) := match cs with
    | '-' :: r => (true, r)
    | '+' :: r => (false, r)
    | r => (false, r)
  if digits.isEmpty || !digits.all Char.isDigit then none
  else
    let n : Int := ofDigits digits
    some (if negative then -n else n)

/-- Digits with an optional point and an optional exponent; at least one digit before the
exponent. -/
def readDecimal? (cs : List Char) : Option Magnitude :=
  let whole := cs.takeWhile Char.isDigit
  let afterWhole := cs.dropWhile Char.isDigit
  let (fraction, afterFraction) := match afterWhole with
    | '.' :: r => (r.takeWhile Char.isDigit, r.dropWhile Char.isDigit)
    | r => ([], r)
  if whole.isEmpty && fraction.isEmpty then none
  else
    let digits := ofDigits (whole ++ fraction)
    match afterFraction with
    | [] => some (.decimal digits (-(fraction.length : Int)))
    | c :: r =>
      if c = 'e' || c = 'E' then
        (readExponent? r).map fun e => .decimal digits (e - fraction.length)
      else none

/-- The unsigned part of a numeral. -/
def Magnitude.read? (cs : List Char) : Option Magnitude :=
  let word := cs.map Char.toLower
  if word = ['i', 'n', 'f'] || word = ['i', 'n', 'f', 'i', 'n', 'i', 't', 'y'] then some .infinity
  else if word = ['n', 'a', 'n'] then some .undefined
  else readDecimal? cs

/-- The numeral that a text is, if it is one. -/
def Numeral.read? (cs : List Char) : Option Numeral :=
  match cs with
  | '-' :: r => (Magnitude.read? r).map (⟨true, ·⟩)
  | '+' :: r => (Magnitude.read? r).map (⟨false, ·⟩)
  | r => (Magnitude.read? r).map (⟨false, ·⟩)

/-! ## Natural numbers -/

/-- The natural number below a limit that a text writes: an optional plus sign, and at least one
digit. -/
def readNat? (limit : Nat) (cs : List Char) : Option Nat :=
  let digits := match cs with
    | '+' :: r => r
    | r => r
  if digits.isEmpty || !digits.all Char.isDigit then none
  else if ofDigits digits < limit then some (ofDigits digits) else none

end HybridPlan.Decimal
