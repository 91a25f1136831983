import HybridPlan.Decimal.Shortest

set_option autoImplicit false

/-! # Fixed places

The exact value of a number rounded to a given number of decimal places, a half going to the even
neighbour. -/

namespace HybridPlan.Decimal

/-- The quotient rounded to the nearest natural, a half to the even neighbour. -/
def roundDiv (num den : Nat) : Nat :=
  let q := num / den
  let twice := 2 * (num % den)
  if twice < den then q
  else if den < twice then q + 1
  else if q % 2 = 0 then q else q + 1

/-- The rounded quotient is off by half a unit at most. -/
theorem roundDiv_near {num den : Nat} (h : 0 < den) :
    2 * num ≤ 2 * (roundDiv num den * den) + den ∧ 2 * (roundDiv num den * den) ≤ 2 * num + den := by
  have hdiv := Nat.div_add_mod num den
  have hmod := Nat.mod_lt num h
  have hsucc : (num / den + 1) * den = num / den * den + den := Nat.succ_mul _ _
  rw [Nat.mul_comm] at hdiv
  unfold roundDiv
  simp only
  split
  · omega
  split
  · omega
  split
  · omega
  · omega

/-- A half goes to the even neighbour. -/
theorem roundDiv_even_of_tie {num den : Nat} (h : 2 * (num % den) = den) :
    roundDiv num den % 2 = 0 := by
  unfold roundDiv
  simp only [h, Nat.lt_irrefl, if_false]
  split <;> omega

/-- The quotient with exactly `places` digits behind the point. -/
def fixedQuotient (places num den : Nat) : String :=
  let scaled := roundDiv (num * Nat.pow 10 places) den
  let whole := natText (scaled / Nat.pow 10 places)
  if places = 0 then whole
  else
    let fraction := (natText (scaled % Nat.pow 10 places)).toList
    whole ++ "." ++ String.ofList (List.replicate (places - fraction.length) '0' ++ fraction)

/-- The magnitude with exactly `places` digits behind the point. -/
def Binary.fixed (x : Binary) (places : Nat) : String :=
  let (num, den) := twoScaled x.significand x.exponent
  fixedQuotient places num den

end HybridPlan.Decimal
