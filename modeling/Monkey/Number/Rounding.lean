/-!
# Rounding quotients

`roundQuotient num den` is the natural number nearest to `num / den`. A value
half way between two numbers goes to the even one.
-/

namespace Monkey

/-- The number nearest to `num / den`, the even one of two that are equally near. -/
def roundQuotient (num den : Nat) : Nat :=
  let quotient := num / den
  let twice := 2 * (num % den)
  if twice < den then quotient
  else if den < twice then quotient + 1
  else if quotient % 2 = 0 then quotient
  else quotient + 1

/-- A number that divides evenly is not rounded. -/
theorem roundQuotient_mul (n : Nat) {den : Nat} (h : 0 < den) :
    roundQuotient (n * den) den = n := by
  simp [roundQuotient, h]

end Monkey
