/-!
# Rounding a fraction

The whole number nearest to a fraction, a half going to the even neighbour.
Every rounding of the library, of numbers and of their texts, comes down to
this one.
-/

namespace Reckon

/-- The whole number nearest to `num / den`. -/
def roundHalfEven (num den : Nat) : Nat :=
  let quotient := num / den
  let rest := num % den
  if 2 * rest < den then quotient
  else if den < 2 * rest then quotient + 1
  else quotient + quotient % 2

end Reckon
