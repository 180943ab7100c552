import Reckon.Rounding

/-!
# Percentages

A share in percent with one digit behind the point. The share is computed in
double precision, quotient first, and what is rounded to tenths is the exact
value of that double, a half going to the even tenth.
-/

namespace Reckon.Text

/-- A non-negative finite double in tenths, rounded. -/
def tenths (value : Float) : Nat :=
  let bits := value.toBits.toNat
  let exponent := bits >>> 52
  let fraction := bits - exponent <<< 52
  let digits := if exponent = 0 then fraction else 1 <<< 52 + fraction
  roundHalfEven ((digits * 10) <<< (exponent - 1075))
    (1 <<< (1075 - max exponent 1))

/-- The share of a part in percent. The share in nothing counts as one in
one. -/
def percentage (part whole : Nat) : String :=
  let n := tenths (Float.ofNat part / Float.ofNat (max whole 1) * 100)
  toString (n / 10) ++ "." ++ toString (n % 10)

end Reckon.Text
