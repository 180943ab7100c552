import Reckon.Single.Decimal

/-!
# Number to decimal text

A number is written with the fewest digits that read back as the same number,
and of those digits the nearest ones. The text is positional, without a power
of ten, without a point behind a whole number and without needless zeros, so
`0.1` stays `0.1` and the largest finite number takes 39 digits.

Fewest digits means the coarsest decimal grid: the texts whose last digit
stands at 10ᵖ are the multiples of 10ᵖ, and the search takes the largest `p`
for which some multiple lies in the interval of reals that round to the number.
Only the two multiples around the number have to be tried. The interval reaches
half way to either neighbour and contains its ends exactly if the pattern is
even, since a half goes to the even pattern. Distances are counted in quarters
of a unit, which makes both half ways whole, and are scaled by the power of ten
where `p` is negative.
-/

namespace Reckon.Single

/-- The distance to the next greater magnitude, in units. -/
def spacing (magnitude : Nat) : Nat := 1 <<< (magnitude / fractions - 1)

/-- Half the way up to the next magnitude, in quarters of a unit. -/
def reachAbove (magnitude : Nat) : Nat := 2 * spacing magnitude

/-- Half the way down to the magnitude before, in quarters of a unit. It is
shorter at a power of two, where the spacing changes. -/
def reachBelow (magnitude : Nat) : Nat :=
  if magnitude % fractions = 0 ∧ fractions < magnitude then spacing magnitude
  else 2 * spacing magnitude

/-- Whether a text this far from the number still reads back as it. -/
def inReach (magnitude distance reach : Nat) : Bool :=
  if magnitude % 2 = 0 then decide (distance ≤ reach)
    else decide (distance < reach)

/-- The multiple of `10 ^ power` that reads back as the number, if there is one,
given by its factor. Of two the nearer is taken, and the greater if they are
equally near. -/
def onGrid? (magnitude : Nat) (power : Int) : Option Nat :=
  let step := powerOfTen power.toNat * (4 * unitsOfOne)
  let scale := powerOfTen (-power).toNat
  let value := 4 * unitsOf magnitude * scale
  let low := value / step
  let short := value - low * step
  let excess := (low + 1) * step - value
  let lowFits := inReach magnitude short (reachBelow magnitude * scale)
  let highFits := inReach magnitude excess (reachAbove magnitude * scale)
  if lowFits && (!highFits || short < excess) then some low
  else if highFits then some (low + 1)
  else none

/-- The places a last digit can stand at: no number reaches 10³⁹, and neighbours
are more than 10⁻⁴⁵ apart. -/
def places : List Int := (List.range 84).map fun (i : Nat) => 38 - (i : Int)

/-- Factor and power of the shortest decimal for a positive magnitude. -/
def shortest (magnitude : Nat) : Nat × Int :=
  (places.findSome? fun power => (onGrid? magnitude power).map (·, power)).getD
    (0, 0)

/-- Writes `factor * 10 ^ power` without a power of ten. -/
def positional (factor : Nat) (power : Int) : List Char :=
  let digits := Nat.toDigits 10 factor
  if 0 ≤ power then digits ++ List.replicate power.toNat '0'
  else
    let after := (-power).toNat
    let digits := List.replicate (after + 1 - digits.length) '0' ++ digits
    digits.take (digits.length - after) ++ '.' :: digits.drop
      (digits.length - after)

/-- The text of a number without its sign. -/
def magnitudeText (magnitude : Nat) : List Char :=
  if magnitude = infinityPattern then ['i', 'n', 'f']
  else if magnitude = 0 then ['0']
  else
    let (factor, power) := shortest magnitude
    positional factor power

/-- The text of a number. A pattern that is no number has no sign in its
text. -/
def toText (a : Single) : String :=
  if a.isNaN then "NaN"
  else
    let digits := magnitudeText a.magnitude
    String.ofList (if a.isNegative then '-' :: digits else digits)

instance : ToString Single := ⟨toText⟩

end Reckon.Single
