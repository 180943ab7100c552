import Reckon.Rounding

/-!
# Single-precision numbers

The only numbers of the language are the binary32 numbers of IEEE 754, and
they are kept here as what they are in a file: a pattern of 32 bits. Two
patterns that denote no number differ as patterns, so a program that was saved
and loaded again is the same program, bit for bit.

Arithmetic does not touch the bits. Every finite number is a whole multiple of
2⁻¹⁴⁹, the least positive one, so it is read as a count of such *units*; sums
are then exact integers, products and quotients exact fractions, and a single
function, `roundUnits`, takes a fraction of units back to the nearest pattern.
Because magnitudes and patterns are ordered alike, the pattern of a rounded
magnitude is one addition, and a carry out of the fraction lands in the
exponent by itself.
-/

namespace Reckon

/-- A binary32 number: one sign bit, eight exponent bits, 23 fraction bits. -/
structure Single where
  /-- The bit pattern, sign bit on top. -/
  bits : UInt32
deriving DecidableEq, Repr, Inhabited

namespace Single

/-- How many patterns there are for the fraction. -/
def fractions : Nat := 0x800000

/-- The sign bit alone. -/
def signBit : Nat := 0x80000000

/-- The pattern of infinity without its sign; all greater ones are no
numbers. -/
def infinityPattern : Nat := 255 * fractions

/-- The pattern without its sign bit. -/
def magnitude (a : Single) : Nat := a.bits.toNat % signBit

/-- The sign bit, which zeros and the patterns that are no numbers carry too. -/
def isNegative (a : Single) : Bool := decide (signBit ≤ a.bits.toNat)

/-- Puts a sign bit on a pattern of 31 bits. -/
def ofMagnitude (negative : Bool) (magnitude : Nat) : Single :=
  ⟨UInt32.ofNat (if negative then magnitude + signBit else magnitude)⟩

def isNaN (a : Single) : Bool := decide (infinityPattern < a.magnitude)

def isInfinite (a : Single) : Bool := decide (a.magnitude = infinityPattern)

def isFinite (a : Single) : Bool := decide (a.magnitude < infinityPattern)

/-- The result of an operation that has none. -/
def nan : Single := ⟨0x7fc00000⟩

def infinity (negative : Bool) : Single := ofMagnitude negative infinityPattern

def zero : Single := ⟨0⟩

def one : Single := ⟨0x3f800000⟩

/-! ## Units -/

/-- How many units of 2⁻¹⁴⁹ a magnitude pattern counts. The lowest exponent has
no hidden bit and the scale of the one above it. -/
def unitsOf (magnitude : Nat) : Nat :=
  let exponent := magnitude / fractions
  let fraction := magnitude % fractions
  if exponent = 0 then fraction else (fractions + fraction) <<< (exponent - 1)

/-- How many units make one. -/
def unitsOfOne : Nat := 1 <<< 149

/-- The distance of a finite number from zero, in units. -/
def units (a : Single) : Nat := unitsOf a.magnitude

/-- A finite number as a signed count of units. -/
def signedUnits (a : Single) : Int :=
  if a.isNegative then -(a.units : Int) else a.units

/-- The magnitude pattern nearest to `num / den` units, a half going to the even
pattern; what is too large for a finite pattern becomes infinity. The quotient
keeps 24 leading bits, and each bit dropped below them adds one to the exponent
field, which is what `scale * fractions` does. -/
def roundUnits (num den : Nat) : Nat :=
  let scale := Nat.log2 (num / den) - 23
  min (roundHalfEven num (den <<< scale) + scale * fractions) infinityPattern

/-- The number nearest to `num / den` units. -/
def ofUnits (negative : Bool) (num den : Nat) : Single :=
  ofMagnitude negative (roundUnits num den)

/-! ## Arithmetic -/

/-- Flips the sign bit, of any pattern. -/
def neg (a : Single) : Single := ofMagnitude (!a.isNegative) a.magnitude

/-- Clears the sign bit, of any pattern. -/
def abs (a : Single) : Single := ofMagnitude false a.magnitude

/-- The sum, rounded once. A sum that is zero is negative only if both parts
are. -/
def add (a b : Single) : Single :=
  if a.isNaN || b.isNaN then nan
  else if a.isInfinite then
    if b.isInfinite && a.isNegative != b.isNegative then nan else a
  else if b.isInfinite then b
  else
    let sum := a.signedUnits + b.signedUnits
    if sum = 0 then ofMagnitude (a.isNegative && b.isNegative) 0
    else ofUnits (decide (sum < 0)) sum.natAbs 1

def sub (a b : Single) : Single := add a (neg b)

/-- The product, rounded once. A product of units is a count of units of
units, hence the divisor. -/
def mul (a b : Single) : Single :=
  let negative := a.isNegative != b.isNegative
  if a.isNaN || b.isNaN then nan
  else if a.isInfinite || b.isInfinite then
    if a.magnitude = 0 || b.magnitude = 0 then nan else infinity negative
  else ofUnits negative (a.units * b.units) unitsOfOne

/-- The quotient, rounded once. -/
def div (a b : Single) : Single :=
  let negative := a.isNegative != b.isNegative
  if a.isNaN || b.isNaN then nan
  else if a.isInfinite then
    if b.isInfinite then nan else infinity negative
  else if b.isInfinite then ofMagnitude negative 0
  else if b.magnitude = 0 then
    if a.magnitude = 0 then nan else infinity negative
  else ofUnits negative (a.units * unitsOfOne) b.units

instance : Neg Single := ⟨neg⟩
instance : Add Single := ⟨add⟩
instance : Sub Single := ⟨sub⟩
instance : Mul Single := ⟨mul⟩
instance : Div Single := ⟨div⟩

/-! ## Comparison -/

/-- The place of a number on the line: patterns grow with what they denote, and
the two zeros share a place. -/
def rank (a : Single) : Int :=
  if a.isNegative then -(a.magnitude : Int) else a.magnitude

/-- Whether both sides are numbers; no comparison but `≠` holds otherwise. -/
def comparable (a b : Single) : Bool := !a.isNaN && !b.isNaN

def eq (a b : Single) : Bool := comparable a b && decide (a.rank = b.rank)

def lt (a b : Single) : Bool := comparable a b && decide (a.rank < b.rank)

def le (a b : Single) : Bool := comparable a b && decide (a.rank ≤ b.rank)

/-- The distance below which two constants count as one, about 10⁻⁵. -/
def tolerance : Single := ⟨0x3727c5ac⟩

/-- Whether two constants share a slot. The difference is rounded like any
other, and neither infinity nor a pattern that is no number is near itself. -/
def near (a b : Single) : Bool := lt (abs (a - b)) tolerance

/-- A truth value as a number. -/
def ofBool (b : Bool) : Single := if b then one else zero

end Single

end Reckon
