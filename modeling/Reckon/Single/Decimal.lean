import Reckon.Single.Basic

/-!
# Decimal text to number

A numeral is digits with at most one point among or around them, and possibly
a power of ten behind them. Its value is an exact fraction, and the number read
is the one nearest to that fraction, a half going to the even pattern; nothing
is rounded on the way. Besides numerals the words `inf`, `infinity` and `nan`
are read, in any case, and a sign may stand in front of everything.

Powers of ten that cannot matter are never computed: a numeral whose leading
digit stands above 10⁴⁰ is infinite, and one whose leading digit stands below
10⁻⁴⁶ is nearer to zero than to the least positive number.
-/

namespace Reckon.Single

/-- The value of a run of decimal digits. -/
def digitsValue (digits : List Char) : Nat :=
  digits.foldl (fun value c => 10 * value + (c.toNat - '0'.toNat)) 0

/-- A power of ten. -/
def powerOfTen (exponent : Nat) : Nat := Nat.pow 10 exponent

/-- The number nearest to `digits * 10 ^ exponent`. -/
def ofDecimal (negative : Bool) (digits : Nat) (exponent : Int) : Single :=
  let place := (Nat.toDigits 10 digits).length + exponent
  if digits = 0 ∨ place < -45 then ofMagnitude negative 0
  else if 40 < place then infinity negative
  else if 0 ≤ exponent then
    ofUnits negative (digits * powerOfTen exponent.toNat * unitsOfOne) 1
  else
    ofUnits negative (digits * unitsOfOne) (powerOfTen (-exponent).toNat)

/-- The number that digits before and after a point denote. -/
def ofDigits (negative : Bool) (whole fraction : List Char)
    (exponent : Int) : Single :=
  ofDecimal negative (digitsValue (whole ++ fraction))
    (exponent - fraction.length)

/-- The power of ten behind the digits: nothing, or a mark and a whole
number. -/
def exponent? : List Char → Option Int
  | [] => some 0
  | mark :: rest =>
    if mark = 'e' ∨ mark = 'E' then
      let (negative, digits) := match rest with
        | '-' :: digits => (true, digits)
        | '+' :: digits => (false, digits)
        | digits => (false, digits)
      if digits ≠ [] ∧ digits.all Char.isDigit then
        let value : Int := digitsValue digits
        some (if negative then -value else value)
      else none
    else none

/-- Reads a numeral without its sign. At least one digit must stand in it. -/
def numeral? (negative : Bool) (text : List Char) : Option Single :=
  let whole := text.takeWhile Char.isDigit
  let rest := text.dropWhile Char.isDigit
  let (fraction, rest) := match rest with
    | '.' :: rest => (rest.takeWhile Char.isDigit, rest.dropWhile Char.isDigit)
    | rest => ([], rest)
  if whole = [] ∧ fraction = [] then none
  else (exponent? rest).map (ofDigits negative whole fraction)

/-- Reads one of the words that stand for a value with no digits. -/
def word? (negative : Bool) (text : List Char) : Option Single :=
  match String.ofList (text.map Char.toLower) with
  | "inf" | "infinity" => some (infinity negative)
  | "nan" => some (ofMagnitude negative nan.magnitude)
  | _ => none

/-- Reads a number: an optional sign, then a numeral or a word, and nothing
more. -/
def parse? (text : String) : Option Single :=
  let (negative, rest) := match text.toList with
    | '-' :: rest => (true, rest)
    | '+' :: rest => (false, rest)
    | rest => (false, rest)
  (numeral? negative rest).or (word? negative rest)

end Reckon.Single
