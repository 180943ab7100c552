/-!
# Columns

Text set in columns: a field is filled with blanks, or with zeros before a
number, up to a width counted in characters. A text wider than its field is
never cut.
-/

namespace Reckon.Text

/-- `count` copies of a character. -/
def fill (count : Nat) (c : Char) : String :=
  String.ofList (List.replicate count c)

/-- Sets the text at the left edge of its field. -/
def atLeft (width : Nat) (text : String) : String :=
  text ++ fill (width - text.length) ' '

/-- Sets the text at the right edge of its field. -/
def atRight (width : Nat) (text : String) : String :=
  fill (width - text.length) ' ' ++ text

/-- Sets the text in the middle of its field, the odd blank behind it. -/
def atCentre (width : Nat) (text : String) : String :=
  let spare := width - text.length
  fill (spare / 2) ' ' ++ text ++ fill (spare - spare / 2) ' '

/-- A number with leading zeros. -/
def zeroFilled (width n : Nat) : String :=
  let digits := toString n
  fill (width - digits.length) '0' ++ digits

end Reckon.Text
