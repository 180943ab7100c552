import Reckon.Code.Op

/-!
# Faults

What can go wrong while a program runs.
-/

namespace Reckon

/-- What an operation takes from the stack. -/
inductive Expected where
  | number
  | identifier
  | label
deriving DecidableEq, Repr

def Expected.text : Expected → String
  | number => "a number"
  | identifier => "an identifier"
  | label => "a label"

/-- Why a program was stopped. -/
inductive Fault where
  /-- An operation finds the stack empty. -/
  | stackUnderflow (position : Nat) (op : Op)
  /-- A name is used that the store does not know. -/
  | undefinedVariable (name : String)
  /-- A jump leads to a label that is nowhere. -/
  | undefinedLabel (name : String)
  /-- An operation finds something of another kind on the stack. -/
  | typeMismatch (op : Op) (expected : Expected) (found : String)
  /-- The input ends where a number is to be read. -/
  | endOfInput (name : String)
  /-- A line of input is no number. -/
  | notANumber (name : String) (text : String)
  /-- A line of input is not UTF-8. -/
  | undecodableInput
  /-- The output takes no more. -/
  | outputFull
  /-- The program names a constant that it does not have. -/
  | missingConstant (slot : Nat)
  /-- More operations than allowed. -/
  | stepLimit (limit : Nat)
deriving DecidableEq, Repr

namespace Fault

/-- What a fault complains about. -/
def complaint : Fault → String
  | stackUnderflow position op =>
    "stack underflow at op " ++ toString position ++ " (" ++ op.text ++ ")"
  | undefinedVariable name => "undefined variable '" ++ name ++ "'"
  | undefinedLabel name => "jump to undefined label '" ++ name ++ "'"
  | typeMismatch op expected found =>
      op.text ++ " expects " ++ expected.text ++ ", got " ++ found
  | endOfInput name =>
      "invalid input for '" ++ name ++ "': unexpected end of input"
  | notANumber name text =>
    "invalid input for '" ++ name ++ "': '" ++ text ++ "' is not a number"
  | undecodableInput => "i/o failure: stream did not contain valid UTF-8"
  | outputFull => "i/o failure: failed to write whole buffer"
  | missingConstant slot =>
    "malformed program: constant slot " ++ toString slot ++ " is out of range"
  | stepLimit limit =>
      "execution step limit exceeded (" ++ toString limit ++ ")"

def message (f : Fault) : String := "runtime error: " ++ f.complaint

end Fault

end Reckon
