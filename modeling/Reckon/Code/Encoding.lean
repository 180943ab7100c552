import Reckon.Code.Program
import Reckon.Text.Utf8

/-!
# Program files

A program is stored as its operations, its constants and its labels, in this
order, each a count followed by that many items. Counts, slots and the numbers
of operations are written in groups of seven bits, low group first, with the
top bit of a byte set while more follow. A text is the count of its UTF-8 bytes
and these bytes, a constant its bit pattern in four bytes, low byte first.

Loading reads strictly from left to right and reports the first fault it meets;
what stands behind the labels is ignored. A number may be written in more
groups than it needs, but not in more than its width has room for.
-/

namespace Reckon

/-- Why bytes are no program file. -/
inductive DecodeError where
  /-- The bytes end where more are needed. -/
  | unexpectedEnd
  /-- A number takes more bits than its width. -/
  | overlongNumber
  /-- A text is not UTF-8. -/
  | invalidText
  /-- There is no operation of this number. -/
  | unknownOperation
deriving DecidableEq, Repr

namespace DecodeError

/-- The wording of a fault in a program file. -/
def message : DecodeError → String
  | unexpectedEnd => "Hit the end of buffer, expected more data"
  | overlongNumber =>
    "Found a varint that didn't terminate. Is the usize too big for this platform?"
  | invalidText => "Tried to parse invalid utf-8"
  | unknownOperation => "Serde Deserialization Error"

end DecodeError

namespace Encoding

/-- Reading a value from the front of some bytes gives the value and the bytes
behind it. -/
abbrev Reader (α : Type) := List UInt8 → Except DecodeError (α × List UInt8)

/-! ## Numbers -/

/-- A number in groups of seven bits. -/
def ofNat (n : Nat) : List UInt8 :=
  if n < 128 then [UInt8.ofNat n]
    else UInt8.ofNat (n % 128 + 128) :: ofNat (n / 128)
termination_by n
decreasing_by omega

/-- Reads a number of at most so many groups, the last of which is limited. -/
def toNat (limit : Nat) : (groups : Nat) → Reader Nat
  | 0, _ => .error .overlongNumber
  | _ + 1, [] => .error .unexpectedEnd
  | groups + 1, byte :: rest =>
    if byte.toNat < 128 then
      if groups = 0 ∧ limit < byte.toNat then .error .overlongNumber
      else .ok (byte.toNat, rest)
    else do
      let (high, rest) ← toNat limit groups rest
      return (byte.toNat - 128 + 128 * high, rest)

/-- Reads a number of 64 bits: nine full groups and one bit. -/
def toWord : Reader Nat := toNat 1 10

/-- Reads a number of 32 bits: four full groups and four bits. -/
def toShortWord : Reader Nat := toNat 15 5

/-! ## Texts and constants -/

/-- A text: its length in bytes, and the bytes. -/
def ofText (text : String) : List UInt8 :=
  ofNat (Text.encode text).length ++ Text.encode text

def toText : Reader String := fun bytes => do
  let (length, rest) ← toWord bytes
  if rest.length < length then throw .unexpectedEnd
  match Text.decode? (rest.take length) with
  | some text => return (text, rest.drop length)
  | none => throw .invalidText

/-- A constant: the four bytes of its pattern. -/
def ofSingle (value : Single) : List UInt8 :=
  let bits := value.bits.toNat
  [UInt8.ofNat bits, UInt8.ofNat (bits / 0x100), UInt8.ofNat (bits / 0x10000),
    UInt8.ofNat (bits / 0x1000000)]

def toSingle : Reader Single
  | a :: b :: c :: d :: rest =>
    .ok (⟨UInt32.ofNat
      (a.toNat + 0x100 * b.toNat + 0x10000 * c.toNat + 0x1000000 * d.toNat)⟩,
      rest)
  | _ => .error .unexpectedEnd

/-! ## Operations -/

/-- The number of an operation. -/
def opNumber : Op → Nat
  | .name _ => 0
  | .constant _ => 1
  | .label _ => 2
  | .mark => 3
  | .assign => 4
  | .binary .add => 5
  | .binary .sub => 6
  | .binary .mul => 7
  | .binary .div => 8
  | .neg => 9
  | .binary .eq => 10
  | .binary .ne => 11
  | .binary .lt => 12
  | .binary .gt => 13
  | .binary .le => 14
  | .binary .ge => 15
  | .binary .and => 16
  | .binary .or => 17
  | .not => 18
  | .jumpIfFalse => 19
  | .jump => 20
  | .read => 21
  | .write => 22

/-- The operations that are written as their number alone. -/
def bareOps : List Op :=
  [.mark, .assign, .binary .add, .binary .sub, .binary .mul, .binary .div, .neg,
    .binary .eq, .binary .ne, .binary .lt, .binary .gt, .binary .le,
    .binary .ge, .binary .and, .binary .or, .not, .jumpIfFalse, .jump,
    .read, .write]

/-- What follows the number of an operation. -/
def opArgument : Op → List UInt8
  | .name name => ofText name
  | .constant slot => ofNat slot
  | .label slot => ofNat slot
  | _ => []

/-- An operation: its number, and its name or slot if it has one. -/
def ofOp (op : Op) : List UInt8 := ofNat (opNumber op) ++ opArgument op

def toOp : Reader Op := fun bytes => do
  let (number, rest) ← toShortWord bytes
  match number with
  | 0 =>
    let (name, rest) ← toText rest
    return (.name name, rest)
  | 1 =>
    let (slot, rest) ← toWord rest
    return (.constant slot, rest)
  | 2 =>
    let (slot, rest) ← toWord rest
    return (.label slot, rest)
  | bare + 3 =>
    match bareOps[bare]? with
    | some op => return (op, rest)
    | none => throw .unknownOperation

/-! ## Rows of items -/

/-- A count and the items behind each other. -/
def ofList {α : Type} (item : α → List UInt8) (items : List α) : List UInt8 :=
  ofNat items.length ++ items.flatMap item

/-- Reads so many items. -/
def toItems {α : Type} (item : Reader α) : (count : Nat) → Reader (List α)
  | 0, bytes => .ok ([], bytes)
  | count + 1, bytes => do
    let (first, bytes) ← item bytes
    let (others, bytes) ← toItems item count bytes
    return (first :: others, bytes)

def toList {α : Type} (item : Reader α) : Reader (List α) := fun bytes => do
  let (count, bytes) ← toWord bytes
  toItems item count bytes

end Encoding

namespace Program

open Encoding

/-- The program as a file. -/
def toBytes (p : Program) : List UInt8 :=
  ofList ofOp p.ops ++ ofList ofSingle p.constants ++ ofList ofText p.labels

/-- Loads a program file. -/
def ofBytes (bytes : List UInt8) : Except DecodeError Program := do
  let (ops, bytes) ← Encoding.toList toOp bytes
  let (constants, bytes) ← Encoding.toList toSingle bytes
  let (labels, _) ← Encoding.toList toText bytes
  return { ops, constants, labels }

end Program

end Reckon
