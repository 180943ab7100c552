import Reckon.Machine.Fault
import Reckon.Single.Decimal
import Reckon.Store
import Reckon.Text.Blank
import Reckon.Text.Utf8

/-!
# One operation

The machine that runs postfix: a position in the program, a stack of operands,
the variables, what is left of the input and what has been output. Names are
pushed as names and looked up by the operation that needs their value, so an
operand can be assigned to as well as read.

`step` runs the operation at the position. It says how the machine stands
afterwards also when the operation faults: what it had taken from the stack is
gone, what it had read is read.
-/

namespace Reckon

/-- What can lie on the stack. -/
inductive Operand where
  | name (name : String)
  | number (value : Single)
  | label (slot : Nat)
deriving DecidableEq, Repr

def Operand.text : Operand → String
  | .name n => n
  | .number value => value.toText
  | .label slot => "label #" ++ toString slot

/-- The machine between two operations. The top of the stack comes first. -/
structure Machine where
  position : Nat := 0
  stack : List Operand := []
  store : Store := .empty
  /-- The bytes not read yet. -/
  input : List UInt8 := []
  /-- The bytes written. -/
  output : Array UInt8 := #[]
  /-- How many bytes the output still takes; nothing means any number. -/
  room : Option Nat := none
  /-- The operations begun, one that the limit forbids among them. -/
  steps : Nat := 0
deriving DecidableEq

namespace Machine

/-- What an operation leaves behind: the machine, with or without a fault. -/
inductive Outcome where
  | ok (after : Machine)
  | fault (cause : Fault) (after : Machine)

/-- Goes on with the machine unless there was a fault. -/
def Outcome.andThen (o : Outcome) (next : Machine → Outcome) : Outcome :=
  match o with
  | ok m => next m
  | fault cause m => fault cause m

/-- The machine, whether or not there was a fault. -/
def Outcome.machine : Outcome → Machine
  | ok m => m
  | fault _ m => m

/-! ## The stack -/

def push (m : Machine) (operand : Operand) : Machine :=
  { m with stack := operand :: m.stack }

/-- Takes an operand from the stack. -/
def pop (m : Machine) (op : Op) (next : Operand → Machine → Outcome) :
    Outcome :=
  match m.stack with
  | [] => .fault (.stackUnderflow m.position op) m
  | operand :: rest => next operand { m with stack := rest }

/-- Takes a value: a number, or a name that has one. -/
def popNumber (m : Machine) (op : Op) (next : Single → Machine → Outcome) :
    Outcome :=
  m.pop op fun operand m =>
    match operand with
    | .number value => next value m
    | .name n =>
      match m.store.get? n with
      | some value => next value m
      | none => .fault (.undefinedVariable n) m
    | .label _ => .fault (.typeMismatch op .number operand.text) m

/-- Takes a name. -/
def popName (m : Machine) (op : Op) (next : String → Machine → Outcome) :
    Outcome :=
  m.pop op fun operand m =>
    match operand with
    | .name n => next n m
    | _ => .fault (.typeMismatch op .identifier operand.text) m

/-- Takes a label. -/
def popLabel (m : Machine) (op : Op) (next : Nat → Machine → Outcome) :
    Outcome :=
  m.pop op fun operand m =>
    match operand with
    | .label slot => next slot m
    | _ => .fault (.typeMismatch op .label operand.text) m

/-! ## Position -/

/-- Goes on behind so many operations. -/
def advance (m : Machine) (count : Nat) : Machine :=
  { m with position := m.position + count }

/-- Goes on where a label is. -/
def jumpTo (m : Machine) (p : Program) (slot : Nat) : Outcome :=
  match p.target? slot with
  | some target => .ok { m with position := target }
  | none =>
      .fault (.undefinedLabel (p.labels[slot]?.getD ("#" ++ toString slot))) m

/-! ## Input and output -/

/-- The first line of some bytes with its line break, and the bytes behind
it. -/
def splitLine : List UInt8 → List UInt8 × List UInt8
  | [] => ([], [])
  | byte :: rest =>
    if byte = 10 then ([byte], rest)
    else
      let (line, rest) := splitLine rest
      (byte :: line, rest)

/-- Reads a line as a number. A line is read also if it is none. -/
def readNumber (m : Machine) (name : String)
    (next : Single → Machine → Outcome) : Outcome :=
  let (line, rest) := splitLine m.input
  let m := { m with input := rest }
  if line.isEmpty then .fault (.endOfInput name) m
  else match Text.decode? line with
    | none => .fault .undecodableInput m
    | some text =>
      let text := Text.trim text
      match Single.parse? text with
      | some value => next value m
      | none => .fault (.notANumber name text) m

/-- Writes a text, or as much of it as there is room for. -/
def write (m : Machine) (text : String) : Outcome :=
  let bytes := text.toUTF8.data
  match m.room with
  | none => .ok { m with output := m.output ++ bytes }
  | some room =>
    let after := { m with
      output := m.output ++ bytes.take room
      room := some (room - bytes.size) }
    if bytes.size ≤ room then .ok after else .fault .outputFull after

/-! ## Operations -/

/-- Runs one operation, given the one behind it. -/
def perform (p : Program) (m : Machine) (op : Op) (behind : Option Op) :
    Outcome :=
  match op with
  | .mark => .ok (m.advance 1)
  | .label slot =>
    if behind = some .mark then .ok (m.advance 2)
    else .ok ((m.push (.label slot)).advance 1)
  | .name n => .ok ((m.push (.name n)).advance 1)
  | .constant slot =>
    match p.constants[slot]? with
    | some value => .ok ((m.push (.number value)).advance 1)
    | none => .fault (.missingConstant slot) m
  | .neg => m.popNumber op fun a m => .ok ((m.push (.number (-a))).advance 1)
  | .not => m.popNumber op fun a m =>
    .ok ((m.push (.number (.ofBool (a.le .zero)))).advance 1)
  | .binary operator => m.popNumber op fun b m => m.popNumber op fun a m =>
    .ok ((m.push (.number (operator.apply a b))).advance 1)
  | .assign => m.popNumber op fun value m => m.popName op fun name m =>
    .ok ({ m with store := m.store.set name value }.advance 1)
  | .jumpIfFalse => m.popLabel op fun slot m =>
      m.popNumber op fun condition m =>
    if condition.le .zero then m.jumpTo p slot else .ok (m.advance 1)
  | .jump => m.popLabel op fun slot m => m.jumpTo p slot
  | .read => m.popName op fun name m => m.readNumber name fun value m =>
    .ok ({ m with store := m.store.set name value }.advance 1)
  | .write => m.popName op fun name m =>
    match m.store.get? name with
    | none => .fault (.undefinedVariable name) m
    | some value => (m.write (name ++ " = " ++ value.toText)).andThen fun m =>
        .ok (m.advance 1)

/-- Runs the operation at the position; nothing if the program ends there. -/
def step? (p : Program) (m : Machine) : Option Outcome :=
  (p.ops[m.position]?).map fun op =>
    perform p { m with steps := m.steps + 1 } op p.ops[m.position + 1]?

end Machine

end Reckon
