import Reckon.Pool
import Reckon.Code.Op
import Reckon.Single.Shortest

/-!
# Postfix programs

A program is a row of operations with a pool of constants and a table of
labels. Both are filled as operations are pushed, and a slot handed out keeps
its value from then on. A program read from a file may name slots that it does
not define.
-/

namespace Reckon

/-- A postfix program. -/
structure Program where
  ops : List Op := []
  constants : List Single := []
  labels : List String := []
deriving DecidableEq, Repr, Inhabited

namespace Program

/-- The number of operations. -/
def size (p : Program) : Nat := p.ops.length

/-- Adds an operation at the end. -/
def push (p : Program) (op : Op) : Program := { p with ops := p.ops ++ [op] }

/-- Adds several operations at the end. -/
def pushAll (p : Program) (ops : List Op) : Program :=
  { p with ops := p.ops ++ ops }

/-- The slot of a constant, shared with the first one near it. -/
def internConstant (p : Program) (value : Single) : Nat × Program :=
  let (slot, constants) := Pool.intern Single.near p.constants value
  (slot, { p with constants })

/-- The slot of a label. -/
def internLabel (p : Program) (name : String) : Nat × Program :=
  let (slot, labels) := Pool.intern (· == ·) p.labels name
  (slot, { p with labels })

/-- Pushes a name. -/
def pushName (p : Program) (name : String) : Program := p.push (.name name)

/-- Pushes a constant by its slot. -/
def pushConstant (p : Program) (value : Single) : Program :=
  let (slot, p) := p.internConstant value
  p.push (.constant slot)

/-- Pushes a label by its slot. -/
def pushLabel (p : Program) (name : String) : Program :=
  let (slot, p) := p.internLabel name
  p.push (.label slot)

/-- Adds a name behind others, unless it is among them. -/
def addName (names : List String) : Op → List String
  | .name n => if names.contains n then names else names ++ [n]
  | _ => names

/-- The names in a program, in order of first use. -/
def identifiers (p : Program) : List String := p.ops.foldl addName []

/-- The text of an operation with its slot looked up. A slot that is not there
shows by its number. -/
def opText (p : Program) (op : Op) : String :=
  match op with
  | .constant slot => (p.constants[slot]?.map Single.toText).getD op.text
  | .label slot => p.labels[slot]?.getD op.text
  | _ => op.text

/-- The texts of all operations. -/
def texts (p : Program) : List String := p.ops.map p.opText

/-- The program as a line of postfix. -/
def text (p : Program) : String := " ".intercalate p.texts

/-- The position behind the first place where a slot is defined, searched from
a position on. -/
def findMark (slot : Nat) (position : Nat) : List Op → Option Nat
  | [] => none
  | .label s :: .mark :: rest =>
    if s = slot then some (position + 2)
      else findMark slot (position + 1) (.mark :: rest)
  | _ :: rest => findMark slot (position + 1) rest

/-- Where a jump to a label goes on: just behind the first definition of its
slot. A slot beyond the table of labels is nowhere. -/
def target? (p : Program) (slot : Nat) : Option Nat :=
  if slot < p.labels.length then findMark slot 0 p.ops else none

/-- The jump targets of all labels, slot by slot. -/
def links (p : Program) : List (Option Nat) :=
  (List.range p.labels.length).map p.target?

end Program

end Reckon
