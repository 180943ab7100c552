import Reckon.Single.Basic

/-!
# Operations

The instructions of a postfix program. Operands are pushed, everything else
takes its arguments from the stack. Constants and labels are named by their
slot in the tables of the program, names stand in the code themselves. A label
followed by a mark is no operand but a place to jump to.
-/

namespace Reckon

/-- Operators of two numbers. -/
inductive Binary where
  | add
  | sub
  | mul
  | div
  | eq
  | ne
  | lt
  | gt
  | le
  | ge
  | and
  | or
deriving DecidableEq, Repr

/-- One instruction. The comments show the stack before and after it, its top
at the right. -/
inductive Op where
  /-- Pushes a name. -/
  | name (name : String)
  /-- Pushes a number of the pool. -/
  | constant (slot : Nat)
  /-- Pushes a label, unless a mark follows. -/
  | label (slot : Nat)
  /-- Does nothing; makes the label before it a place to jump to. -/
  | mark
  /-- Sets a variable: `name value —`. -/
  | assign
  /-- Turns the sign: `value — value`. -/
  | neg
  /-- Joins two numbers: `value value — value`. -/
  | binary (operator : Binary)
  /-- Turns a truth value: `value — value`. -/
  | not
  /-- Goes to a label if the condition is false: `value label —`. -/
  | jumpIfFalse
  /-- Goes to a label: `label —`. -/
  | jump
  /-- Reads a number into a variable: `name —`. -/
  | read
  /-- Writes a variable: `name —`. -/
  | write
deriving DecidableEq, Repr

namespace Binary

/-- All operators of two numbers. -/
def all : List Binary := [add, sub, mul, div, eq, ne, lt, gt, le, ge, and, or]

/-- How an operator is spelt, in source and in postfix. -/
def text : Binary → String
  | add => "+"
  | sub => "-"
  | mul => "*"
  | div => "/"
  | eq => "=="
  | ne => "!="
  | lt => "<"
  | gt => ">"
  | le => "<="
  | ge => ">="
  | and => "and"
  | or => "or"

/-- The value of an operator. A comparison gives one or zero; a number is true
if it is above zero. -/
def apply (operator : Binary) (a b : Single) : Single :=
  match operator with
  | add => a + b
  | sub => a - b
  | mul => a * b
  | div => a / b
  | eq => .ofBool (a.eq b)
  | ne => .ofBool (!a.eq b)
  | lt => .ofBool (a.lt b)
  | gt => .ofBool (b.lt a)
  | le => .ofBool (a.le b)
  | ge => .ofBool (b.le a)
  | and => .ofBool (Single.zero.lt a && Single.zero.lt b)
  | or => .ofBool (Single.zero.lt a || Single.zero.lt b)

end Binary

namespace Op

/-- The operation an operator stands for; `@` is the minus sign of one
operand. -/
def ofOperator? : String → Option Op
  | "=" => some assign
  | "@" => some neg
  | "!" => some not
  | "+" => some (binary .add)
  | "-" => some (binary .sub)
  | "*" => some (binary .mul)
  | "/" => some (binary .div)
  | "==" => some (binary .eq)
  | "!=" => some (binary .ne)
  | "<" => some (binary .lt)
  | ">" => some (binary .gt)
  | "<=" => some (binary .le)
  | ">=" => some (binary .ge)
  | "and" => some (binary .and)
  | "or" => some (binary .or)
  | _ => none

/-- Whether the operation pushes an operand. -/
def isOperand : Op → Bool
  | .name _ | .constant _ | .label _ => true
  | _ => false

/-- The text of an operation by itself, slots by number. -/
def text : Op → String
  | .name n => n
  | constant slot => "c" ++ toString slot
  | label slot => "l" ++ toString slot
  | mark => ":"
  | assign => "="
  | neg => "@"
  | binary operator => operator.text
  | not => "!"
  | jumpIfFalse => "CondFalse"
  | jump => "Uncond"
  | read => "Read"
  | write => "Write"

/-- Every operator of two numbers is read from its own text. -/
theorem ofOperator?_text (operator : Binary) :
    ofOperator? operator.text = some (binary operator) := by
  cases operator <;> rfl

end Op

end Reckon
