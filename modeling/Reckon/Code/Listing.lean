import Reckon.Code.Program
import Reckon.Sorting
import Reckon.Text.Column
import Reckon.Text.Percentage

/-!
# Listing a program

The operations of a program one per line, with their positions. A place that
jumps lead to is set off by a bar above it and an arrow, and a jump shows where
it leads. Besides the listing there are a title with the sizes of the program
and a count of its operations by kind.
-/

namespace Reckon

namespace Op

/-- The name of the kind of an operation. -/
def kindName : Op → String
  | .name _ => "IDENT"
  | .constant _ => "CONST"
  | .label _ => "LABEL"
  | .mark => "MARK"
  | .assign => "ASSIGN"
  | .neg => "NEG"
  | .binary .add => "ADD"
  | .binary .sub => "SUB"
  | .binary .mul => "MUL"
  | .binary .div => "DIV"
  | .binary .eq => "EQ"
  | .binary .ne => "NE"
  | .binary .lt => "LT"
  | .binary .gt => "GT"
  | .binary .le => "LE"
  | .binary .ge => "GE"
  | .binary .and => "AND"
  | .binary .or => "OR"
  | .not => "NOT"
  | .jumpIfFalse => "JUMP_FALSE"
  | .jump => "JUMP"
  | .read => "READ"
  | .write => "WRITE"

end Op

namespace Program

/-- The listing of one operation, without its position. The second argument
says whether a mark follows. -/
def listedOp (p : Program) (beforeMark : Bool) : Op → String
  | .name n => "IDENT       " ++ n
  | .constant slot =>
    match p.constants[slot]? with
    | some value => "CONST       " ++ value.toText
    | none => "CONST       c" ++ toString slot ++ " (missing)"
  | .label slot =>
    let name := p.labels[slot]?.getD "?"
    if beforeMark then "DEF_LABEL   " ++ name
    else match p.target? slot with
      | some target =>
          "LABEL       " ++ name ++ " (→ " ++ Text.zeroFilled 4 target ++ ")"
      | none => "LABEL       " ++ name ++ " (undefined)"
  | .assign => "ASSIGN      ; ( name value -- )"
  | .jumpIfFalse => "JUMP_FALSE  ; ( cond label -- )"
  | .jump => "JUMP        ; ( label -- )"
  | .read => "READ        ; ( name -- )"
  | .write => "WRITE       ; ( name -- )"
  | op => op.kindName

/-- The positions that jumps lead to. -/
def targets (p : Program) : List Nat := p.links.filterMap id

/-- The bar above a place that jumps lead to. -/
def bar : String := "      ┌" ++ Text.fill 34 '─' ++ "\n"

/-- The lines of a stretch of code that starts at a position. -/
def listedFrom (p : Program) (targets : List Nat) (position : Nat) :
    List Op → String
  | [] => ""
  | op :: rest =>
    let (above, arrow) :=
      if targets.contains position then (bar, "► ") else ("", "  ")
    above ++ Text.zeroFilled 4 position ++ " " ++ arrow ++
      p.listedOp (rest.head? == some .mark) op ++ "\n" ++
      listedFrom p targets (position + 1) rest

/-- The listing of a program. A label defined by the last operations leads to
the end, which then has a line of its own. -/
def listed (p : Program) : String :=
  let targets := p.targets
  p.listedFrom targets 0 p.ops ++
    (if targets.contains p.size then
      bar ++ Text.zeroFilled 4 p.size ++ " ► END\n"
    else "")

/-- The listing under a title. -/
def printed (p : Program) : String :=
  let rule := Text.fill 40 '═' ++ "\n"
  rule ++ " postfix\n " ++ toString p.size ++ " instructions\n " ++
    toString p.constants.length ++ " constants, " ++ toString p.labels.length ++
    " labels\n" ++ rule ++ p.listed ++ "\n"

/-- How often each kind of operation occurs, by name. -/
def kindCounts (p : Program) : List (String × Nat) :=
  let kinds := p.ops.map Op.kindName
  (sortBy (fun a b => decide (a ≤ b)) kinds.eraseDups).map fun kind =>
    (kind, kinds.count kind)

/-- The sizes of a program and its ten most frequent kinds of operations, the
more frequent first and equally frequent ones by name. -/
def statistics (p : Program) : String :=
  let frequent := (sortBy (fun a b => b.2 ≤ a.2) p.kindCounts).take 10
  "=== POSTFIX STATISTICS ===\n\nInstructions:     " ++ toString p.size ++
    "\nConstants:        " ++ toString p.constants.length ++
    "\nLabels:           " ++ toString p.labels.length ++
    "\nIdentifiers:      " ++ toString p.identifiers.length ++
    "\n\nOp frequency:\n" ++
    String.join (frequent.map fun (kind, count) =>
      "  " ++ Text.atLeft 14 kind ++ " " ++
        Text.atRight 4 (toString count) ++ " (" ++
        Text.atRight 5 (Text.percentage count p.size) ++ "%)\n")

end Program

end Reckon
