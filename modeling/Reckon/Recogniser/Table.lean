import Reckon.Recogniser.Pushdown

/-!
# The table and the turns of the pushdown automaton

The automaton finds the rows of its states in a table, which is laid out edge by
edge: the frame of a program, statements, arithmetic, conditions. The first edge
of a state, or its fallback, gives it a row; a state for which neither is laid
out has none.

To offer a token is a loop. In each turn the row of the state is looked up, and
either an edge takes the token or the fallback keeps it for the next turn. A
turn goes no further if the state has no row, if it returns and there is nothing
to return to, or if the row refuses the token; the error says what was wanted.
-/

namespace Reckon

/-- Rows by their states. -/
structure Table where
  rows : List (State × Row)

namespace Table

/-- The row of a state. -/
def row? (table : Table) (s : State) : Option Row := table.rows.lookup s

/-- Changes the row of a state, which has no edges if there was none. -/
def change (table : Table) (s : State) (f : Row → Row) : Table :=
  ⟨go table.rows⟩
where
  go : List (State × Row) → List (State × Row)
    | [] => [(s, f ⟨[], .fail none⟩)]
    | (other, row) :: rest =>
        if other = s then (s, f row) :: rest else (other, row) :: go rest

/-- One more edge of a state. -/
def on (table : Table) (s : State) (offer : Offer) (move : Move) : Table :=
  table.change s fun row => { row with edges := row.edges ++ [(offer, move)] }

/-- The fallback of a state. -/
def otherwise (table : Table) (s : State) (fallback : Fallback) : Table :=
  table.change s fun row => { row with fallback }

/-- Header, definitions and body of a program. -/
def frame (table : Table) : Table :=
  let table := table
    |>.on .start (.keyword "program") (.goto .programName)
    |>.on .programName .identifier (.goto .headerEnd)
    |>.on .headerEnd (.keyword lineBreak) (.goto .var)
    |>.on .var (.keyword "var") (.goto .defStart)
  let table := table
    |>.on .defStart (.keyword ",") (.goto .defId)
    |>.on .defId .identifier (.goto .defNext)
    |>.on .defNext (.keyword ",") (.goto .defId)
    |>.on .defNext (.keyword ":") (.goto .defType)
    |>.on .defType (.keyword "float") (.goto .defEnd)
    |>.on .defEnd (.keyword ";") (.goto .defStart)
    |>.on .defEnd (.keyword lineBreak) (.goto .begin)
  table
    |>.on .begin (.keyword "begin") (.goto .bodyOpen)
    |>.on .bodyOpen (.keyword lineBreak) (.call .statement .bodyLine)
    |>.on .bodyLine (.keyword lineBreak) (.goto .bodyNext)
    |>.on .bodyNext (.keyword "end") (.goto .done)
    |>.otherwise .bodyNext (.enter .statement .bodyLine)
    |>.on .done .endOfInput (.goto .done)

/-- The beginnings of statements behind a label, or of those without one. -/
def beginnings (table : Table) (s : State) : Table :=
  table
    |>.on s .identifier (.goto .assignEq)
    |>.on s (.keyword "readl") (.goto .ioOpen)
    |>.on s (.keyword "writel") (.goto .ioOpen)
    |>.on s (.keyword "do") (.goto .loopVar)
    |>.on s (.keyword "if") (.call .condStart .ifThen)
    |>.otherwise s (.fail (some "statement"))

/-- Statements. An assignment goes over into its expression, which returns to
what follows the statement. -/
def statements (table : Table) : Table :=
  let table := table
    |>.on .statement .label (.goto .labelColon)
    |>.on .labelColon (.keyword ":") (.goto .unlabelled)
  let table := [State.statement, .unlabelled].foldl beginnings table
  let table := table
    |>.on .assignEq (.keyword "=") (.goto .exprStart)
    |>.on .ioOpen (.keyword "(") (.goto .ioComma)
    |>.on .ioComma (.keyword ",") (.goto .ioId)
    |>.on .ioId .identifier (.goto .ioNext)
    |>.on .ioNext (.keyword ",") (.goto .ioId)
    |>.on .ioNext (.keyword ")") .back
  let table := table
    |>.on .loopVar .identifier (.goto .loopEq)
    |>.on .loopEq (.keyword "=") (.call .exprStart .loopTo)
    |>.on .loopTo (.keyword "to") (.call .exprStart .loopBody)
    |>.on .loopBody (.keyword lineBreak) (.call .statement .loopLine)
    |>.on .loopLine (.keyword lineBreak) (.goto .loopNext)
    |>.on .loopNext (.keyword "next") .back
    |>.otherwise .loopNext (.enter .statement .loopLine)
  table
    |>.on .ifThen (.keyword "then") (.goto .ifGoto)
    |>.on .ifGoto (.keyword "goto") (.goto .ifLabel)
    |>.on .ifLabel .label .back

/-- Arithmetic. A sign stands in front of the first operand only. -/
def arithmetic (table : Table) : Table :=
  let table := table
    |>.on .exprStart (.keyword "-") (.goto .operand)
    |>.otherwise .exprStart (.jump .operand)
    |>.on .operand .identifier (.goto .operator)
    |>.on .operand .constant (.goto .operator)
    |>.on .operand (.keyword "(") (.call .exprStart .closeParen)
    |>.otherwise .operand (.fail (some "operand"))
    |>.on .closeParen (.keyword ")") (.goto .operator)
  let table := ["+", "-", "*", "/"].foldl
    (fun table text => table.on .operator (.keyword text)
      (.goto .operand)) table
  table.otherwise .operator .leave

/-- Conditions. -/
def conditions (table : Table) : Table :=
  let table := table
    |>.on .condStart (.keyword "!") (.goto .condStart)
    |>.on .condStart (.keyword "[") (.call .condStart .condClose)
    |>.otherwise .condStart (.enter .exprStart .relop)
  let table := Language.relationalOperators.foldl
    (fun table text =>
      table.on .relop (.keyword text) (.call .exprStart .condNext)) table
  table
    |>.otherwise .relop (.fail (some "relational operator"))
    |>.on .condClose (.keyword "]") (.goto .condNext)
    |>.on .condNext (.keyword "and") (.goto .condStart)
    |>.on .condNext (.keyword "or") (.goto .condStart)
    |>.otherwise .condNext .leave

/-- The table for the language. -/
def language : Table := (Table.mk []).frame.statements.arithmetic.conditions

/-- Every state has a row in the table, and it is the row of the state. -/
theorem row?_language (s : State) : language.row? s = some s.row := by
  cases s <;> rfl

end Table

namespace Row

/-- The move for a token that no edge takes, or what was wanted instead. -/
def fall (row : Row) : Except String Move :=
  match row.fallback with
  | .fail wanted => .error (wanted.getD row.wanted)
  | .enter part back => .ok (.call part back)
  | .leave => .ok .back
  | .jump next => .ok (.goto next)

/-- The move that a row has for a token, if it does not refuse it. -/
def move? (row : Row) (token : Option Token) : Option Move :=
  match row.edges.find? (·.1.fits token) with
  | some (_, move) => some move
  | none => row.fall.toOption

end Row

namespace Pushdown

/-- Why a turn goes no further. -/
inductive Stop where
  | noRow (s : State)
  /-- Nothing to return to. -/
  | emptyStack
  | refused (wanted : String)
deriving DecidableEq, Repr

/-- What the error names as wanted. -/
def Stop.wanted : Stop → Refusal
  | noRow s => "a state for " ++ s.name
  | emptyStack => "end of input"
  | refused wanted => wanted

/-- How a turn ends. -/
inductive Turn where
  /-- The token is taken. -/
  | taken (next : Pushdown)
  /-- The token is offered again. -/
  | again (next : Pushdown)
  | stopped (why : Stop)
deriving DecidableEq, Repr

/-- Where a move leads; nowhere, if it returns and there is nothing to return
to. -/
def follow (p : Pushdown) : Move → Option Pushdown
  | .goto next => some { p with state := next }
  | .call part back => some ⟨part, back :: p.stack⟩
  | .back =>
    match p.stack with
    | next :: stack => some ⟨next, stack⟩
    | [] => none

/-- One turn of the loop in which a token, or the end of the input, is
offered. -/
def turn (p : Pushdown) (token : Option Token) : Turn :=
  match Table.language.row? p.state with
  | none => .stopped (.noRow p.state)
  | some row =>
    match row.edges.find? (·.1.fits token) with
    | some (_, move) =>
      match p.follow move with
      | some next => .taken next
      | none => .stopped .emptyStack
    | none =>
      match row.fall with
      | .error wanted => .stopped (.refused wanted)
      | .ok move =>
        match p.follow move with
        | some next => .again next
        | none => .stopped .emptyStack

end Pushdown

end Reckon
