import Reckon.Grammar.Language
import Reckon.Recogniser.SyntaxError

/-!
# A pushdown automaton for the language

Every state has a row of edges, each for one kind of token, and something to
fall back on when no edge fits. Edges take the token; fallbacks do not, and the
token is offered again to the state they lead to. Expressions, conditions and
statements are parts that several places of a program share: to enter one is to
push the state to return to, and its last state returns there.

A fallback that enters a part always leads to an edge or to an error before any
other part is left, and one that leaves a part pops the stack. So offering a
token comes to an end, and `rank` together with the height of the stack says
how soon.
-/

namespace Reckon

/-- The states, by what has just been read or is to be read next. -/
inductive State where
  | start
  | programName
  | headerEnd
  | var
  | defStart
  | defId
  | defNext
  | defType
  | defEnd
  | begin
  | bodyOpen
  | bodyLine
  | bodyNext
  | done
  | statement
  | labelColon
  | unlabelled
  | assignEq
  | ioOpen
  | ioComma
  | ioId
  | ioNext
  | loopVar
  | loopEq
  | loopTo
  | loopBody
  | loopLine
  | loopNext
  | ifThen
  | ifGoto
  | ifLabel
  | exprStart
  | operand
  | closeParen
  | operator
  | condStart
  | relop
  | condClose
  | condNext
deriving DecidableEq, Repr

/-- The kind of token that an edge takes. -/
inductive Offer where
  | keyword (text : String)
  | identifier
  | constant
  | label
  /-- What is behind the last token. -/
  | endOfInput
deriving DecidableEq, Repr

/-- Where an edge leads. -/
inductive Move where
  | goto (next : State)
  /-- Enters a part and returns to a state behind it. -/
  | call (part back : State)
  /-- Returns from a part. -/
  | back
deriving DecidableEq, Repr

/-- What happens to a token that no edge takes. -/
inductive Fallback where
  /-- It is an error; nothing wanted by name means that the edges say what
  is. -/
  | fail (wanted : Option String)
  /-- Enters a part and returns to a state behind it. -/
  | enter (part back : State)
  /-- Returns from a part. -/
  | leave
  | jump (next : State)
deriving DecidableEq, Repr

/-- The edges of a state and its fallback. -/
structure Row where
  edges : List (Offer × Move)
  fallback : Fallback := .fail none
deriving DecidableEq, Repr

namespace Offer

/-- Whether a token, or else the end of the input, is of this kind. -/
def fits : Offer → Option Token → Bool
  | endOfInput, none => true
  | keyword text, some token => token.isKeyword text
  | identifier, some (.word (.identifier _) _ _) => true
  | constant, some (.word (.constant _) _ _) => true
  | label, some (.word (.label _) _ _) => true
  | _, _ => false

def text : Offer → String
  | keyword text =>
      if text = lineBreak then "line break" else "'" ++ text ++ "'"
  | identifier => "identifier"
  | constant => "constant"
  | label => "label"
  | endOfInput => "end of input"

end Offer

/-- What the edges of a row would take. -/
def Row.wanted (row : Row) : String :=
  " or ".intercalate (row.edges.map (·.1.text))

namespace State

/-- The edges that start a statement without a label. -/
def statementEdges : List (Offer × Move) :=
  [(.identifier, .goto .assignEq), (.keyword "readl", .goto .ioOpen),
    (.keyword "writel", .goto .ioOpen), (.keyword "do", .goto .loopVar),
    (.keyword "if", .call .condStart .ifThen)]

/-- The row of a state. -/
def row : State → Row
  | start => ⟨[(.keyword "program", .goto .programName)], .fail none⟩
  | programName => ⟨[(.identifier, .goto .headerEnd)], .fail none⟩
  | headerEnd => ⟨[(.keyword lineBreak, .goto .var)], .fail none⟩
  | var => ⟨[(.keyword "var", .goto .defStart)], .fail none⟩
  | defStart => ⟨[(.keyword ",", .goto .defId)], .fail none⟩
  | defId => ⟨[(.identifier, .goto .defNext)], .fail none⟩
  | defNext =>
      ⟨[(.keyword ",", .goto .defId), (.keyword ":", .goto .defType)],
        .fail none⟩
  | defType => ⟨[(.keyword "float", .goto .defEnd)], .fail none⟩
  | defEnd =>
      ⟨[(.keyword ";", .goto .defStart), (.keyword lineBreak, .goto .begin)],
        .fail none⟩
  | begin => ⟨[(.keyword "begin", .goto .bodyOpen)], .fail none⟩
  | bodyOpen => ⟨[(.keyword lineBreak, .call .statement .bodyLine)], .fail none⟩
  | bodyLine => ⟨[(.keyword lineBreak, .goto .bodyNext)], .fail none⟩
  | bodyNext => ⟨[(.keyword "end", .goto .done)], .enter .statement .bodyLine⟩
  | done => ⟨[(.endOfInput, .goto .done)], .fail none⟩
  | statement =>
      ⟨(.label, .goto .labelColon) :: statementEdges, .fail (some "statement")⟩
  | labelColon => ⟨[(.keyword ":", .goto .unlabelled)], .fail none⟩
  | unlabelled => ⟨statementEdges, .fail (some "statement")⟩
  | assignEq => ⟨[(.keyword "=", .goto .exprStart)], .fail none⟩
  | ioOpen => ⟨[(.keyword "(", .goto .ioComma)], .fail none⟩
  | ioComma => ⟨[(.keyword ",", .goto .ioId)], .fail none⟩
  | ioId => ⟨[(.identifier, .goto .ioNext)], .fail none⟩
  | ioNext => ⟨[(.keyword ",", .goto .ioId), (.keyword ")", .back)], .fail none⟩
  | loopVar => ⟨[(.identifier, .goto .loopEq)], .fail none⟩
  | loopEq => ⟨[(.keyword "=", .call .exprStart .loopTo)], .fail none⟩
  | loopTo => ⟨[(.keyword "to", .call .exprStart .loopBody)], .fail none⟩
  | loopBody => ⟨[(.keyword lineBreak, .call .statement .loopLine)], .fail none⟩
  | loopLine => ⟨[(.keyword lineBreak, .goto .loopNext)], .fail none⟩
  | loopNext => ⟨[(.keyword "next", .back)], .enter .statement .loopLine⟩
  | ifThen => ⟨[(.keyword "then", .goto .ifGoto)], .fail none⟩
  | ifGoto => ⟨[(.keyword "goto", .goto .ifLabel)], .fail none⟩
  | ifLabel => ⟨[(.label, .back)], .fail none⟩
  | exprStart => ⟨[(.keyword "-", .goto .operand)], .jump .operand⟩
  | operand =>
    ⟨[(.identifier, .goto .operator), (.constant, .goto .operator),
      (.keyword "(", .call .exprStart .closeParen)], .fail (some "operand")⟩
  | closeParen => ⟨[(.keyword ")", .goto .operator)], .fail none⟩
  | operator =>
    ⟨["+", "-", "*", "/"].map fun text => (.keyword text, .goto .operand),
      .leave⟩
  | condStart =>
    ⟨[(.keyword "!", .goto .condStart),
      (.keyword "[", .call .condStart .condClose)], .enter .exprStart .relop⟩
  | relop =>
    ⟨Language.relationalOperators.map fun text =>
      (.keyword text, .call .exprStart .condNext),
      .fail (some "relational operator")⟩
  | condClose => ⟨[(.keyword "]", .goto .condNext)], .fail none⟩
  | condNext =>
    ⟨[(.keyword "and", .goto .condStart), (.keyword "or", .goto .condStart)],
      .leave⟩

/-- The name of a state. -/
def name : State → String
  | start => "Start"
  | programName => "ProgramName"
  | headerEnd => "HeaderEnd"
  | var => "Var"
  | defStart => "DefStart"
  | defId => "DefId"
  | defNext => "DefNext"
  | defType => "DefType"
  | defEnd => "DefEnd"
  | begin => "Begin"
  | bodyOpen => "BodyOpen"
  | bodyLine => "BodyLine"
  | bodyNext => "BodyNext"
  | done => "Done"
  | statement => "Statement"
  | labelColon => "LabelColon"
  | unlabelled => "Unlabeled"
  | assignEq => "AssignEq"
  | ioOpen => "IoOpen"
  | ioComma => "IoComma"
  | ioId => "IoId"
  | ioNext => "IoNext"
  | loopVar => "LoopVar"
  | loopEq => "LoopEq"
  | loopTo => "LoopTo"
  | loopBody => "LoopBody"
  | loopLine => "LoopLine"
  | loopNext => "LoopNext"
  | ifThen => "IfThen"
  | ifGoto => "IfGoto"
  | ifLabel => "IfLabel"
  | exprStart => "ExprStart"
  | operand => "Operand"
  | closeParen => "CloseParen"
  | operator => "Operator"
  | condStart => "CondStart"
  | relop => "Relop"
  | condClose => "CondClose"
  | condNext => "CondNext"

/-- All states. -/
def all : List State :=
  [start, programName, headerEnd, var, defStart, defId, defNext, defType,
    defEnd, begin, bodyOpen, bodyLine, bodyNext, done, statement, labelColon,
    unlabelled, assignEq, ioOpen, ioComma, ioId, ioNext, loopVar, loopEq,
    loopTo, loopBody, loopLine, loopNext, ifThen, ifGoto, ifLabel, exprStart,
    operand, closeParen, operator, condStart, relop, condClose, condNext]

/-- The states that the row of a state names. -/
def successors (s : State) : List State :=
  let targets := s.row.edges.flatMap fun (_, move) => match move with
    | .goto next => [next]
    | .call part back => [part, back]
    | .back => []
  targets ++ match s.row.fallback with
    | .enter part back => [part, back]
    | .jump next => [next]
    | .fail _ | .leave => []

/-- The start and every state that some row names. -/
def named : List State := (start :: all.flatMap successors).eraseDups

/-- How many fallbacks may follow in a row from a state before a part is left,
and one for each part that is entered. -/
def rank : State → Nat
  | exprStart => 1
  | bodyNext | loopNext => 2
  | condStart | operator | condNext => 3
  | _ => 0

end State

/-- A state and the states to return to, innermost first. -/
structure Pushdown where
  state : State
  stack : List State
deriving DecidableEq, Repr

namespace Pushdown

/-- Entering a part lowers the rank by more than the stack grows. -/
theorem rank_enter {s part back : State}
    (h : s.row.fallback = .enter part back) : part.rank + 1 < s.rank := by
  cases s
  all_goals simp [State.row] at h
  all_goals simp [State.rank, ← h.1]

/-- Falling on to another state lowers the rank. -/
theorem rank_jump {s next : State} (h : s.row.fallback = .jump next) :
    next.rank < s.rank := by
  cases s
  all_goals simp [State.row] at h
  all_goals simp [State.rank, ← h]

/-- A state that leaves a part has the highest rank, so that no state returned
to outweighs the stack. -/
theorem rank_leave {s : State} (h : s.row.fallback = .leave) (back : State) :
    back.rank < s.rank + 1 := by
  cases s
  all_goals simp [State.row] at h
  all_goals cases back <;> simp [State.rank]

/-- Why a token is refused: what was wanted instead. -/
abbrev Refusal := String

/-- Takes the token along an edge. -/
def take (p : Pushdown) : Move → Except Refusal Pushdown
  | .goto next => .ok { p with state := next }
  | .call part back => .ok ⟨part, back :: p.stack⟩
  | .back =>
    match p.stack with
    | next :: stack => .ok ⟨next, stack⟩
    | [] => .error "end of input"

/-- Offers a token, or the end of the input, until an edge takes it. -/
def offer (p : Pushdown) (token : Option Token) : Except Refusal Pushdown :=
  match p.state.row.edges.find? (·.1.fits token) with
  | some (_, move) => p.take move
  | none =>
    match _falls : p.state.row.fallback with
    | .fail (some wanted) => .error wanted
    | .fail none => .error p.state.row.wanted
    | .enter part back => offer ⟨part, back :: p.stack⟩ token
    | .leave =>
      match _stacked : p.stack with
      | next :: stack => offer ⟨next, stack⟩ token
      | [] => .error "end of input"
    | .jump next => offer ⟨next, p.stack⟩ token
termination_by p.stack.length + p.state.rank
decreasing_by
  · have := rank_enter _falls
    simp
    omega
  · have := rank_leave _falls next
    simp [_stacked]
    omega
  · have := rank_jump _falls
    simp
    omega

/-- Offers tokens one by one and then the end of the input. -/
def offerAll (whole : List Token) :
    Pushdown → List Token → Except SyntaxError Unit
  | p, [] =>
    match p.offer none with
    | .ok _ => .ok ()
    | .error wanted => .error (.unexpected wanted whole none)
  | p, token :: rest =>
    match p.offer (some token) with
    | .ok next => offerAll whole next rest
    | .error wanted => .error (.unexpected wanted whole (some token))

/-- Checks that tokens are a program. -/
def check (tokens : List Token) : Except SyntaxError Unit :=
  offerAll tokens ⟨.start, []⟩ tokens

end Pushdown

end Reckon
