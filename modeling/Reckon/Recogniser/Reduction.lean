import Reckon.Code.Program
import Reckon.Grammar.Language
import Reckon.Recogniser.SyntaxError

/-!
# Reduction by precedence

An automaton with a stack reads the input from the left. While the symbol on
the stack comes less than or equal to the next one, the next one is shifted;
when it comes more, a phrase has ended, and the automaton goes back down the
stack to where the phrase began, that is, to the first symbol that comes less
than the one above it. What lies in between, the *base*, is replaced by the
left-hand side of the first production that has it as right-hand side, and the
code of this production is put out.

The input is accepted when the start symbol has come to the top and only the
end mark is left. The end mark is also at the bottom of the stack, so something
comes less than every base.

Each action is recorded with the stack and the next few symbols of the input. A
shift shows the stack before it, a reduction the stack after it.
-/

namespace Reckon

/-- A symbol and the token it came from. -/
structure Entry where
  symbol : Symbol
  token : Token
deriving Repr, Inhabited

/-- What the automaton does next. -/
inductive Action where
  | shift (relation : Relation)
  | reduce (lhs : Symbol) (base : List Symbol)
  | accept
deriving DecidableEq, Repr

/-- A recorded action. -/
structure TraceStep where
  stack : List Symbol
  input : List Symbol
  action : Action
deriving DecidableEq, Repr

/-- What a successful reduction yields. -/
structure Parsed where
  /-- The code of the productions, in the order of the reductions. -/
  code : Program
  reductions : Nat
  steps : List TraceStep
deriving Repr

/-- The automaton between two actions; the top of the stack comes first. -/
structure Automaton where
  stack : List Entry
  input : List Entry
  code : Program := {}
  reductions : Nat := 0
deriving Repr

namespace Action

def text : Action → String
  | shift relation => "shift (" ++ relation.text ++ ")"
  | reduce lhs base => "reduce " ++ lhs.text ++ " -> " ++ Symbol.texts base
  | accept => "accept"

end Action

/-- A recorded action as a line of a table. -/
def TraceStep.text (s : TraceStep) : String :=
  Text.atLeft 40 (Symbol.texts s.stack) ++ " | " ++ Text.atLeft 30
    (Symbol.texts s.input) ++ " | " ++ s.action.text

namespace Emission

/-- Puts out the code of a production for the tokens it reduces. -/
def emit (base : List Token) (p : Program) : Emission → Program
  | operand =>
    match base with
    | .word (.identifier name) _ _ :: _ => p.pushName name
    | .word (.constant value) _ _ :: _ => p.pushConstant value
    | _ => p
  | operator =>
    match (base[1]?.bind Token.keyword?).bind Op.ofOperator? with
    | some op => p.push op
    | none => p
  | negation => p.push .neg
  | not => p.push .not

end Emission

namespace Automaton

/-- The end mark as an entry. -/
def endEntry (line : Nat) : Entry := ⟨.endMark, .keyword "#" line⟩

/-- The classes of all tokens, or the first token that has none. -/
def classifyAll (g : Grammar) : List Token → Except SyntaxError (List Entry)
  | [] => .ok []
  | token :: rest =>
    match g.classify token with
    | none => .error (.unknownToken token.text token.line)
    | some symbol => do return ⟨symbol, token⟩ :: (← classifyAll g rest)

/-- The automaton before its first action. -/
def start (g : Grammar) (tokens : List Token) :
    Except SyntaxError Automaton := do
  let input ← classifyAll g tokens
  return {
    stack := [endEntry 0]
    input := input ++ [endEntry (Token.lastLine tokens)] }

/-- Goes down the stack to where the base begins. Gives the base from the left,
and the stack below it. The entry `first` is the lowest so far and `behind`
what stands above it. -/
def splitBase (table : Precedence) (first : Entry) (behind : List Entry) :
    List Entry → Except SyntaxError (List Entry × List Entry)
  | [] => .ok (first :: behind, [])
  | top :: rest =>
    match table.get? top.symbol first.symbol with
    | some .less => .ok (first :: behind, top :: rest)
    | some _ => splitBase table top (first :: behind) rest
    | none => .error (.noRelation top.symbol first.symbol first.token.line)

/-- Replaces the base by the left-hand side of its production, which then
stands where the base began. -/
def reduce (g : Grammar) (a : Automaton) (base below : List Entry) :
    Except SyntaxError (Action × Automaton) :=
  let symbols := base.map Entry.symbol
  let line := (base.head?.map (·.token.line)).getD 0
  match g.find? symbols with
  | none => .error (.noProduction symbols line)
  | some production =>
    let code := match production.emission with
      | some emission => emission.emit (base.map Entry.token) a.code
      | none => a.code
    let token := .word (.nonterminal production.lhs.text) line none
    .ok (.reduce production.lhs symbols,
      { a with stack := ⟨production.lhs, token⟩ :: below, code
               reductions := a.reductions + 1 })

/-- One action. Accepting leaves the automaton as it is. -/
def step (g : Grammar) (table : Precedence) (a : Automaton) :
    Except SyntaxError (Action × Automaton) :=
  match a.stack, a.input with
  | top :: below, next :: rest =>
    if top.symbol = g.start ∧ next.symbol = .endMark then .ok (.accept, a)
    else match table.get? top.symbol next.symbol with
      | none => .error (.noRelation top.symbol next.symbol next.token.line)
      | some .more => do
        let (base, below) ← splitBase table top [] below
        reduce g a base below
      | some relation =>
          .ok (.shift relation,
            { a with stack := next :: a.stack, input := rest })
  -- No run gets here. A reduction leaves its left-hand side on the stack, and
  -- in a table that was built nothing but `more` stands before the end mark, so
  -- that the end mark is never shifted and stays in the input.
  | _, _ => .error (.noProduction [.endMark] 1)

/-- How an action is recorded, given the automaton before and after it. -/
def recorded (before : Automaton) (action : Action) (after : Automaton) :
    TraceStep :=
  let shown := match action with
    | .reduce _ _ => after
    | _ => before
  ⟨(shown.stack.map Entry.symbol).reverse,
    (before.input.take 6).map Entry.symbol, action⟩

/-- Acts until the input is accepted, so many times at most. -/
def run (g : Grammar) (table : Precedence) (line : Nat) :
    (budget : Nat) → Automaton → Except SyntaxError Parsed
  | 0, _ => .error (.endless line)
  | budget + 1, a => do
    let (action, next) ← step g table a
    match action with
    | .accept => return ⟨next.code, next.reductions, [recorded a action next]⟩
    | _ =>
      let parsed ← run g table line budget next
      return { parsed with steps := recorded a action next :: parsed.steps }

/-- More actions than an input of some length can need. Every shift and every
reduction of two symbols or more is followed by at most one reduction of a
single symbol per production, unless these go round in a circle. -/
def budget (g : Grammar) (length : Nat) : Nat :=
  (2 * length + 4) * (g.productions.length + 2)

/-- Reduces a row of tokens to the start symbol. -/
def parse (g : Grammar) (table : Precedence) (tokens : List Token) :
    Except SyntaxError Parsed := do
  let a ← start g tokens
  run g table (Token.lastLine tokens) (budget g tokens.length) a

end Automaton

end Reckon
