import Reckon.Recogniser.Descent
import Reckon.Recogniser.Pushdown
import Reckon.Recogniser.Reduction

/-!
# The three recognisers

Reduction by precedence decides what a program is. Two more recognisers, one
that matches patterns and one that is a pushdown automaton, can be asked first;
they describe an error by what was expected.
-/

namespace Reckon

/-- Why a text was not accepted as a program by a recogniser. -/
inductive ParseError where
  /-- The grammar is not fit for reduction. -/
  | conflict (c : Conflict)
  | illFormed (e : SyntaxError)
deriving DecidableEq, Repr

/-- Reduces tokens with the productions of a grammar and its relations, if it
has any. -/
def Grammar.parseBy (g : Grammar) (table : Except Conflict Precedence)
    (tokens : List Token) : Except ParseError Parsed := do
  let table ← table.mapError .conflict
  (Automaton.parse g table tokens).mapError .illFormed

/-- Reduces tokens with the productions of a grammar. -/
def Grammar.parse (g : Grammar) (tokens : List Token) :
    Except ParseError Parsed :=
  g.parseBy (Precedence.ofGrammar g) tokens

/-- Reduces tokens with the grammar of the language. -/
def Language.parse (tokens : List Token) : Except ParseError Parsed :=
  grammar.parseBy precedence tokens

/-- The recognisers. -/
inductive Checker where
  | precedence
  | descent
  | pushdown
deriving DecidableEq, Repr

namespace Checker

/-- All recognisers. -/
def all : List Checker := [precedence, descent, pushdown]

/-- The name of a recogniser in reports. -/
def name : Checker → String
  | precedence => "precedence"
  | descent => "recursive descent"
  | pushdown => "state machine"

/-- Checks that tokens are a program. -/
def check (checker : Checker) (tokens : List Token) : Except ParseError Unit :=
  match checker with
  | precedence => (Language.parse tokens).map fun _ => ()
  | descent => (Descent.check tokens).mapError .illFormed
  | pushdown => (Pushdown.check tokens).mapError .illFormed

end Checker

end Reckon
