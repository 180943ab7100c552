import Reckon.Sorting
import Reckon.Token.Basic

/-!
# Grammars

A grammar is an ordered list of productions with a start symbol. Its terminals
are classes of tokens: identifiers, constants, labels, and the fixed texts one
by one. Order matters twice, for a token belongs to the first terminal that
accepts it and a row of symbols is reduced by the first production it matches.

A production can carry a note on the code it stands for, so that the grammar of
a language also says how its expressions become postfix.
-/

namespace Reckon

/-- A position in a production. -/
inductive Symbol where
  | identifier
  | constant
  | label
  /-- A fixed text. -/
  | keyword (text : String)
  | nonterminal (name : String)
  /-- The mark at both ends of every input. -/
  | endMark
deriving DecidableEq, Repr, Inhabited

namespace Symbol

def isNonterminal : Symbol → Bool
  | nonterminal _ => true
  | _ => false

def isTerminal : Symbol → Bool
  | nonterminal _ | endMark => false
  | _ => true

/-- The text of a symbol in tables and messages. -/
def text : Symbol → String
  | identifier => "id"
  | constant => "const"
  | label => "label"
  | keyword text => if text = lineBreak then "NL" else text
  | nonterminal name => name
  | endMark => "#"

/-- The texts of some symbols, one blank apart. -/
def texts (symbols : List Symbol) : String := " ".intercalate (symbols.map text)

/-- Whether a token is of the class that a terminal stands for. -/
def accepts : Symbol → Token → Bool
  | identifier, .word (.identifier _) _ _ => true
  | constant, .word (.constant _) _ _ => true
  | label, .word (.label _) _ _ => true
  | keyword expected, .word (.keyword text) _ _ => expected == text
  | _, _ => false

/-- The symbol as a token, to show productions: fixed texts stand for
themselves, all else for a name. -/
def toToken : Symbol → Token
  | keyword text => .keyword text 0
  | symbol => .word (.nonterminal symbol.text) 0 none

/-- The place of a symbol's kind in the order of symbols. -/
def kind : Symbol → Nat
  | identifier => 0
  | constant => 1
  | label => 2
  | keyword _ => 3
  | nonterminal _ => 4
  | endMark => 5

/-- What orders symbols of one kind. -/
def key : Symbol → String
  | keyword text => text
  | nonterminal name => name
  | _ => ""

/-- The order of symbols: classes of tokens, then fixed texts by text, then
nonterminals by name, then the end mark. -/
def before (a b : Symbol) : Bool :=
  a.kind < b.kind || (a.kind == b.kind && decide (a.key ≤ b.key))

/-- The symbols of a list, each once and in order. -/
def sorted (symbols : List Symbol) : List Symbol :=
  sortBy before symbols.eraseDups

end Symbol

/-- The code that a production stands for. -/
inductive Emission where
  /-- The value of the one token that is reduced. -/
  | operand
  /-- The operator in the middle of what is reduced. -/
  | operator
  /-- The minus sign of one operand. -/
  | negation
  /-- The logical not. -/
  | not
deriving DecidableEq, Repr

/-- A production, with the code it stands for if it stands for any. -/
structure Production where
  lhs : Symbol
  rhs : List Symbol
  emission : Option Emission := none
deriving DecidableEq, Repr

/-- The right-hand side of a production as a phrase. -/
def Production.phrase (p : Production) : Token :=
  .ofParts (p.rhs.map Symbol.toToken)

/-- An ordered list of productions with a start symbol. -/
structure Grammar where
  start : Symbol
  productions : List Production
deriving Repr

namespace Grammar

/-- The productions of a symbol, in order. -/
def productionsOf (g : Grammar) (lhs : Symbol) : List Production :=
  g.productions.filter (·.lhs = lhs)

/-- The first production with a right-hand side. -/
def find? (g : Grammar) (rhs : List Symbol) : Option Production :=
  g.productions.find? (·.rhs = rhs)

/-- All symbols of right-hand sides, in order and with repetitions. -/
def occurrences (g : Grammar) : List Symbol := g.productions.flatMap (·.rhs)

/-- The terminals, in order of first appearance. -/
def terminals (g : Grammar) : List Symbol :=
  (g.occurrences.filter Symbol.isTerminal).eraseDups

/-- The first terminal that accepts a token. -/
def classify (g : Grammar) (token : Token) : Option Symbol :=
  g.terminals.find? (·.accepts token)

end Grammar

end Reckon
