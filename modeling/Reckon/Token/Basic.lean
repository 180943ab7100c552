import Reckon.Single.Shortest

/-!
# Tokens

The words of a program. A *lexeme* says what a word is: a name, a constant, a
label, or a fixed text, under which fall the reserved words, the operators, the
punctuation and the line break, since lines matter in this language. A token is
a lexeme at a line, together with its place in the table of its class. Grammars
also speak of *phrases*, rows of tokens that stand for a right-hand side, and
of the names of their nonterminals; no text is ever read as either.
-/

namespace Reckon

/-- What a word is. -/
inductive Lexeme where
  | identifier (name : String)
  | constant (value : Single)
  | label (name : String)
  /-- Reserved words, operators, punctuation and the line break. -/
  | keyword (text : String)
  /-- The name of a nonterminal of a grammar. -/
  | nonterminal (name : String)
deriving Repr, Inhabited

/-- A word at a line of the source, or a row of such words. Lines count from
one; what stands in no source has line zero. -/
inductive Token where
  | word (lexeme : Lexeme) (line : Nat) (index : Option Nat)
  | phrase (parts : List Token) (line : Nat)
deriving Repr, Inhabited

/-- The text of the line break. -/
def lineBreak : String := "\n"

/-- The words that no name may be spelt like. -/
def reservedWords : List String :=
  ["program", "var", "float", "begin", "end", "readl", "writel", "do", "to",
    "next", "if", "then", "goto", "and", "or"]

namespace Lexeme

/-- The text of a lexeme as messages show it. -/
def text : Lexeme → String
  | identifier name => name
  | constant value => value.toText
  | label name => name
  | keyword text => if text = lineBreak then "\\n" else text
  | nonterminal name => "<" ++ name ++ ">"

/-- Whether two lexemes are taken for the same. Constants are, if they are near
each other, so this is neither reflexive nor transitive. -/
def agrees : Lexeme → Lexeme → Bool
  | identifier a, identifier b => a == b
  | constant a, constant b => a.near b
  | label a, label b => a == b
  | keyword a, keyword b => a == b
  | nonterminal a, nonterminal b => a == b
  | _, _ => false

end Lexeme

namespace Token

/-- A fixed text at a line. -/
def keyword (text : String) (line : Nat) : Token :=
  .word (.keyword text) line none

def line : Token → Nat
  | word _ line _ => line
  | phrase _ line => line

def index : Token → Option Nat
  | word _ _ index => index
  | phrase _ _ => none

/-- A phrase at the line of its first part. -/
def ofParts (parts : List Token) : Token :=
  .phrase parts ((parts.head?.map line).getD 0)

/-- The fixed text of a token, if it is one. -/
def keyword? : Token → Option String
  | word (.keyword text) _ _ => some text
  | _ => none

def isKeyword (token : Token) (text : String) : Bool :=
  token.keyword? == some text

def isLineBreak (token : Token) : Bool := token.isKeyword lineBreak

/-- Whether the token is a value that a binary operator can follow. -/
def isOperand : Token → Bool
  | word (.identifier _) _ _ => true
  | word (.constant _) _ _ => true
  | _ => false

mutual

/-- The text of a token; the parts of a phrase stand one blank apart. -/
def text : Token → String
  | word lexeme _ _ => lexeme.text
  | phrase parts _ => " ".intercalate (texts parts)

/-- The texts of some tokens. -/
def texts : List Token → List String
  | [] => []
  | token :: rest => token.text :: texts rest

end

mutual

/-- Whether two tokens are taken for the same: their lexemes agree, wherever
they stand, or they are phrases that agree part by part. -/
def agrees : Token → Token → Bool
  | word a _ _, word b _ _ => a.agrees b
  | phrase a _, phrase b _ => allAgree a b
  | _, _ => false

/-- Whether two rows of tokens have one length and agree place by place. -/
def allAgree : List Token → List Token → Bool
  | [], [] => true
  | a :: as, b :: bs => a.agrees b && allAgree as bs
  | _, _ => false

end

/-- The line on which a list of tokens ends; an empty one ends on the first. -/
def lastLine (tokens : List Token) : Nat := (tokens.getLast?.map line).getD 1

end Token

end Reckon
