import Reckon.Grammar.Basic

/-!
# Syntax errors

Why a row of tokens is no program, with the line of the token where this was
noticed. Reduction by precedence knows neighbours and bases; the recognisers
that read from the left know what they expected and what they found instead.
-/

namespace Reckon

/-- Why tokens are no program. -/
inductive SyntaxError where
  /-- A token is of no class of the grammar. -/
  | unknownToken (text : String) (line : Nat)
  /-- Two symbols are never neighbours. -/
  | noRelation (left right : Symbol) (line : Nat)
  /-- What was delimited for reduction is no right-hand side. -/
  | noProduction (base : List Symbol) (line : Nat)
  /-- Something else was expected; nothing found is the end of the input. -/
  | expected (wanted : String) (found : Option String) (line : Nat)
  /-- The reductions go round in a circle. -/
  | endless (line : Nat)
deriving DecidableEq, Repr

namespace SyntaxError

/-- The error that a token, or else the end of the input, is not what was
wanted. The end of the input counts to its last line. -/
def unexpected (wanted : String) (tokens : List Token) (found : Option Token) :
    SyntaxError :=
  expected wanted (found.map Token.text)
    ((found.map Token.line).getD (Token.lastLine tokens))

def line : SyntaxError → Nat
  | unknownToken _ line => line
  | noRelation _ _ line => line
  | noProduction _ line => line
  | expected _ _ line => line
  | endless line => line

/-- What a syntax error complains about. -/
def complaint : SyntaxError → String
  | unknownToken text _ => "unknown token '" ++ text ++ "'"
  | noRelation left right _ =>
    "syntax error: '" ++ right.text ++ "' cannot follow '" ++ left.text ++ "'"
  | noProduction base _ =>
      "syntax error: no rule reduces '" ++ Symbol.texts base ++ "'"
  | expected wanted found _ =>
    let found := match found with
      | some text => "'" ++ text ++ "'"
      | none => "end of input"
    "syntax error: expected " ++ wanted ++ ", found " ++ found
  | endless _ => "syntax error: the reductions do not end"

def message (e : SyntaxError) : String :=
  "line " ++ toString e.line ++ ": " ++ e.complaint

end SyntaxError

end Reckon
