import Reckon.Token.Basic

/-!
# Patterns

A pattern matches some tokens at a cursor and moves the cursor behind them.
Patterns are built from tests of one token and of the end of the input by
sequence, option, repetition and choice. Nothing is undone: a repetition takes
as many rounds as it can, and a choice the first alternative that matches.

A match that fails reports the failure that got furthest into the input, which
need not be the last one. A cursor therefore carries the furthest failure of
all branches that were given up on the way to it. Of two failures that got
equally far the one in hand counts, not the one carried along.
-/

namespace Reckon

/-- What a failed match was looking for. -/
inductive Wanted where
  | keyword (text : String)
  /-- A class of tokens or a whole construct, by its name. -/
  | construct (name : String)
  | endOfInput
deriving DecidableEq, Repr

def Wanted.text : Wanted → String
  | keyword text =>
      if text = lineBreak then "line break" else "'" ++ text ++ "'"
  | construct name => name
  | endOfInput => "end of input"

/-- A failed match and the number of tokens in front of it. -/
structure Failure where
  wanted : Wanted
  position : Nat
deriving DecidableEq, Repr

/-- The failure that got further; of equals the first. -/
def Failure.deeper (failure : Failure) : Option Failure → Failure
  | some other => if failure.position < other.position then other else failure
  | none => failure

/-- A place in the input: the number of tokens matched, the tokens left, and
the furthest failure of a branch that was given up. -/
structure Cursor where
  position : Nat
  rest : List Token
  furthest : Option Failure := none
deriving Repr

/-- A rule for some tokens. -/
inductive Pattern where
  /-- A fixed text. -/
  | keyword (text : String)
  /-- One of some fixed texts, known by a common name. -/
  | keywordOf (texts : List String) (name : String)
  | identifier
  | constant
  | label
  /-- The end of the input, which takes no token. -/
  | endOfInput
  /-- One pattern behind the other. -/
  | sequence (parts : List Pattern)
  /-- The pattern or nothing. -/
  | option (part : Pattern)
  /-- The pattern as often as it matches and takes a token. -/
  | repetition (part : Pattern)
  /-- The first alternative that matches, known by a common name. -/
  | choice (alternatives : List Pattern) (name : String)
deriving Repr

namespace Cursor

/-- The start of an input. -/
def ofTokens (tokens : List Token) : Cursor := { position := 0, rest := tokens }

/-- The failure to find something here. -/
def fail (c : Cursor) (wanted : Wanted) : Failure :=
  Failure.deeper ⟨wanted, c.position⟩ c.furthest

/-- Carries the failure of a branch that is given up. -/
def note (c : Cursor) (failure : Failure) : Cursor :=
  { c with furthest := some (failure.deeper c.furthest) }

/-- Takes one token that passes a test. -/
def take (c : Cursor) (wanted : Wanted) (test : Token → Bool) :
    Except Failure Cursor :=
  match c.rest with
  | token :: rest =>
    if test token then .ok { c with position := c.position + 1, rest }
      else .error (c.fail wanted)
  | [] => .error (c.fail wanted)

end Cursor

namespace Pattern

/-- The line break. -/
def newLine : Pattern := .keyword lineBreak

/-- Takes rounds as long as they match and move on. A round that fails is given
up, one that takes nothing is the last. -/
def rounds (round : Cursor → Except Failure Cursor) :
    (bound : Nat) → Cursor → Cursor
  | 0, c => c
  | bound + 1, c =>
    match round c with
    | .ok next =>
        if c.position < next.position then rounds round bound next else c
    | .error failure => c.note failure

/-- The failure of a choice none of whose alternatives matched. Unless one of
them got somewhere, the failure is that of the choice as a whole. -/
def noAlternative (c : Cursor) (name : String) : Option Failure → Failure
  | some failure =>
    if c.position < failure.position then failure else c.fail (.construct name)
  | none => c.fail (.construct name)

mutual

/-- Matches a pattern at a cursor. -/
def run : Pattern → Cursor → Except Failure Cursor
  | .keyword text, c => c.take (.keyword text) (·.isKeyword text)
  | .keywordOf texts name, c => c.take (.construct name) fun t =>
      texts.any t.isKeyword
  | .identifier, c => c.take (.construct "identifier") fun
    | .word (.identifier _) _ _ => true
    | _ => false
  | .constant, c => c.take (.construct "constant") fun
    | .word (.constant _) _ _ => true
    | _ => false
  | .label, c => c.take (.construct "label") fun
    | .word (.label _) _ _ => true
    | _ => false
  | .endOfInput, c =>
      if c.rest.isEmpty then .ok c else .error (c.fail .endOfInput)
  | .sequence parts, c => runAll parts c
  | .option part, c =>
    match run part c with
    | .ok next => .ok next
    | .error failure => .ok (c.note failure)
  | .repetition part, c => .ok (rounds (run part) (c.rest.length + 1) c)
  | .choice alternatives name, c => runFirst alternatives name none c

/-- Matches patterns one behind the other. -/
def runAll : List Pattern → Cursor → Except Failure Cursor
  | [], c => .ok c
  | part :: parts, c =>
    match run part c with
    | .ok next => runAll parts next
    | .error failure => .error failure

/-- Matches the first alternative that can be matched, given the furthest
failure of those before. -/
def runFirst :
    List Pattern → String → Option Failure → Cursor → Except Failure Cursor
  | [], name, deepest, c => .error (noAlternative c name deepest)
  | alternative :: others, name, deepest, c =>
    match run alternative c with
    | .ok next =>
      .ok (match deepest with
        | some failure => next.note failure
        | none => next)
    | .error failure => runFirst others name (some (failure.deeper deepest)) c

end

/-- Matches a pattern at the start of an input; gives the number of tokens
matched. -/
def matchTokens (pattern : Pattern) (tokens : List Token) :
    Except Failure Nat :=
  (run pattern (.ofTokens tokens)).map Cursor.position

end Pattern

end Reckon
