import Reckon.Grammar.Language
import Reckon.Recogniser.Pattern
import Reckon.Recogniser.SyntaxError

/-!
# The language as a pattern

Expressions, conditions and statements contain one another, and patterns are
finite. The patterns here are therefore unfolded to a depth: at depth zero
stands a choice without alternatives, which matches nothing, and each level
below may contain the one before. Something nested takes at least one token per
level, its opening bracket or `do`, so a pattern as deep as the input is long
tells its inputs apart from no deeper one.

Each construct is unfolded along its own nesting only, over patterns for what
it contains that are deep enough already. That keeps a pattern as small as its
depth.
-/

namespace Reckon.Descent

open Pattern

/-- Something with a bracket before and behind it. -/
def between (opening closing : String) (inner : Pattern) : Pattern :=
  .sequence [.keyword opening, inner, .keyword closing]

/-- At least one item, and more behind separators. -/
def separated (item separator : Pattern) : Pattern :=
  .sequence [item, .repetition (.sequence [separator, item])]

/-! ## Arithmetic -/

/-- An operand, given what may stand in brackets. -/
def factor (expression : Pattern) : Pattern :=
  .choice [.identifier, .constant, between "(" ")" expression] "operand"

/-- Factors that are multiplied and divided. -/
def term (expression : Pattern) : Pattern :=
  separated (factor expression) (.keywordOf ["*", "/"] "'*' or '/'")

/-- Terms that are added and subtracted. A minus sign of one operand stands
before the first term only. -/
def expression : (depth : Nat) → Pattern
  | 0 => .choice [] "operand"
  | depth + 1 =>
    let term := term (expression depth)
    .sequence [.option (.keyword "-"), term,
      .repetition (.sequence [.keywordOf ["+", "-"] "'+' or '-'", term])]

/-! ## Conditions -/

/-- Two expressions compared. -/
def comparison (expression : Pattern) : Pattern :=
  .sequence [expression,
    .keywordOf Language.relationalOperators "relational operator", expression]

/-- Logical factors joined by `and`, and these by `or`. -/
def condition (logicalFactor : Pattern) : Pattern :=
  separated (separated logicalFactor (.keyword "and")) (.keyword "or")

/-- A condition in brackets, one turned round, or a comparison. -/
def logicalFactor (expression : Pattern) : (depth : Nat) → Pattern
  | 0 => .choice [] "condition"
  | depth + 1 =>
    let inner := logicalFactor expression depth
    .choice [between "[" "]" (condition inner), .sequence [.keyword "!", inner],
      comparison expression] "condition"

/-! ## Statements -/

/-- Identifiers, each with a comma before it. -/
def identifiers : Pattern :=
  .sequence [.keyword ",", .identifier,
    .repetition (.sequence [.keyword ",", .identifier])]

/-- A variable is given a value. -/
def assignment (expression : Pattern) : Pattern :=
  .sequence [.identifier, .keyword "=", expression]

/-- Variables are read or written. -/
def transfer (keyword : String) : Pattern :=
  .sequence [.keyword keyword, between "(" ")" identifiers]

/-- A loop over the values of its parameter. -/
def loop (expression statements : Pattern) : Pattern :=
  .sequence [.keyword "do", .identifier, .keyword "=", expression,
    .keyword "to", expression, statements, .keyword "next"]

/-- A jump on a condition. -/
def jump (condition : Pattern) : Pattern :=
  .sequence [.keyword "if", condition, .keyword "then", .keyword "goto", .label]

/-- A statement with or without a label. -/
def statement (unlabelled : Pattern) : Pattern :=
  .choice [.sequence [.label, .keyword ":", unlabelled], unlabelled] "statement"

/-- Statements on lines of their own, with a line break before each and behind
the last. -/
def statements (unlabelled : Pattern) : Pattern :=
  let statement := statement unlabelled
  .sequence [newLine, statement, .repetition (.sequence [newLine, statement]),
    newLine]

/-- A statement without a label. -/
def unlabelled (expression condition : Pattern) : (depth : Nat) → Pattern
  | 0 => .choice [] "statement"
  | depth + 1 =>
    .choice [assignment expression, transfer "readl", transfer "writel",
      loop expression (statements (unlabelled expression condition depth)),
      jump condition] "statement"

/-! ## Programs -/

/-- The variables of one type. -/
def definition : Pattern :=
  .sequence [identifiers, .keyword ":", .keyword "float"]

/-- A whole program, for nestings up to a depth. -/
def program (depth : Nat) : Pattern :=
  let expression := expression depth
  let condition := condition (logicalFactor expression depth)
  .sequence [.keyword "program", .identifier, newLine, .keyword "var",
    separated definition (.keyword ";"), newLine, .keyword "begin",
    statements (unlabelled expression condition depth), .keyword "end",
    .endOfInput]

/-- Checks that tokens are a program. -/
def check (tokens : List Token) : Except SyntaxError Unit :=
  match (program (tokens.length + 1)).matchTokens tokens with
  | .ok _ => .ok ()
  | .error failure =>
    .error (.unexpected failure.wanted.text tokens tokens[failure.position]?)

end Reckon.Descent
