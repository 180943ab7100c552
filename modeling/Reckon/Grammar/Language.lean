import Reckon.Grammar.Precedence

/-!
# The grammar of the language

A program has a header, declarations and a body of statements, one on a line.
The productions are arranged for reduction by precedence: every list has an
outer nonterminal that closes it (`Expression1` over `Expression`), so that
what ends a list can be told from what continues it, and lists of identifiers
start with a comma, because a lone identifier is already a factor.

Their order decides nothing here beyond the order of terminals, since no two
right-hand sides are alike.
-/

namespace Reckon.Language

open Reckon.Symbol (identifier constant label keyword nonterminal)

def program := nonterminal "Program"
def programName := nonterminal "ProgramName"
def definitions := nonterminal "DefList"
def closedDefinitions := nonterminal "DefList1"
def definition := nonterminal "Def"
def identifiers := nonterminal "IdList"
def closedIdentifiers := nonterminal "IdList1"
def statements := nonterminal "StatementList"
def closedStatements := nonterminal "StatementList1"
def statement := nonterminal "Statement"
def unlabelledStatement := nonterminal "UnlabeledStatement"
def expression := nonterminal "Expression"
def closedExpression := nonterminal "Expression1"
def bound := nonterminal "Expression2"
def term := nonterminal "Term"
def closedTerm := nonterminal "Term1"
def factor := nonterminal "Mult"
def condition := nonterminal "LogicalExpression"
def closedCondition := nonterminal "LogicalExpression1"
def conjunction := nonterminal "LogicalTerm"
def closedConjunction := nonterminal "LogicalTerm1"
def logicalFactor := nonterminal "LogicalMult"
def relation := nonterminal "Relation"

/-- The terminal of the line break. -/
def newLine := keyword lineBreak

/-- The operators that compare two expressions. -/
def relationalOperators : List String := ["<", "<=", ">", ">=", "==", "!="]

/-- Header, declarations and body. -/
def frameProductions : List Production :=
  [⟨program, [programName, newLine, keyword "var", closedDefinitions, newLine,
      keyword "begin", closedStatements, keyword "end"], none⟩,
    ⟨definitions, [definitions, keyword ";", definition], none⟩,
    ⟨definitions, [definition], none⟩,
    ⟨closedDefinitions, [definitions], none⟩,
    ⟨definition, [closedIdentifiers, keyword ":", keyword "float"], none⟩]

/-- Statements, one on a line. -/
def statementProductions : List Production :=
  [⟨statements, [statements, newLine, statement], none⟩,
    ⟨statements, [newLine, statement], none⟩,
    ⟨statement, [unlabelledStatement], none⟩,
    ⟨statement, [label, keyword ":", unlabelledStatement], none⟩,
    ⟨closedStatements, [statements, newLine], none⟩,
    ⟨unlabelledStatement, [identifier, keyword "=", closedExpression], none⟩,
    ⟨unlabelledStatement,
      [keyword "readl", keyword "(", closedIdentifiers, keyword ")"], none⟩,
    ⟨unlabelledStatement,
      [keyword "writel", keyword "(", closedIdentifiers, keyword ")"], none⟩,
    ⟨unlabelledStatement,
      [keyword "do", identifier, keyword "=", closedExpression,
        keyword "to", bound, closedStatements, keyword "next"], none⟩,
    ⟨unlabelledStatement,
      [keyword "if", closedCondition, keyword "then", keyword "goto", label],
      none⟩]

/-- Lists of identifiers and the header. -/
def nameProductions : List Production :=
  [⟨closedIdentifiers, [identifiers], none⟩,
    ⟨identifiers, [keyword ",", identifier], none⟩,
    ⟨identifiers, [identifiers, keyword ",", identifier], none⟩,
    ⟨programName, [keyword "program", identifier], none⟩]

/-- Arithmetic. A minus sign of one operand stands before the first term
only. -/
def arithmeticProductions : List Production :=
  [⟨expression, [closedTerm], none⟩,
    ⟨closedExpression, [expression], none⟩,
    ⟨bound, [closedExpression], none⟩,
    ⟨expression, [expression, keyword "+", closedTerm], some .operator⟩,
    ⟨expression, [expression, keyword "-", closedTerm], some .operator⟩,
    ⟨expression, [keyword "-", closedTerm], some .negation⟩,
    ⟨closedTerm, [term], none⟩,
    ⟨term, [factor], none⟩,
    ⟨term, [term, keyword "*", factor], some .operator⟩,
    ⟨term, [term, keyword "/", factor], some .operator⟩,
    ⟨factor, [keyword "(", closedExpression, keyword ")"], none⟩,
    ⟨factor, [identifier], some .operand⟩,
    ⟨factor, [constant], some .operand⟩]

/-- Conditions. -/
def logicProductions : List Production :=
  [⟨closedCondition, [condition], none⟩,
    ⟨condition, [closedConjunction], none⟩,
    ⟨condition, [condition, keyword "or", closedConjunction], some .operator⟩,
    ⟨conjunction, [logicalFactor], none⟩,
    ⟨closedConjunction, [conjunction], none⟩,
    ⟨conjunction, [conjunction, keyword "and", logicalFactor], some .operator⟩,
    ⟨logicalFactor, [relation], none⟩,
    ⟨logicalFactor, [keyword "[", closedCondition, keyword "]"], none⟩,
    ⟨logicalFactor, [keyword "!", logicalFactor], some .not⟩]

/-- Comparisons, one production per operator. -/
def relationProductions : List Production :=
  relationalOperators.map fun operator =>
    ⟨relation, [closedExpression, keyword operator, closedExpression],
      some .operator⟩

/-- The grammar of the language. -/
def grammar : Grammar where
  start := program
  productions := frameProductions ++ statementProductions ++ nameProductions ++
    arithmeticProductions ++ logicProductions ++ relationProductions

/-- The precedence relations of the language. -/
def precedence : Except Conflict Precedence := Precedence.ofGrammar grammar

end Reckon.Language
