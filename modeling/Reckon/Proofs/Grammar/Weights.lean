import Reckon.Grammar.Language
import Reckon.Proofs.Grammar.Table

/-!
# The language has a table of precedence

Each symbol of the language can be given two numbers, one for when it stands
on the left of a pair and one for when it stands on the right, such that
comparing them gives the relation of every pair that has one. So no pair is in
two relations, and the table can be built.

The numbers say how tightly a symbol holds what is next to it: what joins
factors holds more tightly than what joins terms, and so on outwards to the
end mark, which holds nothing.
-/

namespace Reckon.Language

/-- How tightly a symbol holds what is on its right. -/
def leftWeight : Symbol → Nat
  | .endMark => 0
  | .label => 4
  | .identifier | .constant => 7
  | .keyword text =>
    if text ∈ ["[", "begin", "end", "if", "then", "to", "var"] then 1
    else if text ∈ [";", lineBreak, "or"] then 2
    else if text ∈ ["!", ":", "and", "goto", "next"] then 3
    else if text ∈ ["+", "-"] then 5
    else if text ∈ ["*", "/"] then 6
    else if text ∈ [")", ",", "do", "program", "readl", "writel"] then 7
    else 4
  | .nonterminal name =>
    if name ∈ ["Expression2", "LogicalExpression1", "StatementList1"] then 1
    else if name ∈ ["DefList1", "LogicalExpression", "ProgramName",
      "StatementList"] then 2
    else if name ∈ ["DefList", "LogicalTerm", "LogicalTerm1", "Statement",
      "UnlabeledStatement"] then 3
    else if name ∈ ["Expression", "IdList"] then 5
    else if name ∈ ["Term", "Term1"] then 6
    else if name = "Mult" then 7
    else 4

/-- How tightly a symbol holds what is on its left. -/
def rightWeight : Symbol → Nat
  | .endMark => 0
  | .label => 3
  | .identifier | .constant => 7
  | .keyword text =>
    if text ∈ ["]", "end", "goto", "next", "program", "then"] then 1
    else if text ∈ [lineBreak, "begin", "or", "var"] then 2
    else if text ∈ [";", "and", "float"] then 3
    else if text ∈ ["+", "-", ","] then 5
    else if text ∈ ["*", "/"] then 6
    else if text ∈ ["(", "="] then 7
    else 4
  | .nonterminal name =>
    if name ∈ ["DefList1", "Expression2", "LogicalExpression1",
      "ProgramName", "StatementList1"] then 1
    else if name ∈ ["Def", "DefList", "LogicalExpression", "LogicalTerm1",
      "Statement", "StatementList"] then 2
    else if name ∈ ["LogicalMult", "LogicalTerm", "UnlabeledStatement"] then 3
    else if name ∈ ["Expression", "IdList", "Term1"] then 5
    else if name ∈ ["Mult", "Term"] then 6
    else 4

/-- The relation that the numbers of two symbols give. -/
def relationByWeight (x y : Symbol) : Relation :=
  if leftWeight x < rightWeight y then .less
  else if leftWeight x = rightWeight y then .equal
  else .more

theorem requirements_by_weight :
    ∀ c ∈ grammar.requirements,
      c.relation = relationByWeight c.left c.right := by
  decide +kernel

/-- The grammar of the language is fit for reduction. -/
theorem exists_precedence : ∃ table, precedence = .ok table :=
  Precedence.exists_of_agrees relationByWeight requirements_by_weight

end Reckon.Language
