import Reckon.Code.Composition
import Reckon.Proofs.Grammar.Classes

/-!
# Syntax trees

What a program says, without the words that say it. There is one family of
trees for arithmetic and conditions and one for statements, each indexed by
what a tree can stand for, so that a tree that exists is well formed.

The binary operators form four *levels*. A list of a level is grouped to the
left, and what its operators join belongs to the tier below: factors make up
products, products sums, tests make up conjunctions and these conditions. A
minus sign of one operand belongs to the first product of a sum and to nothing
else.

A tree has one spelling, its row of lexemes. Where the words stand and what
their places in the tables are is left open: tokens spell a tree if their
lexemes are those of the tree.
-/

namespace Reckon

/-! ## Arithmetic and conditions -/

/-- The operators that are grouped alike. -/
inductive Level where
  | product
  | sum
  | conjunction
  | condition
deriving DecidableEq

/-- What a tree can stand for: an operand, something true or false by itself,
or a list of a level. -/
inductive Tier where
  | factor
  | test
  | chain (l : Level)
deriving DecidableEq

namespace Level

/-- What the operators of a level join. -/
abbrev below : Level → Tier
  | product => .factor
  | sum => .chain product
  | conjunction => .test
  | condition => .chain conjunction

/-- The operators of a level. -/
def operators : Level → List Binary
  | product => [.mul, .div]
  | sum => [.add, .sub]
  | conjunction => [.and]
  | condition => [.or]

/-- An operator of a level. -/
abbrev Operator (l : Level) := { o : Binary // o ∈ l.operators }

end Level

/-- The operators that compare two numbers. -/
def Binary.comparisons : List Binary := [.lt, .le, .gt, .ge, .eq, .ne]

/-- An operator that compares two numbers. -/
abbrev Comparison := { o : Binary // o ∈ Binary.comparisons }

/-- Arithmetic and conditions. -/
inductive Formula : Tier → Type where
  | name (x : String) : Formula .factor
  | constant (v : Single) : Formula .factor
  | group (e : Formula (.chain .sum)) : Formula .factor
  | compare (a : Formula (.chain .sum)) (o : Comparison)
      (b : Formula (.chain .sum)) : Formula .test
  | bracket (c : Formula (.chain .condition)) : Formula .test
  | not (a : Formula .test) : Formula .test
  | only {l : Level} (a : Formula l.below) : Formula (.chain l)
  | negated (a : Formula (.chain .product)) : Formula (.chain .sum)
  | join {l : Level} (a : Formula (.chain l)) (o : l.Operator)
      (b : Formula l.below) : Formula (.chain l)

/-- Arithmetic that can stand on either side of a comparison. -/
abbrev Expression := Formula (.chain .sum)

/-- What an `if` can ask. -/
abbrev Condition := Formula (.chain .condition)

/-- The words of a formula. -/
def Formula.lexemes {t : Tier} : Formula t → List Lexeme
  | name x => [.identifier x]
  | constant v => [.constant v]
  | group e => .keyword "(" :: (e.lexemes ++ [.keyword ")"])
  | compare a o b => a.lexemes ++ .keyword o.val.text :: b.lexemes
  | bracket c => .keyword "[" :: (c.lexemes ++ [.keyword "]"])
  | not a => .keyword "!" :: a.lexemes
  | only a => a.lexemes
  | negated a => .keyword "-" :: a.lexemes
  | join a o b => a.lexemes ++ .keyword o.val.text :: b.lexemes

/-! ## Statements -/

/-- A list of names that is not empty. -/
structure Names where
  first : String
  others : List String

namespace Names

/-- The names, in order. -/
def toList (n : Names) : List String := n.first :: n.others

/-- The words of a list of names: a comma stands before each. -/
def lexemes (n : Names) : List Lexeme :=
  n.toList.flatMap fun x => [.keyword ",", .identifier x]

end Names

/-- What a tree of statements can stand for: a statement without a label, the
statement of a line, or lines one below the other. -/
inductive Extent where
  | bare
  | line
  | block
deriving DecidableEq

/-- Statements. -/
inductive Stmt : Extent → Type where
  | assign (x : String) (e : Expression) : Stmt .bare
  | transfer (kind : Transfer) (names : Names) : Stmt .bare
  | branch (c : Condition) (target : String) : Stmt .bare
  | loop (parameter : String) (first last : Expression) (body : Stmt .block) :
      Stmt .bare
  | plain (s : Stmt .bare) : Stmt .line
  | labelled (label : String) (s : Stmt .bare) : Stmt .line
  | one (s : Stmt .line) : Stmt .block
  | more (before : Stmt .block) (s : Stmt .line) : Stmt .block

/-- The words of statements. A block starts with a line break, and its last
line is still open. -/
def Stmt.lexemes {x : Extent} : Stmt x → List Lexeme
  | assign x e => .identifier x :: .keyword "=" :: e.lexemes
  | transfer kind names =>
      .keyword kind.keyword :: .keyword "(" :: (names.lexemes ++ [.keyword ")"])
  | branch c target =>
      .keyword "if" :: (c.lexemes ++
        [.keyword "then", .keyword "goto", .label target])
  | loop parameter first last body =>
      .keyword "do" :: .identifier parameter :: .keyword "=" ::
        (first.lexemes ++ .keyword "to" :: (last.lexemes ++ (body.lexemes ++
          [.keyword lineBreak, .keyword "next"])))
  | plain s => s.lexemes
  | labelled label s => .label label :: .keyword ":" :: s.lexemes
  | one s => .keyword lineBreak :: s.lexemes
  | more before s => before.lexemes ++ .keyword lineBreak :: s.lexemes

/-! ## Programs -/

/-- Declarations: one list of names and more behind semicolons. -/
inductive Definitions where
  | one (names : Names)
  | more (before : Definitions) (names : Names)

/-- The words of declarations. -/
def Definitions.lexemes : Definitions → List Lexeme
  | one names => names.lexemes ++ [.keyword ":", .keyword "float"]
  | more before names =>
      before.lexemes ++ .keyword ";" ::
        (names.lexemes ++ [.keyword ":", .keyword "float"])

/-- A whole program. -/
structure Source where
  name : String
  definitions : Definitions
  body : Stmt .block

/-- The words of a program. -/
def Source.lexemes (s : Source) : List Lexeme :=
  .keyword "program" :: .identifier s.name :: .keyword lineBreak ::
    .keyword "var" :: (s.definitions.lexemes ++ .keyword lineBreak ::
      .keyword "begin" :: (s.body.lexemes ++
        [.keyword lineBreak, .keyword "end"]))

end Reckon
