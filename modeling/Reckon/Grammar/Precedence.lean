import Reckon.Grammar.Reach
import Reckon.Text.Column

/-!
# Precedence relations

Three relations between neighbouring symbols steer the reduction of an input.
Two symbols that stand side by side in a production are *equal*. If the left
one is a nonterminal, whatever can end it comes *more* than the right one, for
there a phrase ends; if the right one is a nonterminal, the left one comes
*less* than whatever can begin it, for there a phrase begins. Between two
nonterminals both hold, and the ends of the left one come more than the
beginnings of the right one. The end mark comes less than everything on its
right and more than everything on its left.

A grammar is fit for reduction if no pair of symbols is in two relations. The
requirements are listed in a fixed order, and the first that contradicts an
earlier one is reported.
-/

namespace Reckon

/-- How a symbol stands to its right neighbour. -/
inductive Relation where
  | less
  | equal
  | more
deriving DecidableEq, Repr

def Relation.text : Relation → String
  | less => "<"
  | equal => "="
  | more => ">"

/-- A pair of neighbours and their relation. -/
structure Cell where
  left : Symbol
  right : Symbol
  relation : Relation
deriving DecidableEq, Repr

/-- Two relations required of one pair. -/
structure Conflict where
  left : Symbol
  right : Symbol
  existing : Relation
  attempted : Relation
deriving DecidableEq, Repr

def Conflict.message (c : Conflict) : String :=
  "precedence conflict between '" ++ c.left.text ++ "' and '" ++
    c.right.text ++ "': '" ++ c.existing.text ++ "' already recorded, '" ++
    c.attempted.text ++ "' attempted"

/-- The relation of every pair that has one, and the symbols with a row of
their own. -/
structure Precedence where
  cells : List Cell
  rows : List Symbol
deriving Repr

namespace Grammar

/-- The pairs of neighbours in right-hand sides, in order and with
repetitions. -/
def neighbours (g : Grammar) : List (Symbol × Symbol) :=
  g.productions.flatMap fun p => p.rhs.zip p.rhs.tail

/-- Neighbours are equal. -/
def equalCells (g : Grammar) : List Cell :=
  g.neighbours.map fun (left, right) => ⟨left, right, .equal⟩

/-- The ends of a nonterminal come more than the symbol behind it. -/
def moreCells (g : Grammar) : List Cell :=
  g.neighbours.flatMap fun (left, right) =>
    if left.isNonterminal && !right.isNonterminal then
      (g.lastSymbols left).map fun x => ⟨x, right, .more⟩
    else []

/-- A symbol comes less than the beginnings of the nonterminal behind it. -/
def lessCells (g : Grammar) : List Cell :=
  g.neighbours.flatMap fun (left, right) =>
    if !left.isNonterminal && right.isNonterminal then
      (g.firstSymbols right).map fun y => ⟨left, y, .less⟩
    else []

/-- Between two nonterminals a phrase ends and another begins. -/
def betweenCells (g : Grammar) : List Cell :=
  g.neighbours.flatMap fun (left, right) =>
    if left.isNonterminal && right.isNonterminal then
      let beginnings := g.firstSymbols right
      ((g.lastSymbols left).flatMap fun x => beginnings.map fun y =>
        ⟨x, y, .more⟩) ++ beginnings.map fun y => ⟨left, y, .less⟩
    else []

/-- The symbols of right-hand sides, each once and in order. -/
def vocabulary (g : Grammar) : List Symbol := Symbol.sorted g.occurrences

/-- The end mark is around everything. -/
def endCells (g : Grammar) : List Cell :=
  (g.vocabulary.map fun x => ⟨x, .endMark, .more⟩) ++
    g.vocabulary.map fun x => ⟨.endMark, x, .less⟩

/-- All requirements, in the order in which they are checked. -/
def requirements (g : Grammar) : List Cell :=
  g.equalCells ++ g.moreCells ++ g.lessCells ++ g.betweenCells ++ g.endCells

end Grammar

namespace Precedence

/-- The relation recorded for a pair. -/
def lookup (cells : List Cell) (left right : Symbol) : Option Relation :=
  (cells.find? fun c => c.left = left ∧ c.right = right).map Cell.relation

/-- Records a requirement. One that is recorded already changes nothing. -/
def record (cells : List Cell) (c : Cell) : Except Conflict (List Cell) :=
  match lookup cells c.left c.right with
  | none => .ok (c :: cells)
  | some existing =>
    if existing = c.relation then .ok cells
    else .error ⟨c.left, c.right, existing, c.relation⟩

/-- The relations of a grammar, or the first conflict among them. -/
def ofGrammar (g : Grammar) : Except Conflict Precedence := do
  let cells ← g.requirements.foldlM record []
  return ⟨cells,
    if g.vocabulary.isEmpty then [] else g.vocabulary ++ [.endMark]⟩

/-- The relation of two neighbours, if they can be neighbours at all. -/
def get? (table : Precedence) (left right : Symbol) : Option Relation :=
  lookup table.cells left right

/-- The number of rows, the one of the end mark among them. -/
def rowCount (table : Precedence) : Nat := table.rows.length

/-- The number of pairs with a relation. -/
def relationCount (table : Precedence) : Nat := table.cells.length

/-- Every symbol with a row or a column, in order. -/
def symbols (table : Precedence) : List Symbol :=
  Symbol.sorted (table.rows ++ table.cells.map Cell.right)

/-- The largest of some widths. -/
def widest (texts : List String) : Nat :=
  texts.foldl (fun w t => max w t.utf8ByteSize) 0

/-- One row of the matrix: its symbol and the relation to each column. -/
def rowText (table : Precedence) (width : Nat) (columns : List Symbol)
    (left : Symbol) : String :=
  Text.atLeft width left.text ++ String.join (columns.map fun right =>
    " " ++ Text.atCentre right.text.utf8ByteSize
      (((table.get? left right).map Relation.text).getD ".")) ++ "\n"

/-- The relations as a matrix, one row per symbol that has one. Columns are as
wide as their titles take bytes. -/
def matrix (table : Precedence) : String :=
  let columns := table.symbols
  let width := widest (columns.map Symbol.text)
  Text.fill width ' ' ++ String.join (columns.map fun s => " " ++ s.text) ++
    "\n" ++ String.join
      ((columns.filter table.rows.contains).map (table.rowText width columns))

end Precedence

end Reckon
