import Reckon.Pool
import Reckon.Token.Scan
import Reckon.Single.Decimal

/-!
# Reading a source text

The pieces of a source become tokens, and the names and constants among them
are collected in tables. What a word is can depend on its place: from the first
`begin` on a name is a label if a colon follows it on its line or `goto` stands
right before it, and an identifier otherwise. Line breaks count as tokens, but
a run of them counts once, and not at all at either end of the text.

Equal names share a slot of their table. Constants share one if they are near
each other, and the slot keeps the first of them.
-/

namespace Reckon

/-- The names and constants of a source, each in order of first appearance. -/
structure Lexicon where
  identifiers : List String := []
  constants : List Single := []
  labels : List String := []
deriving Repr

/-- The tokens of a source and the tables that their indices point into. -/
structure Reading where
  tokens : List Token
  lexicon : Lexicon
deriving Repr

namespace Reading

/-- Whether a piece, given those right before and behind it, names a label. -/
def namesLabel (inBody : Bool) (before after : Option Piece) : Bool :=
  inBody && ((after.map Piece.text) == some [':'] ||
    (before.map Piece.text) == some "goto".toList)

/-- The value of a numeral. -/
def numeralValue (text : List Char) : Single :=
  Single.ofDigits false (text.takeWhile Char.isDigit)
    ((text.dropWhile Char.isDigit).drop 1) 0

/-- The token of a piece, and the tables with what it names. -/
def tokenOf (asLabel : Bool) (lexicon : Lexicon) (piece : Piece) :
    Token × Lexicon :=
  let text := String.ofList piece.text
  match piece.text with
  | [] => (.word (.keyword text) piece.line none, lexicon)
  | c :: _ =>
    if c.isDigit || c == '.' then
      let value := numeralValue piece.text
      let (slot, constants) := Pool.intern Single.near lexicon.constants value
      (.word (.constant value) piece.line (some slot),
        { lexicon with constants })
    else if !c.isAlpha || reservedWords.contains text then
      (.word (.keyword text) piece.line none, lexicon)
    else if asLabel then
      let (slot, labels) := Pool.intern (· == ·) lexicon.labels text
      (.word (.label text) piece.line (some slot), { lexicon with labels })
    else
      let (slot, identifiers) := Pool.intern (· == ·) lexicon.identifiers text
      (.word (.identifier text) piece.line (some slot),
        { lexicon with identifiers })

/-- The tokens of pieces whose line breaks are joined. -/
def ofPieces (inBody : Bool) (before : Option Piece) (lexicon : Lexicon) :
    List Piece → Reading
  | [] => ⟨[], lexicon⟩
  | piece :: rest =>
    let (token, lexicon) :=
      tokenOf (namesLabel inBody before rest.head?) lexicon piece
    let later :=
      ofPieces (inBody || piece.text == "begin".toList)
        (some piece) lexicon rest
    ⟨token :: later.tokens, later.lexicon⟩

/-- Reads a source text. -/
def ofText (text : String) : Except ScanError Reading := do
  let pieces ← Piece.ofText text
  return ofPieces false none {} (Piece.joinBreaks true pieces)

end Reading

end Reckon
