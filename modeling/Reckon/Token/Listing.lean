import Reckon.Text.Column
import Reckon.Text.Letter
import Reckon.Token.Reading

/-!
# Listing tokens

The tokens of a source one per line, with line, position, class, text and
table index, and on demand the tables behind them. Classes may be told apart by
the colours of a terminal.
-/

namespace Reckon

/-- How tokens are listed. -/
structure ListingStyle where
  /-- Colour each class. -/
  colour : Bool := true
  /-- List the tables of names and constants behind the tokens. -/
  tables : Bool := false

namespace Token

/-- Whether a fixed text counts as a word rather than as an operator. -/
def isWordText (text : String) : Bool := text.toList.all Text.isLetter

/-- The name of a token's class. -/
def className : Token → String
  | word (.identifier _) _ _ => "IDENT"
  | word (.constant _) _ _ => "CONST"
  | word (.label _) _ _ => "LABEL"
  | word (.keyword text) _ _ =>
    if text = lineBreak then "NEWLINE"
    else if isWordText text then "KEYWORD"
    else "OP"
  | word (.nonterminal _) _ _ => "GRAMMAR"
  | phrase _ _ => "GRAMMAR"

/-- The control sequence that ends a colour. -/
def plain : String := "\x1b[0m"

/-- The control sequence that starts the colour of a token's class. -/
def colour : Token → String
  | word (.identifier _) _ _ => "\x1b[33m"
  | word (.constant _) _ _ => "\x1b[36m"
  | word (.label _) _ _ => "\x1b[32m"
  | word (.keyword text) _ _ =>
    if text = lineBreak then "\x1b[2m"
    else if isWordText text then plain
    else "\x1b[35m"
  | word (.nonterminal _) _ _ => plain
  | phrase _ _ => plain

/-- One line of a listing. -/
def listed (style : ListingStyle) (position : Nat) (token : Token) : String :=
  let index := match token.index with
    | some index => " #" ++ toString index
    | none => ""
  let (start, stop) := if style.colour then (token.colour, plain) else ("", "")
  "[" ++ Text.zeroFilled 2 token.line ++ ":" ++ Text.zeroFilled 3 position ++
    "] " ++ start ++ Text.atLeft 8 token.className ++ " " ++ token.text ++
    index ++ stop ++ "\n"

end Token

namespace Lexicon

/-- A table under its title, one numbered entry per line. -/
def listedTable (title : String) (entries : List String) : String :=
  title ++ ":\n" ++ String.join (entries.mapIdx fun i entry =>
    "  " ++ Text.atRight 3 (toString i) ++ "  " ++ entry ++ "\n")

/-- All three tables. -/
def listed (lexicon : Lexicon) : String :=
  listedTable "identifiers" lexicon.identifiers ++
    listedTable "constants" (lexicon.constants.map Single.toText) ++
    listedTable "labels" lexicon.labels

end Lexicon

namespace Reading

/-- The listing of a source. -/
def listed (style : ListingStyle) (reading : Reading) : String :=
  String.join (reading.tokens.mapIdx (Token.listed style)) ++
    (if style.tables then "\n" ++ reading.lexicon.listed else "")

end Reading

end Reckon
