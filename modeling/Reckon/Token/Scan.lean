import Reckon.Token.Basic

/-!
# Scanning

A source text is cut into *pieces*, each the longest lexeme that starts where
the piece starts; blanks between pieces are dropped and a line break is a piece
of its own. A lexeme is a numeral (digits that may have one point among or
behind them, or a point with digits behind it), a word of letters and digits
that starts with a letter, or one of the operators and punctuation marks. All
these classes are ASCII.

Where no lexeme starts the text is refused, with the place of the character
that stands there. Nothing else can go wrong: every piece has a meaning.
-/

namespace Reckon

/-- A character at which no lexeme starts. Lines and columns count from one,
columns in characters. -/
structure ScanError where
  found : Char
  line : Nat
  column : Nat
deriving DecidableEq, Repr

/-- The text of a lexeme and the line it stands on. -/
structure Piece where
  text : List Char
  line : Nat
deriving DecidableEq, Repr

namespace Piece

/-- A blank separates lexemes and is otherwise ignored. -/
def isBlank (c : Char) : Bool := c == ' ' || c == '\t' || c == '\r'

/-- How many characters at the front are of a class. -/
def run (inClass : Char → Bool) (text : List Char) : Nat :=
  (text.takeWhile inClass).length

/-- The length of the numeral at the front; zero if there is none. -/
def numeralLength (text : List Char) : Nat :=
  let whole := run Char.isDigit text
  match text.drop whole with
  | '.' :: rest =>
    let fraction := run Char.isDigit rest
    if whole = 0 ∧ fraction = 0 then 0 else whole + 1 + fraction
  | _ => whole

/-- The length of the word at the front; zero if there is none. -/
def wordLength : List Char → Nat
  | [] => 0
  | c :: rest => if c.isAlpha then 1 + run Char.isAlphanum rest else 0

/-- The length of the operator or mark at the front; zero if there is none. The
four relational characters may be followed by an equals sign. -/
def signLength : List Char → Nat
  | [] => 0
  | c :: rest =>
    if c ∈ ['<', '>', '=', '!'] then if rest.head? = some '=' then 2 else 1
    else if c ∈ ['+', '-', '*', '/', '(', ')', '[', ']', ',', ';', ':'] then 1
    else 0

/-- The length of the longest lexeme at the front; zero if none starts there. No
two of the three classes share a first character. -/
def lexemeLength (text : List Char) : Nat :=
  numeralLength text + wordLength text + signLength text

/-- Cuts a text into pieces. -/
def scan (line column : Nat) (text : List Char) :
    Except ScanError (List Piece) :=
  match text with
  | [] => .ok []
  | c :: rest =>
    if isBlank c then scan line (column + 1) rest
    else if c = '\n' then do
      return ⟨[c], line⟩ :: (← scan (line + 1) 1 rest)
    else
      let length := lexemeLength (c :: rest)
      if length = 0 then .error ⟨c, line, column⟩
      else do
        return ⟨(c :: rest).take length, line⟩ ::
          (← scan line (column + length) ((c :: rest).drop length))
termination_by text.length
decreasing_by
  · simp
  · simp
  · simp only [List.length_drop, List.length_cons]
    omega

/-- The pieces of a whole source text. -/
def ofText (text : String) : Except ScanError (List Piece) :=
  scan 1 1 text.toList

/-- Whether the piece is a line break. -/
def isLineBreak (piece : Piece) : Bool := piece.text == ['\n']

/-- Keeps the first line break of each run between two other pieces, and none
before the first or behind the last of these. -/
def joinBreaks (afterBreak : Bool) : List Piece → List Piece
  | [] => []
  | piece :: rest =>
    if piece.isLineBreak then
      if afterBreak || rest.all isLineBreak then joinBreaks true rest
      else piece :: joinBreaks true rest
    else piece :: joinBreaks false rest

end Piece

namespace ScanError

/-- The report of a character at which no lexeme starts. -/
def message (e : ScanError) : String :=
  toString e.line ++ ":" ++ toString e.column ++ ": unexpected character: '" ++
    String.singleton e.found ++ "'"

end ScanError

end Reckon
