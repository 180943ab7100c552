/-!
# Bytes as text

Text is kept in files and sent through channels as UTF-8.
-/

namespace Reckon.Text

/-- The bytes of a text. -/
def encode (text : String) : List UInt8 := text.toUTF8.data.toList

/-- The text that some bytes encode, if they encode one. -/
def decode? (bytes : List UInt8) : Option String :=
  String.fromUTF8? ⟨bytes.toArray⟩

/-- The text of bytes that were cut off at some length. The character at the
cut, if there is only a part of it, shows as U+FFFD. -/
def decodeCut (bytes : List UInt8) : String :=
  match decode? bytes with
  | some text => text
  | none =>
    let shorter :=
      [1, 2, 3].findSome? fun cut => decode? (bytes.take (bytes.length - cut))
    shorter.getD "" ++ "\uFFFD"

/-- A text is what its bytes encode. -/
theorem decode?_encode (text : String) : decode? (encode text) = some text := by
  unfold decode? encode
  rw [Array.toArray_toList]
  exact dif_pos text.isValidUTF8

end Reckon.Text
