/-!
# Text as bytes

Bytes are read as UTF-8, and those that are no part of a character become replacement characters.
-/

namespace Assembler.Text

/-- The bytes of a text. -/
def toBytes (text : String) : List UInt8 := text.toUTF8.data.toList

/-- The text that bytes spell; none when they are not UTF-8. -/
def ofBytes? (bytes : List UInt8) : Option String := String.fromUTF8? ⟨bytes.toArray⟩

/-- The character that the first bytes of a list spell, with the number of those bytes. -/
def firstChar? (bytes : List UInt8) : Option (Char × Nat) :=
  [1, 2, 3, 4].findSome? fun count =>
    if bytes.length < count then none
    else
      match (ofBytes? (bytes.take count)).map String.toList with
      | some [char] => some (char, count)
      | _ => none

/-- Read characters from bytes; a byte that is no part of one becomes a replacement character. -/
def decodeChars : Nat → List UInt8 → List Char
  | 0, _ => []
  | _, [] => []
  | fuel + 1, bytes =>
    match firstChar? bytes with
    | some (char, count) => char :: decodeChars fuel (bytes.drop count)
    | none => '\ufffd' :: decodeChars fuel (bytes.drop 1)

/-- The text that bytes spell, with replacement characters where they are not UTF-8. -/
def ofBytes (bytes : List UInt8) : String :=
  match ofBytes? bytes with
  | some text => text
  | none => String.ofList (decodeChars bytes.length bytes)

end Assembler.Text
