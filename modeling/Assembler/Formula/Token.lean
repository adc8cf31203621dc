/-!
# Tokens of formulas

The text of a formula falls into numbers, names and single characters. A name has letters,
underscores, points and, from its second character on, digits. A number begins with a digit; whether
its digits make sense is left to who reads its value. Blanks, tabs and the ends of lines separate
tokens.
-/

namespace Assembler

/-- A token of a formula. -/
inductive Token where
  | number (text : String)
  | name (text : String)
  | mark (char : Char)
deriving DecidableEq

namespace Token

/-- The text of a token. -/
def text : Token → String
  | .number digits => digits
  | .name letters => letters
  | .mark char => char.toString

/-- Whether a character separates tokens. -/
def isBlank (char : Char) : Bool := char = ' ' || char = '\t' || char = '\n' || char = '\r'

/-- Whether a character may begin a name. -/
def startsName (char : Char) : Bool :=
  char = '_' || char = '.' || ('a' ≤ char && char ≤ 'z') || ('A' ≤ char && char ≤ 'Z')

/-- Whether a character may stand inside a name. -/
def continuesName (char : Char) : Bool := startsName char || char.isDigit

/-- Whether a character is a hexadecimal digit. -/
def isHexDigit (char : Char) : Bool :=
  char.isDigit || ('a' ≤ char && char ≤ 'f') || ('A' ≤ char && char ≤ 'F')

/-- A token whose characters are being read, the last one first. -/
inductive Partial where
  | none
  | name (reversed : List Char)
  | number (reversed : List Char) (hexadecimal : Bool)

namespace Partial

/-- The token that was being read, if there is one. -/
def close : Partial → List Token
  | none => []
  | name reversed => [.name (String.ofList reversed.reverse)]
  | number reversed _ => [.number (String.ofList reversed.reverse)]

/-- The token with one more character, if that belongs to it. -/
def extend : Partial → Char → Option Partial
  | none, _ => Option.none
  | name reversed, char =>
    if continuesName char then some (name (char :: reversed)) else Option.none
  | number reversed hexadecimal, char =>
    if reversed = ['0'] && (char = 'x' || char = 'X') then some (number (char :: reversed) true)
    else if reversed = ['0'] && (char = 'o' || char = 'O' || char = 'b' || char = 'B') then
      some (number (char :: reversed) false)
    else if char = '_' || (if hexadecimal then isHexDigit char else char.isDigit) then
      some (number (char :: reversed) hexadecimal)
    else Option.none

/-- What a character that belongs to no token before it begins, and the token that it is by
itself. -/
def start (char : Char) : List Token × Partial :=
  if isBlank char then ([], none)
  else if startsName char then ([], name [char])
  else if char.isDigit then ([], number [char] false)
  else ([.mark char], none)

end Partial

/-- The tokens of a text, behind a token that is being read. -/
def scan : Partial → List Char → List Token
  | current, [] => current.close
  | current, char :: rest =>
    match current.extend char with
    | some extended => scan extended rest
    | none =>
      let (tokens, next) := Partial.start char
      current.close ++ tokens ++ scan next rest

/-- The tokens of a text. A mark of the byte order in front of it is skipped. -/
def ofText (text : String) : List Token :=
  match text.toList with
  | first :: rest => if first.toNat = 0xfeff then scan .none rest else scan .none (first :: rest)
  | [] => []

end Token

end Assembler
