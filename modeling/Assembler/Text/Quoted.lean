import Assembler.Text.Number
import Assembler.Text.Printable

/-!
# Quoted text

Messages quote names and source text between double quotes. Printable characters stand as they
are; the rest is written with a named escape where there is one and with the character's number
otherwise.
-/

namespace Assembler.Text

/-- How a quoted text writes one character. -/
def quotedChar (char : Char) : String :=
  match char with
  | '"' => "\\\""
  | '\\' => "\\\\"
  | '\x07' => "\\a"
  | '\x08' => "\\b"
  | '\x0c' => "\\f"
  | '\n' => "\\n"
  | '\r' => "\\r"
  | '\t' => "\\t"
  | '\x0b' => "\\v"
  | _ =>
    if isPrintable char then char.toString
    else if char.toNat < 0x20 || char.toNat == 0x7f then "\\x" ++ hexPadded 2 char.toNat
    else if char.toNat < 0x10000 then "\\u" ++ hexPadded 4 char.toNat
    else "\\U" ++ hexPadded 8 char.toNat

/-- A text between double quotes, with escapes. -/
def quote (text : String) : String :=
  "\"" ++ String.join (text.toList.map quotedChar) ++ "\""

end Assembler.Text
