/-!
# Numbers as text

Padding and hexadecimal digits, shared by every report and message of the library.
-/

namespace Assembler.Text

/-- Fill characters in front of a text, up to a width. -/
def padLeft (fill : Char) (width : Nat) (text : String) : String :=
  String.ofList (List.replicate (width - text.length) fill) ++ text

/-- Fill characters behind a text, up to a width. -/
def padRight (fill : Char) (width : Nat) (text : String) : String :=
  text ++ String.ofList (List.replicate (width - text.length) fill)

/-- The lower-case hexadecimal digits of a number, without leading zeros. -/
def hex (value : Nat) : String :=
  String.ofList (Nat.toDigits 16 value)

/-- Lower-case hexadecimal digits, with zeros in front up to a width. -/
def hexPadded (width value : Nat) : String :=
  padLeft '0' width (hex value)

/-- The `0x` form of a number. -/
def hexNumber (value : Nat) : String :=
  "0x" ++ hex value

/-- A signed decimal number that shows its sign even when it is positive or zero. -/
def signedDecimal (value : Int) : String :=
  if value < 0 then toString value else "+" ++ toString value

/-- The name of a numbered member of a family, or the family's name with the number when the
family has no such member. -/
def memberName (family : String) (names : List String) (code : Int) : String :=
  match code with
  | .ofNat index => names.getD index (family ++ "(" ++ toString code ++ ")")
  | .negSucc _ => family ++ "(" ++ toString code ++ ")"

end Assembler.Text
