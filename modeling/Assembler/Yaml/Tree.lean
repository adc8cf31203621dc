import Assembler.Text.Number
import Assembler.Yaml.Scalar

/-!
# Written YAML

A tree of records, lists and scalars, and its text in block style: two blanks for each level, one
line for each scalar, and a style of quoting that a reader takes back as the same text.
-/

namespace Assembler.Yaml

/-- A document to be written. -/
inductive Tree where
  /-- A number or a boolean, which is written as it is. -/
  | verbatim (text : String)
  | string (text : String)
  | list (items : List Tree)
  | record (fields : List (String × Tree))

namespace Style

/-- Whether a character ends a line. -/
def isBreak (char : Char) : Bool :=
  char = '\n' || char = '\r' || char.toNat = 0x85 || char.toNat = 0x2028 || char.toNat = 0x2029

/-- Whether a character can be written as it is. -/
def isPrintable (char : Char) : Bool :=
  char = '\n' || (0x20 ≤ char.toNat && char.toNat ≤ 0x7e) ||
    (0xa0 ≤ char.toNat && char.toNat ≤ 0xfffd && char.toNat ≠ 0xfeff)

/-- Whether a character is a blank. -/
def isBlank (char : Char) : Bool := char = ' ' || char = '\t'

/-- Whether a list of characters is at its end, or at a blank. -/
def atBlank : List Char → Bool
  | [] => true
  | char :: _ => isBlank char

/-- The pairs of neighbours in a list. -/
def neighbours (chars : List Char) : List (Char × Char) := chars.zip (chars.drop 1)

/-- Whether the first characters of a text would be taken for something else than a text. -/
def startsMarked : List Char → Bool
  | '-' :: '-' :: '-' :: _ => true
  | '.' :: '.' :: '.' :: _ => true
  | first :: rest =>
    "#,[]{}&*!|>'\"%@`".toList.contains first ||
      ((first = '?' || first = ':' || first = '-') && atBlank rest)
  | [] => false

/-- Whether a colon before a blank, or a number sign behind one, is inside a text. -/
def innerMarked : List Char → Bool
  | first :: second :: rest =>
    (second = ':' && atBlank rest) ||
      (second = '#' && (isBlank first || isBreak first)) || innerMarked (second :: rest)
  | _ => false

/-- Whether there is a character that quotes have to escape. -/
def isSpecial (chars : List Char) : Bool := chars.any fun char => char ≠ '\t' && !isPrintable char

/-- Whether a blank stands right before the end of a line. -/
def spaceBeforeBreak (chars : List Char) : Bool :=
  (neighbours chars).any fun (first, second) => first = ' ' && isBreak second

/-- Whether a blank stands right behind the end of a line. -/
def breakBeforeSpace (chars : List Char) : Bool :=
  (neighbours chars).any fun (first, second) => isBreak first && second = ' '

/-- Whether a text may be written without quotes. -/
def plainAllowed (chars : List Char) : Bool :=
  !startsMarked chars && !innerMarked chars && !chars.any isBreak && !chars.contains '\t' &&
    !isSpecial chars && chars.head? ≠ some ' ' && chars.getLast? ≠ some ' '

/-- Whether a text may be written in single quotes. -/
def singleAllowed (chars : List Char) : Bool :=
  !breakBeforeSpace chars && !spaceBeforeBreak chars && !chars.contains '\t' && !isSpecial chars

/-- Whether a text may be written as a block of lines. -/
def blockAllowed (chars : List Char) : Bool :=
  chars.getLast? ≠ some ' ' && !spaceBeforeBreak chars && !isSpecial chars

/-- Read one step of a number of base sixty: a colon, a digit up to five if there are two, and a
digit. -/
def dropSixtieth : List Char → Option (List Char)
  | ':' :: tens :: ones :: rest =>
    if '0' ≤ tens && tens ≤ '5' && ones.isDigit then some rest
    else if tens.isDigit then some (ones :: rest)
    else none
  | [':', ones] => if ones.isDigit then some [] else none
  | _ => none

/-- Whether a text ends as a number of base sixty does: any number of steps, then possibly a
fraction. -/
def endsSixtieth : Nat → List Char → Bool
  | _, [] => true
  | _, '.' :: rest => rest.all fun char => char.isDigit || char = '_'
  | 0, _ => false
  | fuel + 1, chars =>
    match dropSixtieth chars with
    | some rest => endsSixtieth fuel rest
    | none => false

/-- Whether a text looks like a number of base sixty. -/
def isSixtieth (chars : List Char) : Bool :=
  let (_, digits) := Scalar.readSign chars
  match digits with
  | first :: rest =>
    let tail := rest.dropWhile fun char => char.isDigit || char = '_'
    first.isDigit &&
      (match dropSixtieth tail with
        | some rest => endsSixtieth rest.length rest
        | none => false)
  | [] => false

/-- Whether a text without quotes would be read back as a text. -/
def readsAsText (text : String) : Bool :=
  Scalar.resolve text = .text && !isSixtieth text.toList && !Scalar.oldTrue.contains text &&
    !Scalar.oldFalse.contains text

/-- The hexadecimal digits of a character, in capitals. -/
def hexEscape (char : Char) : String :=
  let digits (width : Nat) := (Text.hexPadded width char.toNat).toUpper
  if char.toNat ≤ 0xff then "\\x" ++ digits 2
  else if char.toNat ≤ 0xffff then "\\u" ++ digits 4
  else "\\U" ++ digits 8

/-- The characters with an escape of their own. -/
def namedEscapes : List (Nat × String) :=
  [(0x00, "\\0"), (0x07, "\\a"), (0x08, "\\b"), (0x09, "\\t"), (0x0a, "\\n"), (0x0b, "\\v"),
    (0x0c, "\\f"), (0x0d, "\\r"), (0x1b, "\\e"), (0x22, "\\\""), (0x5c, "\\\\"), (0x85, "\\N"),
    (0xa0, "\\_"), (0x2028, "\\L"), (0x2029, "\\P")]

/-- A character inside double quotes. -/
def escaped (char : Char) : String :=
  if isPrintable char && !isBreak char && char ≠ '"' && char ≠ '\\' then char.toString
  else (namedEscapes.lookup char.toNat).getD (hexEscape char)

/-- A text in double quotes. -/
def doubleQuoted (chars : List Char) : String :=
  "\"" ++ String.join (chars.map escaped) ++ "\""

/-- Characters between single quotes. A line that begins inside is indented; `fresh` says that one
does. -/
def singleQuotedLines (indent : String) : Bool → List Char → String
  | _, [] => ""
  | fresh, char :: rest =>
    if isBreak char then char.toString ++ singleQuotedLines indent true rest
    else
      (if fresh then indent else "") ++ (if char = '\'' then "''" else char.toString) ++
        singleQuotedLines indent false rest

/-- A text in single quotes, behind a key or a dash at the indentation given. -/
def singleQuoted (indent : Nat) (chars : List Char) : String :=
  "'" ++ singleQuotedLines (String.ofList (List.replicate (indent + 2) ' ')) false chars ++ "'"

/-- The mark of a block of lines: whether its indentation has to be given, and what becomes of the
ends of lines behind it. -/
def blockMark (chars : List Char) : String :=
  let indented := (chars.head?.map fun char => char = ' ' || isBreak char).getD false
  let ending :=
    match chars.reverse with
    | [] => "-"
    | [last] => if isBreak last then "+" else "-"
    | last :: second :: _ => if !isBreak last then "-" else if isBreak second then "+" else ""
  "|" ++ (if indented then "2" else "") ++ ending

/-- The lines of a block, each indented. `fresh` says that a line begins. -/
def blockLines (indent : String) : Bool → List Char → String
  | _, [] => ""
  | fresh, char :: rest =>
    if isBreak char then char.toString ++ blockLines indent true rest
    else (if fresh then indent else "") ++ char.toString ++ blockLines indent false rest

/-- A text as a block of lines, behind a key or a dash at the indentation given. The break behind
the mark is the first of the text when it begins with one. -/
def block (indent : Nat) (chars : List Char) : String :=
  let inner := String.ofList (List.replicate (indent + 2) ' ')
  let start := if (chars.head?.map isBreak).getD false then "" else "\n"
  let lines := blockLines inner true chars
  blockMark chars ++ start ++ lines

end Style

/-- A text behind a key or a dash at the indentation given. -/
def scalarText (indent : Nat) (text : String) : String :=
  let chars := text.toList
  if chars.contains '\n' then
    if Style.blockAllowed chars then Style.block indent chars else Style.doubleQuoted chars
  else if !Style.readsAsText text then Style.doubleQuoted chars
  else if Style.plainAllowed chars then text
  else if Style.singleAllowed chars then Style.singleQuoted indent chars
  else Style.doubleQuoted chars

namespace Tree

/-- Close a line that is not closed yet. -/
def closeLine (line : String) : String := if line.endsWith "\n" then line else line ++ "\n"

mutual

/-- The lines of a value behind a key or a dash, from the rest of that line on. -/
def valueLines (indent : Nat) (inList : Bool) : Tree → String
  | .verbatim text => " " ++ text ++ "\n"
  | .string text => closeLine (" " ++ scalarText indent text)
  | .list [] => " []\n"
  | .list (item :: rest) => "\n" ++ itemLines (indent + 2) (item :: rest)
  | .record [] => " \x7b\x7d\n"
  | .record ((key, value) :: rest) =>
    if inList then
      " " ++ key ++ ":" ++ valueLines (indent + 2) false value ++ fieldLines (indent + 2) rest
    else "\n" ++ fieldLines (indent + 2) ((key, value) :: rest)

/-- The lines of a list's items. -/
def itemLines (indent : Nat) : List Tree → String
  | [] => ""
  | item :: rest =>
    String.ofList (List.replicate indent ' ') ++ "-" ++ valueLines indent true item ++
      itemLines indent rest

/-- The lines of a record's fields. -/
def fieldLines (indent : Nat) : List (String × Tree) → String
  | [] => ""
  | (key, value) :: rest =>
    String.ofList (List.replicate indent ' ') ++ key ++ ":" ++ valueLines indent false value ++
      fieldLines indent rest

end

/-- The text of a document that is a record. -/
def render : Tree → String
  | .record fields => fieldLines 0 fields
  | .verbatim text => text ++ "\n"
  | .string text => closeLine (scalarText 0 text)
  | .list items => itemLines 0 items

end Tree

end Assembler.Yaml
