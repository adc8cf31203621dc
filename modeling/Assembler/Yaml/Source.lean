/-!
# YAML source text

A source is the rest of a text, with the place that was reached in it. Lines end with a line feed, a
carriage return, both in that order, or one of three marks of Unicode.
-/

namespace Assembler.Yaml

/-- Whether a character is a blank. -/
def isBlank (char : Char) : Bool := char = ' ' || char = '\t'

/-- Whether a character ends a line. -/
def isLineEnd (char : Char) : Bool :=
  char = '\n' || char = '\r' || char.toNat = 0x85 || char.toNat = 0x2028 || char.toNat = 0x2029

/-- Whether a character may stand in the name of an anchor or a directive. -/
def isNameChar (char : Char) : Bool := char.isAlphanum || char = '_' || char = '-'

/-- Whether a character may stand in a YAML text at all. -/
def isAllowed (char : Char) : Bool :=
  let code := char.toNat
  code = 0x09 || code = 0x0a || code = 0x0d || (0x20 ≤ code && code ≤ 0x7e) || code = 0x85 ||
    (0xa0 ≤ code && code ≤ 0xd7ff) || (0xe000 ≤ code && code ≤ 0xfffd) || 0x10000 ≤ code

/-- The mark that a text or a line may begin with. -/
def byteOrderMark : Char := '\ufeff'

/-- Whether a text is at its end, or at a blank or the end of a line. -/
def atGap : List Char → Bool
  | [] => true
  | char :: _ => isBlank char || isLineEnd char

/-- Whether a text is at its end, or at the end of a line. -/
def atLineEnd : List Char → Bool
  | [] => true
  | char :: _ => isLineEnd char

/-- The rest of a text, and the place reached. -/
structure Source where
  chars : List Char
  index : Nat := 0
  line : Nat := 0
  column : Nat := 0
  /-- Whether only blanks came since the last end of a line, and one came since the last other
  character. -/
  lineBegun : Bool := false

namespace Source

/-- The next character. -/
def next? (source : Source) : Option Char := source.chars.head?

/-- Whether the next character is a given one. -/
def startsWith (source : Source) (char : Char) : Bool := source.chars.head? = some char

/-- Whether the text ends here. -/
def isEmpty (source : Source) : Bool := source.chars.isEmpty

/-- Pass over some characters of the line. -/
def advance (source : Source) (count : Nat) : Source :=
  { chars := source.chars.drop count
    index := source.index + count
    line := source.line
    column := source.column + count
    lineBegun := source.lineBegun && (source.chars.take count).all isBlank }

/-- Pass over the characters of a class. -/
def skipWhile (source : Source) (accept : Char → Bool) : Source :=
  source.advance (source.chars.takeWhile accept).length

/-- Pass over the end of a line, and say how it is kept: most become a line feed. -/
def readLineEnd (source : Source) : List Char × Source :=
  let after (count : Nat) : Source :=
    { chars := source.chars.drop count
      index := source.index + count
      line := source.line + 1
      column := 0
      lineBegun := true }
  match source.chars with
  | '\r' :: '\n' :: _ => (['\n'], after 2)
  | char :: _ =>
    if char = '\n' || char = '\r' || char.toNat = 0x85 then (['\n'], after 1)
    else if isLineEnd char then ([char], after 1)
    else ([], source)
  | [] => ([], source)

/-- Pass over the end of a line. -/
def skipLineEnd (source : Source) : Source := source.readLineEnd.2

/-- Whether a line begins with the marker of a document's start or end. -/
def atDocumentMarker (source : Source) : Bool :=
  source.column = 0 &&
    (match source.chars with
      | '-' :: '-' :: '-' :: rest => atGap rest
      | '.' :: '.' :: '.' :: rest => atGap rest
      | _ => false)

/-- Pass over a comment behind a token of the same line. -/
def skipLineComment (source : Source) : Source :=
  if source.lineBegun then source
  else
    let ahead := source.skipWhile isBlank
    if ahead.startsWith '#' then ahead.skipWhile fun char => !isLineEnd char else source

/-- Pass over blanks and the ends of lines. -/
def skipBlankLines : Nat → Source → Source
  | 0, source => source
  | fuel + 1, source =>
    match source.next? with
    | none => source
    | some char =>
      if isBlank char then skipBlankLines fuel (source.advance 1)
      else if char = '\n' || char = '\r' then skipBlankLines fuel source.skipLineEnd
      else source

/-- Pass over comments on lines of their own, with the blank lines between them, of which a great
many are not looked through. The source is at a number sign. -/
def skipComments : Nat → Source → Source
  | 0, source => source
  | fuel + 1, source =>
    let commented := source.skipWhile fun char => !isLineEnd char
    let ahead := skipBlankLines 512 commented
    if ahead.startsWith '#' then skipComments fuel ahead else commented

end Source

end Assembler.Yaml
