import Assembler.Yaml.Token

/-!
# Quoted scalars

In single quotes, only a quote is special: it is written twice. In double quotes, a backslash begins
an escape, or joins its line to the next. In both, lines are joined.
-/

namespace Assembler.Yaml.Quoted

/-- The characters that a backslash and one letter stand for. -/
def escapes : List (Char × Nat) :=
  [('0', 0x00), ('a', 0x07), ('b', 0x08), ('t', 0x09), ('\t', 0x09), ('n', 0x0a), ('v', 0x0b),
    ('f', 0x0c), ('r', 0x0d), ('e', 0x1b), (' ', 0x20), ('"', 0x22), ('\'', 0x27), ('/', 0x2f),
    ('\\', 0x5c), ('N', 0x85), ('_', 0xa0), ('L', 0x2028), ('P', 0x2029)]

/-- The number of hexadecimal digits behind the letters that give a character by its number. -/
def codeLengths : List (Char × Nat) := [('x', 2), ('u', 4), ('U', 8)]

/-- The value of a hexadecimal digit. -/
def hexValue (char : Char) : Option Nat :=
  if char.isDigit then some (char.toNat - '0'.toNat)
  else if 'a' ≤ char && char ≤ 'f' then some (char.toNat - 'a'.toNat + 10)
  else if 'A' ≤ char && char ≤ 'F' then some (char.toNat - 'A'.toNat + 10)
  else none

/-- The character with a number that hexadecimal digits spell. -/
def readCode (length : Nat) (chars : List Char) : Option Char := do
  let digits := chars.take length
  if digits.length < length then none
  else
    let code ← digits.foldlM (fun value char => do return value * 16 + (← hexValue char)) 0
    if (0xd800 ≤ code && code ≤ 0xdfff) || 0x10ffff < code then none else some (Char.ofNat code)

/-- The character of an escape, and the number of characters that the escape takes. The letter
behind the backslash and what follows it are given. -/
def readEscape (letter : Char) (rest : List Char) : Option (Char × Nat) :=
  match escapes.lookup letter, codeLengths.lookup letter with
  | some code, _ => some (Char.ofNat code, 2)
  | none, some length => (readCode length rest).map fun char => (char, 2 + length)
  | none, none => none

/-- Read characters up to a blank, the end of a line or the closing quote. The last result says that
an escaped end of a line was passed. -/
def readRun (single : Bool) : Nat → Source → List Char → Option (Source × List Char × Bool)
  | 0, source, reversed => some (source, reversed, false)
  | fuel + 1, source, reversed =>
    match source.chars with
    | [] => some (source, reversed, false)
    | '\'' :: rest =>
      if !single then readRun single fuel (source.advance 1) ('\'' :: reversed)
      else if rest.head? = some '\'' then readRun single fuel (source.advance 2) ('\'' :: reversed)
      else some (source, reversed, false)
    | '"' :: _ =>
      if single then readRun single fuel (source.advance 1) ('"' :: reversed)
      else some (source, reversed, false)
    | '\\' :: rest =>
      if single then readRun single fuel (source.advance 1) ('\\' :: reversed)
      else
        match rest with
        | [] => none
        | letter :: behind =>
          if isLineEnd letter then some ((source.advance 1).skipLineEnd, reversed, true)
          else
            match readEscape letter behind with
            | none => none
            | some (char, length) => readRun single fuel (source.advance length) (char :: reversed)
    | char :: _ =>
      if isBlank char || isLineEnd char then some (source, reversed, false)
      else readRun single fuel (source.advance 1) (char :: reversed)

/-- Read lines up to the closing quote. -/
def readLines (single : Bool) : Nat → Source → Folding → Option (Source × String)
  | 0, _, _ => none
  | fuel + 1, source, folding =>
    if source.atDocumentMarker || source.isEmpty then none
    else
      match readRun single (source.chars.length + 1) source folding.reversed with
      | none => none
      | some (source, reversed, broken) =>
        if source.startsWith (if single then '\'' else '"') then
          some (source.advance 1, String.ofList reversed.reverse)
        else
          match Folding.readGap (fun _ => false) (source.chars.length + 1) source
              { reversed, broken } with
          | none => none
          | some (source, folding) => readLines single fuel source folding.close

/-- Read a quoted scalar from its opening quote on. -/
def read (single : Bool) (source : Source) : Option (Source × String) :=
  readLines single (source.chars.length + 1) (source.advance 1) {}

end Assembler.Yaml.Quoted
