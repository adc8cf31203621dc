import Assembler.Yaml.Source

/-!
# YAML tokens

The tokens of a YAML text. Indentation shows as start and end tokens of blocks, and every key of a
mapping has a token in front of it, whether the text marks it or not.
-/

namespace Assembler.Yaml

/-- A token of a YAML text. -/
inductive Token where
  | versionDirective (major minor : Nat)
  | tagDirective (handle replacement : String)
  | documentStart
  | documentEnd
  | blockSequenceStart
  | blockMappingStart
  | blockEnd
  | flowSequenceStart
  | flowSequenceEnd
  | flowMappingStart
  | flowMappingEnd
  | blockEntry
  | flowEntry
  | key
  | value
  | alias (name : String)
  | anchor (name : String)
  | tag (handle suffix : String)
  | scalar (text : String) (plain : Bool)
  | streamEnd
deriving DecidableEq

/-- Text whose lines are being joined. A single end of a line becomes a blank, and of several all
but the first are kept. -/
structure Folding where
  /-- The text so far, in reverse. -/
  reversed : List Char := []
  /-- The blanks since then, on the same line. -/
  blanks : List Char := []
  /-- The first end of a line since then. -/
  firstBreak : List Char := []
  /-- The other ends of lines since then. -/
  laterBreaks : List Char := []
  /-- Whether a line ended since then. -/
  broken : Bool := false

namespace Folding

/-- What stands for the blanks and ends of lines since the text so far. -/
def gap (folding : Folding) : List Char :=
  if folding.broken then
    if folding.firstBreak.head? = some '\n' then
      if folding.laterBreaks.isEmpty then [' '] else folding.laterBreaks
    else folding.firstBreak ++ folding.laterBreaks
  else folding.blanks

/-- Take the gap into the text. -/
def close (folding : Folding) : Folding :=
  { reversed := folding.gap.reverse ++ folding.reversed }

/-- Add a word behind the gap. -/
def addWord (folding : Folding) (word : List Char) : Folding :=
  if word.isEmpty then folding
  else { reversed := word.reverse ++ folding.gap.reverse ++ folding.reversed }

/-- The text, without the gap behind it. -/
def text (folding : Folding) : String := String.ofList folding.reversed.reverse

/-- Read blanks and ends of lines. `refuse` says where a tab may not stand. -/
def readGap (refuse : Source → Bool) : Nat → Source → Folding → Option (Source × Folding)
  | 0, source, folding => some (source, folding)
  | fuel + 1, source, folding =>
    match source.next? with
    | none => some (source, folding)
    | some char =>
      if isBlank char then
        if folding.broken && char = '\t' && refuse source then none
        else if folding.broken then readGap refuse fuel (source.advance 1) folding
        else
          readGap refuse fuel (source.advance 1) { folding with blanks := folding.blanks ++ [char] }
      else if isLineEnd char then
        let (kept, next) := source.readLineEnd
        if folding.broken then
          readGap refuse fuel next { folding with laterBreaks := folding.laterBreaks ++ kept }
        else
          readGap refuse fuel next { folding with blanks := [], firstBreak := kept, broken := true }
      else some (source, folding)

end Folding

/-! ## Scalars without quotes -/

/-- The characters of a plain scalar up to the next blank or end of a line, or to a mark that ends
the scalar. -/
def plainWord (flow : Bool) : List Char → List Char
  | [] => []
  | char :: rest =>
    if isBlank char || isLineEnd char then []
    else if char = ':' && atGap rest then []
    else if flow && [',', '[', ']', '\x7b', '\x7d'].contains char then []
    else if flow && char = '?' && (atLineEnd rest || rest.head? = some ' ') then []
    else char :: plainWord flow rest

/-- Read a plain scalar. In a block, it goes on only on lines that are indented. -/
def readPlain (flow : Bool) (indent : Nat) : Nat → Source → Folding → Option (Source × Folding)
  | 0, source, folding => some (source, folding)
  | fuel + 1, source, folding =>
    if source.atDocumentMarker || source.startsWith '#' then some (source, folding)
    else
      let word := plainWord flow source.chars
      let folding := folding.addWord word
      let source := source.advance word.length
      if source.isEmpty || !atGap source.chars then some (source, folding)
      else
        match Folding.readGap (fun place => place.column < indent) (source.chars.length + 1) source
            folding with
        | none => none
        | some (source, folding) =>
          if !flow && source.column < indent then some (source, folding)
          else readPlain flow indent fuel source folding

end Assembler.Yaml
