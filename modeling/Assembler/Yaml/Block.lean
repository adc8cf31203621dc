import Assembler.Yaml.Token

/-!
# Block scalars

A block scalar is made of the indented lines below its mark. Behind `|` the lines are kept, and
behind `>` they are joined. Further marks give the indentation, and say what becomes of the ends of
lines at its end.
-/

namespace Assembler.Yaml.Block

/-- What becomes of the ends of lines behind a block. -/
inductive Chomping where
  /-- None is kept. -/
  | strip
  /-- The first is kept. -/
  | clip
  | keep
deriving DecidableEq

/-- The marks of a block: its chomping, and its indentation if that is given. -/
structure Header where
  chomping : Chomping := .clip
  increment : Nat := 0

/-- Read a mark of chomping. -/
def readChomping (source : Source) : Option (Chomping × Source) :=
  if source.startsWith '+' then some (.keep, source.advance 1)
  else if source.startsWith '-' then some (.strip, source.advance 1)
  else none

/-- Read a mark of indentation, if there is one; zero is refused. -/
def readIncrement (source : Source) : Option (Nat × Source) :=
  match source.next? with
  | some char =>
    if char = '0' then none
    else if char.isDigit then some (char.toNat - '0'.toNat, source.advance 1)
    else some (0, source)
  | none => some (0, source)

/-- Read the marks of a block, in either order. -/
def readHeader (source : Source) : Option (Header × Source) :=
  match readChomping source with
  | some (chomping, source) =>
    (readIncrement source).map fun (increment, source) => ({ chomping, increment }, source)
  | none =>
    (readIncrement source).map fun (increment, source) =>
      if increment = 0 then ({}, source)
      else
        match readChomping source with
        | some (chomping, source) => ({ chomping, increment }, source)
        | none => ({ increment }, source)

/-- Pass over the rest of the line of the marks, where only a comment may stand. -/
def skipHeaderLine (source : Source) : Option Source :=
  let source := source.skipWhile isBlank
  let source :=
    if source.startsWith '#' then source.skipWhile fun char => !isLineEnd char else source
  if atLineEnd source.chars then some source.skipLineEnd else none

/-- Read the ends of empty lines and the indentation of the next line. An indentation of zero is not
known yet; the widest one met is returned. -/
def readEmptyLines (indent : Nat) :
    Nat → Source → List Char → Nat → Option (Source × List Char × Nat)
  | 0, source, breaks, widest => some (source, breaks, widest)
  | fuel + 1, source, breaks, widest =>
    let spaces := (source.chars.takeWhile fun char => char = ' ').length
    let source :=
      source.advance (if indent = 0 then spaces else min spaces (indent - source.column))
    let widest := max widest source.column
    if (indent = 0 || source.column < indent) && source.startsWith '\t' then none
    else
      match source.next? with
      | none => some (source, breaks, widest)
      | some char =>
        if isLineEnd char then
          let (kept, next) := source.readLineEnd
          readEmptyLines indent fuel next (breaks ++ kept) widest
        else some (source, breaks, widest)

/-- The lines of a block read so far. -/
structure Lines where
  reversed : List Char := []
  /-- The end of the last line. -/
  lastBreak : List Char := []
  /-- The ends of the empty lines behind it. -/
  emptyBreaks : List Char := []
  /-- Whether the last line began with a blank. -/
  blank : Bool := false

/-- What stands between the lines so far and the next one. -/
def Lines.gap (lines : Lines) (literal nextBlank : Bool) : List Char :=
  if !literal && !lines.blank && !nextBlank && lines.lastBreak.head? = some '\n' then
    (if lines.emptyBreaks.isEmpty then [' '] else []) ++ lines.emptyBreaks
  else lines.lastBreak ++ lines.emptyBreaks

/-- Read the lines that have the indentation. -/
def readLines (literal : Bool) (indent : Nat) : Nat → Source → Lines → Option (Source × Lines)
  | 0, source, lines => some (source, lines)
  | fuel + 1, source, lines =>
    if source.column ≠ indent || source.isEmpty then some (source, lines)
    else
      let blank := ((source.next?).map isBlank).getD false
      let content := source.chars.takeWhile fun char => !isLineEnd char
      let (lastBreak, next) := (source.advance content.length).readLineEnd
      match readEmptyLines indent (next.chars.length + 1) next [] 0 with
      | none => none
      | some (next, emptyBreaks, _) =>
        readLines literal indent fuel next
          { reversed := content.reverse ++ (lines.gap literal blank).reverse ++ lines.reversed
            lastBreak, emptyBreaks, blank }

/-- Read a block scalar from its mark on. `outer` is the indentation around it, if there is any. -/
def read (literal : Bool) (outer : Option Nat) (source : Source) : Option (Source × String) := do
  let (header, source) ← readHeader (source.advance 1)
  let source ← skipHeaderLine source
  let given := if header.increment = 0 then 0 else outer.getD 0 + header.increment
  let (source, breaks, widest) ← readEmptyLines given (source.chars.length + 1) source [] 0
  let least := (outer.map fun column => column + 1).getD 0
  let indent := if given = 0 then max (max widest least) 1 else given
  let (source, lines) ←
    readLines literal indent (source.chars.length + 1) source { emptyBreaks := breaks }
  let tail :=
    match header.chomping with
    | .strip => []
    | .clip => lines.lastBreak
    | .keep => lines.lastBreak ++ lines.emptyBreaks
  return (source, String.ofList (tail.reverse ++ lines.reversed).reverse)

end Assembler.Yaml.Block
