import Assembler.Yaml.Block
import Assembler.Yaml.Tag

/-!
# Reading tokens

The state of reading tokens holds the indentations of the open blocks and, for each open bracket,
the place where a key may have begun. A key shows only at the colon behind it, so its token is put
in front of tokens that were read before.
-/

namespace Assembler.Yaml

/-- A place where a key may have begun. -/
structure PendingKey where
  /-- The number of tokens in front of it. -/
  position : Nat
  index : Nat
  line : Nat
  column : Nat
  /-- Whether nothing but a key may stand there. -/
  required : Bool

/-- The state of reading tokens. -/
structure Lexing where
  source : Source
  /-- The tokens so far, in reverse. -/
  reversed : List Token := []
  /-- The number of tokens so far. -/
  count : Nat := 0
  /-- The indentations of the open blocks, the innermost first. -/
  indents : List Nat := []
  /-- The pending key. -/
  key : Option PendingKey := none
  /-- The pending keys outside of each open bracket, the innermost bracket first. -/
  outerKeys : List (Option PendingKey) := []
  /-- Whether a key may begin here. -/
  keyAllowed : Bool := true

namespace Lexing

/-- The greatest number of open brackets or blocks. -/
def depthLimit : Nat := 10000

/-- Whether a bracket is open. -/
def inFlow (state : Lexing) : Bool := !state.outerKeys.isEmpty

/-- Add a token. -/
def push (state : Lexing) (token : Token) : Lexing :=
  { state with reversed := token :: state.reversed, count := state.count + 1 }

/-- Put a token in front of those from a position on. -/
def insert (state : Lexing) (position : Nat) (token : Token) : Lexing :=
  let behind := state.count - position
  { state with
    reversed := state.reversed.take behind ++ token :: state.reversed.drop behind
    count := state.count + 1 }

/-- Add a token that takes some characters. -/
def take (state : Lexing) (length : Nat) (token : Token) : Lexing :=
  { state.push token with source := state.source.advance length }

/-- Close the blocks that are indented more than a column. -/
def closeTo (state : Lexing) (column : Nat) : Lexing :=
  if state.inFlow then state
  else
    let closed := (state.indents.takeWhile fun indent => column < indent).length
    { state with
      reversed := List.replicate closed Token.blockEnd ++ state.reversed
      count := state.count + closed
      indents := state.indents.drop closed }

/-- Close all blocks. -/
def closeAll (state : Lexing) : Lexing :=
  if state.inFlow then state
  else
    let closed := state.indents.length
    { state with
      reversed := List.replicate closed Token.blockEnd ++ state.reversed
      count := state.count + closed
      indents := [] }

/-- Open a block at a column that is indented more than the blocks around it, with a token at a
position. -/
def openTo (state : Lexing) (column position : Nat) (token : Token) : Option Lexing :=
  if state.inFlow ||
      !((state.indents.head?.map fun indent => decide (indent < column)).getD true) then
    some state
  else if depthLimit ≤ state.indents.length then none
  else some { state.insert position token with indents := column :: state.indents }

/-- Give up the pending key, which must not be a required one. -/
def dropKey (state : Lexing) : Option Lexing :=
  match state.key with
  | some key => if key.required then none else some { state with key := none }
  | none => some state

/-- Note that a key may begin here. -/
def noteKey (state : Lexing) : Option Lexing :=
  if !state.keyAllowed then some state
  else
    let source := state.source
    let required := !state.inFlow && state.indents.head? = some source.column
    state.dropKey.map fun state =>
      { state with
        key := some
          { position := state.count, index := source.index, line := source.line
            column := source.column, required } }

/-- The pending key if the colon of a key may stand here: on the same line, and not too far
behind. -/
def keyAtColon (state : Lexing) : Option (Option PendingKey) :=
  match state.key with
  | none => some none
  | some key =>
    if key.line < state.source.line || key.index + 1024 < state.source.index then
      if key.required then none else some none
    else some (some key)

/-! ## Single tokens -/

/-- Pass over blanks, comments and ends of lines up to the next token. -/
def skipToToken : Nat → Lexing → Lexing
  | 0, state => state
  | fuel + 1, state =>
    let source := state.source
    let source :=
      if source.column = 0 && source.startsWith byteOrderMark then source.advance 1 else source
    let tabs := state.inFlow || !state.keyAllowed
    let source := source.skipWhile fun char => char = ' ' || (tabs && char = '\t')
    let source :=
      if source.startsWith '#' then source.skipComments (source.chars.length + 1) else source
    if (source.next?.map isLineEnd).getD false then
      skipToToken fuel
        { state with source := source.skipLineEnd, keyAllowed := state.keyAllowed || !state.inFlow }
    else { state with source }

/-- Read the end of the text. -/
def readEnd (state : Lexing) : Option Lexing :=
  state.closeAll.dropKey.map fun state => { state.push .streamEnd with keyAllowed := false }

/-- Read a directive. -/
def readDirective (state : Lexing) : Option Lexing := do
  let state ← state.closeAll.dropKey
  let (source, token) ← Tag.readDirective state.source
  return { state.push token with source, keyAllowed := false }

/-- Read the marker of a document's start or end. -/
def readDocumentMarker (state : Lexing) : Option Lexing := do
  let token := if state.source.startsWith '-' then Token.documentStart else .documentEnd
  let state ← state.closeAll.dropKey
  return { state.take 3 token with keyAllowed := false }

/-- Read an opening bracket. -/
def readOpening (token : Token) (state : Lexing) : Option Lexing := do
  let state ← state.noteKey
  if depthLimit ≤ state.outerKeys.length then none
  else
    return { state.take 1 token with
      key := none, outerKeys := state.key :: state.outerKeys, keyAllowed := true }

/-- Read a closing bracket. -/
def readClosing (token : Token) (state : Lexing) : Option Lexing := do
  let state ← state.dropKey
  let state := { state.take 1 token with keyAllowed := false }
  match state.outerKeys with
  | [] => return state
  | key :: outerKeys => return { state with key, outerKeys }

/-- Read a comma. -/
def readComma (state : Lexing) : Option Lexing := do
  let state ← state.dropKey
  return { state.take 1 .flowEntry with keyAllowed := true }

/-- Read the dash of an entry. -/
def readDash (state : Lexing) : Option Lexing := do
  if !state.inFlow && !state.keyAllowed then none
  else
    let state ← state.openTo state.source.column state.count .blockSequenceStart
    let state ← state.dropKey
    return { state.take 1 .blockEntry with keyAllowed := true }

/-- Read the question mark of a key. -/
def readQuestion (state : Lexing) : Option Lexing := do
  if !state.inFlow && !state.keyAllowed then none
  else
    let state ← state.openTo state.source.column state.count .blockMappingStart
    let state ← state.dropKey
    return { state.take 1 .key with keyAllowed := !state.inFlow }

/-- Read the colon behind a key. -/
def readColon (state : Lexing) : Option Lexing := do
  match ← state.keyAtColon with
  | some key =>
    let state := { state.insert key.position .key with key := none }
    let state ← state.openTo key.column key.position .blockMappingStart
    return { state.take 1 .value with keyAllowed := false }
  | none =>
    if !state.inFlow && !state.keyAllowed then none
    else
      let state := { state with key := none }
      let state ← state.openTo state.source.column state.count .blockMappingStart
      return { state.take 1 .value with keyAllowed := !state.inFlow }

/-- Read a token that a key may begin with. -/
def readWord (read : Source → Option (Source × Token)) (state : Lexing) : Option Lexing := do
  let state ← state.noteKey
  let (source, token) ← read state.source
  return { state.push token with source, keyAllowed := false }

/-- Read a plain scalar. A key may begin on the line behind it. -/
def readPlainScalar (state : Lexing) : Option Lexing := do
  let state ← state.noteKey
  let indent := (state.indents.head?.map fun column => column + 1).getD 0
  let (source, folding) ←
    readPlain state.inFlow indent (state.source.chars.length + 1) state.source {}
  return { state.push (.scalar folding.text true) with source, keyAllowed := folding.broken }

/-- Read a block scalar. -/
def readBlock (literal : Bool) (state : Lexing) : Option Lexing := do
  let state ← state.dropKey
  let (source, text) ← Block.read literal state.indents.head? state.source
  return { state.push (.scalar text false) with source, keyAllowed := true }

/-- Whether a plain scalar may begin with a text. -/
def beginsPlain (flow : Bool) : List Char → Bool
  | [] => false
  | char :: rest =>
    if char = '-' then !((rest.head?.map isBlank).getD false)
    else if char = '?' || char = ':' then !flow && !atGap rest
    else !isBlank char && !isLineEnd char && !",[]\x7b\x7d#&*!|>'\"%@`".toList.contains char

/-- Read the token that a text begins with. -/
def readMark (state : Lexing) : Option Lexing :=
  let named (make : String → Token) (read : Source → Option (Source × String)) :=
    state.readWord fun source => (read source).map fun (rest, text) => (rest, make text)
  let chars := state.source.chars
  let marks := state.inFlow || atGap (chars.drop 1)
  match chars.head? with
  | some '[' => state.readOpening .flowSequenceStart
  | some '\x7b' => state.readOpening .flowMappingStart
  | some ']' => state.readClosing .flowSequenceEnd
  | some '\x7d' => state.readClosing .flowMappingEnd
  | some ',' => state.readComma
  | some '*' => named .alias Tag.readAnchor
  | some '&' => named .anchor Tag.readAnchor
  | some '!' => state.readWord Tag.read
  | some '\'' => named (.scalar · false) (Quoted.read true)
  | some '"' => named (.scalar · false) (Quoted.read false)
  | some char =>
    if char = '-' && atGap (chars.drop 1) then state.readDash
    else if char = '?' && marks then state.readQuestion
    else if char = ':' && marks then state.readColon
    else if char = '|' && !state.inFlow then state.readBlock true
    else if char = '>' && !state.inFlow then state.readBlock false
    else if beginsPlain state.inFlow chars then state.readPlainScalar
    else none
  | none => none

/-- Pass over a comment behind the last token, unless that is the dash of an entry. -/
def skipLineComment (state : Lexing) : Lexing :=
  if state.reversed.head? = some .blockEntry then state
  else { state with source := state.source.skipLineComment }

/-- Read tokens to the end of the text. The second result says whether the end was reached. -/
def readAll : Nat → Lexing → Lexing × Bool
  | 0, state => (state, false)
  | fuel + 1, state =>
    let state := state.skipToToken (state.source.chars.length + 1)
    let state := state.closeTo state.source.column
    let source := state.source
    if source.isEmpty then
      match state.readEnd with
      | some state => (state, true)
      | none => (state, false)
    else
      let read :=
        if source.column = 0 && source.startsWith '%' then state.readDirective
        else if source.atDocumentMarker then state.readDocumentMarker
        else state.readMark.map skipLineComment
      match read with
      | some state => readAll fuel state
      | none => (state, false)

end Lexing

/-- The tokens of a text. Tokens are handed on only once two more were read, so that a fault in the
text also hides the two tokens in front of it. -/
def Token.ofText (text : String) : Option (List Token) :=
  let chars := text.toList
  if !chars.all isAllowed then none
  else
    let chars := if chars.head? = some byteOrderMark then chars.drop 1 else chars
    let (state, complete) := Lexing.readAll (chars.length + 1) { source := { chars } }
    some (if complete then state.reversed.reverse else (state.reversed.drop 2).reverse)

end Assembler.Yaml
