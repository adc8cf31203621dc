import Assembler.Yaml.Quoted

/-!
# Anchors, tags and directives

An anchor names a node, an alias stands for the node with a name, and a tag says what a node is. A
directive in front of a document gives the version or a short name for tags.
-/

namespace Assembler.Yaml.Tag

/-- Read the name of an anchor or alias, from its mark on. -/
def readAnchor (source : Source) : Option (Source × String) :=
  let start := source.advance 1
  let name := start.chars.takeWhile isNameChar
  let rest := start.advance name.length
  let ends := atGap rest.chars ||
    ((rest.next?.map fun char => "?:,]\x7d%@`".toList.contains char).getD false)
  if name.isEmpty || !ends then none else some (rest, String.ofList name)

/-- Whether a character may stand in a tag as it is. -/
def isTagChar (char : Char) : Bool :=
  isNameChar char || ";/?:@&=+$,.!~*'()[]".toList.contains char

/-- The number of bytes of a character whose first byte is given; zero when it cannot be one. -/
def byteCount (byte : Nat) : Nat :=
  if byte < 0x80 then 1
  else if byte / 32 = 6 then 2
  else if byte / 16 = 14 then 3
  else if byte / 8 = 30 then 4
  else 0

/-- Read a byte written as a percent sign and two digits. -/
def readByte : List Char → Option Nat
  | '%' :: high :: low :: _ => do return (← Quoted.hexValue high) * 16 + (← Quoted.hexValue low)
  | _ => none

/-- Read the later bytes of a character. -/
def readLaterBytes : Nat → Nat → List Char → Option Nat
  | 0, code, _ => some code
  | count + 1, code, chars => do
    let byte ← readByte chars
    if byte / 64 = 2 then readLaterBytes count (code * 64 + byte % 64) (chars.drop 3) else none

/-- Read a character written as bytes, and the number of characters that takes. -/
def readBytes (chars : List Char) : Option (Char × Nat) := do
  let first ← readByte chars
  let count := byteCount first
  if count = 0 then none
  else
    let lead := if count = 1 then first else first % (1 <<< (7 - count))
    let code ← readLaterBytes (count - 1) lead (chars.drop 3)
    return (Char.ofNat code, 3 * count)

/-- Read the characters of a tag. -/
def readSuffix : Nat → Source → List Char → Option (Source × List Char)
  | 0, source, reversed => some (source, reversed.reverse)
  | fuel + 1, source, reversed =>
    match source.next? with
    | none => some (source, reversed.reverse)
    | some char =>
      if char = '%' then
        match readBytes source.chars with
        | none => none
        | some (decoded, length) => readSuffix fuel (source.advance length) (decoded :: reversed)
      else if isTagChar char then readSuffix fuel (source.advance 1) (char :: reversed)
      else some (source, reversed.reverse)

/-- Read a handle: an exclamation mark, possibly a name, and possibly another exclamation mark. -/
def readHandle (source : Source) : Option (Source × List Char) :=
  if !source.startsWith '!' then none
  else
    let name := (source.chars.drop 1).takeWhile isNameChar
    let rest := source.advance (1 + name.length)
    if rest.startsWith '!' then some (rest.advance 1, '!' :: name ++ ['!'])
    else some (rest, '!' :: name)

/-- Read a tag that is not between angle brackets. -/
def readShort (source : Source) : Option (Source × Token) := do
  let (rest, handle) ← readHandle source
  if 1 < handle.length && handle.getLast? = some '!' then
    let (rest, suffix) ← readSuffix (rest.chars.length + 1) rest []
    if suffix.isEmpty then none
    else return (rest, .tag (String.ofList handle) (String.ofList suffix))
  else
    let (rest, suffix) ← readSuffix (rest.chars.length + 1) rest (handle.drop 1).reverse
    if suffix.isEmpty then return (rest, .tag "" "!")
    else return (rest, .tag "!" (String.ofList suffix))

/-- Read a tag from its exclamation mark on. -/
def read (source : Source) : Option (Source × Token) := do
  let (rest, token) ←
    match source.chars with
    | '!' :: '<' :: _ => do
      let start := source.advance 2
      let (rest, suffix) ← readSuffix (start.chars.length + 1) start []
      if suffix.isEmpty || !rest.startsWith '>' then none
      else pure (rest.advance 1, Token.tag "" (String.ofList suffix))
    | _ => readShort source
  if atGap rest.chars then some (rest, token) else none

/-- Read a number of a version. -/
def readVersionNumber (source : Source) : Option (Source × Nat) :=
  let digits := source.chars.takeWhile Char.isDigit
  if digits.isEmpty || 9 < digits.length then none
  else
    some (source.advance digits.length,
      digits.foldl (fun value char => value * 10 + (char.toNat - '0'.toNat)) 0)

/-- Read a version. -/
def readVersion (source : Source) : Option (Source × Token) := do
  let (rest, major) ← readVersionNumber (source.skipWhile isBlank)
  if !rest.startsWith '.' then none
  else
    let (rest, minor) ← readVersionNumber (rest.advance 1)
    return (rest, .versionDirective major minor)

/-- Read a short name for tags and what it stands for. -/
def readTagDirective (source : Source) : Option (Source × Token) := do
  let (rest, handle) ← readHandle (source.skipWhile isBlank)
  if handle ≠ ['!'] && !(1 < handle.length && handle.getLast? = some '!') then none
  else if !((rest.next?.map isBlank).getD false) then none
  else
    let start := rest.skipWhile isBlank
    let (rest, replacement) ← readSuffix (start.chars.length + 1) start []
    if replacement.isEmpty || !atGap rest.chars then none
    else return (rest, .tagDirective (String.ofList handle) (String.ofList replacement))

/-- Read a directive from its percent sign on, with the end of its line. -/
def readDirective (source : Source) : Option (Source × Token) := do
  let start := source.advance 1
  let name := String.ofList (start.chars.takeWhile isNameChar)
  let rest := start.advance name.length
  if name.isEmpty || !atGap rest.chars then none
  else
    let (rest, token) ←
      if name = "YAML" then readVersion rest
      else if name = "TAG" then readTagDirective rest
      else none
    let rest := rest.skipWhile isBlank
    let rest := if rest.startsWith '#' then rest.skipWhile fun char => !isLineEnd char else rest
    if atLineEnd rest.chars then some (rest.skipLineEnd, token) else none

end Assembler.Yaml.Tag
