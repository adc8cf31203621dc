import Assembler.Text.Utf8

/-!
# Terminal escapes

A text for a terminal may hold sequences that begin with an escape character and change how the
terminal shows the rest. `Escape.strip` takes them out, and keeps every other character.
-/

namespace Assembler.Text.Escape

/-- Where in a sequence the next byte stands. -/
inductive Mode where
  /-- Outside of all sequences. -/
  | ground
  /-- Inside a character, with so many bytes to come. -/
  | character (left : Nat)
  /-- Behind an escape character. -/
  | escape
  | escapeIntermediate
  /-- In a control sequence, before its parameters. -/
  | control
  | controlParameter
  | controlIntermediate
  /-- In a command to the operating system. -/
  | command
  /-- In a device control sequence, before its parameters. -/
  | device
  | deviceParameter
  | deviceIntermediate
  | deviceString
  /-- In a string without a meaning. -/
  | message
deriving DecidableEq

/-- Whether a byte is a control character that no sequence ends with. -/
def isControl (byte : UInt8) : Bool :=
  byte < 0x18 || byte = 0x19 || (0x1c ≤ byte && byte ≤ 0x1f)

/-- Whether a byte is in a range. -/
def within (first last byte : UInt8) : Bool := first ≤ byte && byte ≤ last

/-- What a byte does in most modes: the mode behind it, and whether it is kept. -/
def stepAnywhere (byte : UInt8) : Mode × Bool :=
  if byte = 0x1b then (.escape, false)
  else if byte = 0x98 || byte = 0x9e || byte = 0x9f then (.message, false)
  else if byte = 0x9b then (.control, false)
  else if byte = 0x90 then (.device, false)
  else if byte = 0x9d then (.command, false)
  else if byte = 0x18 || byte = 0x1a || within 0x80 0x9f byte then (.ground, true)
  else if within 0xc2 0xdf byte then (.character 1, true)
  else if within 0xe0 0xef byte then (.character 2, true)
  else if within 0xf0 0xf4 byte then (.character 3, true)
  else (.ground, false)

/-- What a byte does at the end of a string: an escape, or one of three other bytes, ends it. -/
def stepString (inside : Mode) (byte : UInt8) : Mode × Bool :=
  if byte = 0x1b then (.escape, false)
  else if byte = 0x9c || byte = 0x18 || byte = 0x1a then (.ground, false)
  else (inside, false)

/-- What a byte does: the mode behind it, and whether it is kept. -/
def step (mode : Mode) (byte : UInt8) : Mode × Bool :=
  match mode with
  | .character left => (if left ≤ 1 then .ground else .character (left - 1), true)
  | .ground =>
    if isControl byte || within 0x20 0x7f byte then (.ground, true) else stepAnywhere byte
  | .escape =>
    if isControl byte then (.escape, true)
    else if byte = 0x7f then (.escape, false)
    else if within 0x20 0x2f byte then (.escapeIntermediate, false)
    else if byte = 0x58 || byte = 0x5e || byte = 0x5f then (.message, false)
    else if byte = 0x50 then (.device, false)
    else if byte = 0x5b then (.control, false)
    else if byte = 0x5d then (.command, false)
    else stepAnywhere byte
  | .escapeIntermediate =>
    if isControl byte then (.escapeIntermediate, true)
    else if within 0x20 0x2f byte || byte = 0x7f then (.escapeIntermediate, false)
    else stepAnywhere byte
  | .control =>
    if isControl byte then (.control, true)
    else if byte = 0x7f then (.control, false)
    else if within 0x20 0x2f byte then (.controlIntermediate, false)
    else if within 0x30 0x3f byte then (.controlParameter, false)
    else stepAnywhere byte
  | .controlParameter =>
    if isControl byte then (.controlParameter, true)
    else if within 0x30 0x3f byte || byte = 0x7f then (.controlParameter, false)
    else if within 0x20 0x2f byte then (.controlIntermediate, false)
    else stepAnywhere byte
  | .controlIntermediate =>
    if isControl byte then (.controlIntermediate, true)
    else if within 0x20 0x2f byte || byte = 0x7f then (.controlIntermediate, false)
    else stepAnywhere byte
  | .command => if byte = 0x07 then (.ground, false) else stepString .command byte
  | .device =>
    if within 0x08 0x0d byte || byte = 0x1b || within 0x40 0x7e byte then (.deviceString, false)
    else if isControl byte || byte = 0x7f then (.device, false)
    else if within 0x20 0x2f byte then (.deviceIntermediate, false)
    else if within 0x30 0x3f byte then (.deviceParameter, false)
    else stepAnywhere byte
  | .deviceParameter =>
    if isControl byte || within 0x30 0x3f byte || byte = 0x7f then (.deviceParameter, false)
    else if within 0x20 0x2f byte then (.deviceIntermediate, false)
    else if within 0x40 0x7e byte then (.deviceString, false)
    else stepAnywhere byte
  | .deviceIntermediate =>
    if isControl byte || within 0x20 0x2f byte || byte = 0x7f then (.deviceIntermediate, false)
    else if within 0x30 0x7e byte then (.deviceString, false)
    else stepAnywhere byte
  | .deviceString => stepString .deviceString byte
  | .message =>
    if byte < 0x80 || byte = 0x9c then stepString .message byte else stepAnywhere byte

/-- The bytes that are kept from a mode on. -/
def keep : Mode → List UInt8 → List UInt8
  | _, [] => []
  | mode, byte :: rest =>
    let (next, kept) := step mode byte
    if kept then byte :: keep next rest else keep next rest

/-- A text without its terminal escapes. -/
def strip (text : String) : String := ofBytes (keep .ground (toBytes text))

end Assembler.Text.Escape
