/-!
# Integers in groups of seven bits

LEB128 writes an integer in bytes of seven payload bits, low group first; the high bit of every
byte except the last says that another byte follows. Signed numbers are in two's complement over
the groups written. `encode` writes the fewest groups, `encodePadded` exactly as many as asked, and
`decode` reads both back.
-/

namespace Assembler.Leb128

/-- Why an integer could not be read or written. -/
inductive Problem where
  /-- There is no byte to read. -/
  | empty
  /-- None of the bytes read, whose number is given, ends the integer. -/
  | truncated (count : Nat)
  /-- The integer needs more bytes than there are. -/
  | tooNarrow (needed : Nat) (available : Int)
deriving DecidableEq

/-- The wording of a problem. -/
def Problem.message : Problem → String
  | .empty => "leb128: empty input"
  | .truncated count =>
    "leb128: truncated input: " ++ toString count ++ " bytes without terminator"
  | .tooNarrow needed available =>
    "leb128: value needs " ++ toString needed ++ " bytes, only " ++ toString available ++
      " available"

/-- The number of binary digits of a natural number; zero has none. -/
def bitLength (value : Nat) : Nat :=
  if value = 0 then 0 else value.log2 + 1

/-- The number of bits that represent an integer, with a sign bit when it is signed. -/
def significantBits (value : Int) (signed : Bool) : Nat :=
  if signed = false then bitLength value.natAbs
  else if 0 ≤ value then bitLength value.toNat + 1
  else bitLength (-value - 1).toNat + 1

/-- The fewest groups that hold an integer. A negative integer always counts as signed. -/
def size (value : Int) (signed : Bool) : Nat :=
  if value = 0 then 1 else (significantBits value (signed || value < 0) + 6) / 7

/-- The low groups of a natural number, the given number of them, each but the last with the
continuation bit. -/
def groups : Nat → Nat → List UInt8
  | 0, _ => []
  | 1, value => [UInt8.ofNat (value % 128)]
  | count + 2, value => UInt8.ofNat (value % 128 + 128) :: groups (count + 1) (value / 128)

/-- An integer in exactly the given number of groups, in two's complement. -/
def groupsOf (value : Int) (width : Nat) : List UInt8 :=
  groups width (value % (1 <<< (7 * width) : Nat)).toNat

/-- An integer in the fewest groups. -/
def encode (value : Int) (signed : Bool) : List UInt8 :=
  groupsOf value (size value signed)

/-- An integer in exactly `width` groups, if that many hold it. -/
def encodePadded (value : Int) (signed : Bool) (width : Int) : Except Problem (List UInt8) :=
  if width < size value signed then .error (.tooNarrow (size value signed) width)
  else .ok (groupsOf value width.toNat)

/-- The bytes of a buffer followed by the encoding of an integer. -/
def append (buffer : List UInt8) (value : Int) (signed : Bool) : List UInt8 :=
  buffer ++ encode value signed

/-- The bytes of a buffer followed by a padded encoding. When the integer does not fit, the buffer
stays as it was and the problem stands beside it. -/
def appendPadded (buffer : List UInt8) (value : Int) (signed : Bool) (width : Int) :
    List UInt8 × Option Problem :=
  match encodePadded value signed width with
  | .ok bytes => (buffer ++ bytes, none)
  | .error problem => (buffer, some problem)

/-- The groups up to the first byte without a continuation bit: their number, the unsigned value
they spell and the top bit of the last one. -/
def readGroups : List UInt8 → Option (Nat × Nat × Bool)
  | [] => none
  | byte :: rest =>
    if byte < 128 then some (byte.toNat, 1, decide (64 ≤ byte))
    else (readGroups rest).map fun (value, count, sign) =>
      (byte.toNat % 128 + 128 * value, count + 1, sign)

/-- Read one integer from the front of a buffer, with the number of bytes it takes. -/
def decode (bytes : List UInt8) (signed : Bool) : Except Problem (Int × Nat) :=
  match bytes, readGroups bytes with
  | [], _ => .error .empty
  | _ :: _, none => .error (.truncated bytes.length)
  | _ :: _, some (value, count, sign) =>
    if signed && sign then .ok (value - (1 <<< (7 * count) : Nat), count) else .ok (value, count)

end Assembler.Leb128
