/-!
# Integer literals

An integer literal has a base: `0x` stands for sixteen, `0o` and a leading zero for eight, `0b` for
two, and all else for ten. Underscores may separate digits, and the first one may follow the sign of
the base.
-/

namespace Assembler.Text.Literal

/-- The value of a digit; letters count from ten. -/
def digitValue (char : Char) : Option Nat :=
  if char.isDigit then some (char.toNat - '0'.toNat)
  else if 'a' ≤ char && char ≤ 'z' then some (char.toNat - 'a'.toNat + 10)
  else if 'A' ≤ char && char ≤ 'Z' then some (char.toNat - 'A'.toNat + 10)
  else none

/-- The base of a literal and its digits. -/
def split : List Char → Nat × List Char
  | '0' :: mark :: rest =>
    if mark = 'b' || mark = 'B' then (2, rest)
    else if mark = 'o' || mark = 'O' then (8, rest)
    else if mark = 'x' || mark = 'X' then (16, rest)
    else (8, '0' :: mark :: rest)
  | digits => (10, digits)

/-- The number that digits of a base spell. -/
def readDigits (base : Nat) (digits : List Char) : Option Nat :=
  digits.foldlM (fun value char => do
    let digit ← digitValue char
    if digit < base then some (value * base + digit) else none) 0

/-- Whether every underscore has a digit on both sides. `separable` says that one may come next. -/
def separatorsOk : Bool → List Char → Bool
  | _, [] => true
  | separable, '_' :: rest => separable && !rest.isEmpty && separatorsOk false rest
  | _, _ :: rest => separatorsOk true rest

/-- The value of a literal. -/
def read (chars : List Char) : Option Nat :=
  let (base, digits) := split chars
  let plain := digits.filter fun char => char ≠ '_'
  if plain.isEmpty || !separatorsOk (base ≠ 10) digits then none else readDigits base plain

/-- Why a text is not a number of limited size. -/
inductive Problem where
  | malformed
  | outOfRange
deriving DecidableEq

/-- The number below a limit that digits spell. The first digit that is none, or that makes the
number too large, decides on the problem. -/
def readBelow (limit base : Nat) (digits : List Char) : Except Problem Nat :=
  digits.foldlM (fun value char =>
    match digitValue char with
    | none => .error .malformed
    | some digit =>
      if base ≤ digit then .error .malformed
      else if limit ≤ value * base + digit then .error .outOfRange
      else .ok (value * base + digit)) 0

/-- The value of a literal that has to be below a limit. -/
def readLimited (limit : Nat) (chars : List Char) : Except Problem Nat := do
  let (base, digits) := split chars
  let plain := digits.filter fun char => char ≠ '_'
  let value ← readBelow limit base plain
  if plain.isEmpty || !separatorsOk (base ≠ 10) digits then .error .malformed else .ok value

/-- The value of a literal as an unsigned word. -/
def readUnsigned (chars : List Char) : Except Problem UInt64 :=
  (readLimited UInt64.size chars).map UInt64.ofNat

/-- The value of a literal with a sign as a signed word. -/
def readSigned (chars : List Char) : Except Problem Int := do
  match chars with
  | '-' :: rest =>
    let value ← readLimited UInt64.size rest
    if -value < Int64.minValue.toInt then .error .outOfRange else .ok (-value)
  | _ =>
    let value ← readLimited UInt64.size (if chars.head? = some '+' then chars.drop 1 else chars)
    if Int64.maxValue.toInt < value then .error .outOfRange else .ok value

end Assembler.Text.Literal
