import Assembler.Text.Literal
import Assembler.Yaml.Timestamp

/-!
# Plain scalars

A scalar written without quotes stands for a null, a boolean, an integer, a float, a timestamp or a
text, and only its spelling decides which. `resolve` is that decision.
-/

namespace Assembler.Yaml

/-- The number that a float stands for, without its fraction. -/
inductive FloatValue where
  | finite (whole : Int)
  | infinite (negative : Bool)
  | notANumber
deriving DecidableEq

/-- What a plain scalar stands for. -/
inductive Resolved where
  | null
  | boolean (value : Bool)
  | integer (value : Int)
  | float (value : FloatValue)
  | timestamp
  | text
deriving DecidableEq

namespace Scalar

/-- A positive fraction rounded to 53 binary digits, halves to the even neighbour, without what is
then left behind the point. -/
def roundedWhole (numerator denominator : Nat) : Nat :=
  if numerator = 0 then 0
  else
    let quotient (shift : Int) : Nat × Nat × Nat :=
      let top := numerator <<< (-shift).toNat
      let bottom := denominator <<< shift.toNat
      (top / bottom, top % bottom, bottom)
    let low := (numerator.log2 : Int) - denominator.log2 - 53
    let shift := if 1 <<< 53 ≤ (quotient low).1 then low + 1 else low
    let (whole, rest, bottom) := quotient shift
    let rounded :=
      if bottom < 2 * rest || (bottom = 2 * rest && whole % 2 = 1) then whole + 1 else whole
    rounded <<< shift.toNat >>> (-shift).toNat

/-- A decimal number in parts: the digits before and behind the point, and the exponent. -/
structure Decimal where
  negative : Bool
  whole : List Char
  fraction : List Char
  exponent : Int

/-- The number that decimal digits spell. -/
def decimalValue (digits : List Char) : Nat :=
  digits.foldl (fun value char => value * 10 + (char.toNat - '0'.toNat)) 0

/-- Read a sign, if there is one. -/
def readSign : List Char → Bool × List Char
  | '-' :: rest => (true, rest)
  | '+' :: rest => (false, rest)
  | chars => (false, chars)

/-- Read the exponent at the end of a decimal number; an absent one is zero. -/
def readExponent : List Char → Option Int
  | [] => some 0
  | mark :: rest =>
    if mark = 'e' || mark = 'E' then
      let (negative, digits) := readSign rest
      if !digits.isEmpty && digits.all Char.isDigit then
        some (if negative then -(decimalValue digits : Int) else decimalValue digits)
      else none
    else none

/-- Read a decimal number: digits, with a point among or behind them or in front of them, and
possibly an exponent. -/
def readDecimal (chars : List Char) : Option Decimal :=
  let (negative, unsigned) := readSign chars
  let whole := unsigned.takeWhile Char.isDigit
  match unsigned.dropWhile Char.isDigit with
  | '.' :: rest =>
    let fraction := rest.takeWhile Char.isDigit
    if whole.isEmpty && fraction.isEmpty then none
    else (readExponent (rest.dropWhile Char.isDigit)).map fun exponent =>
      ⟨negative, whole, fraction, exponent⟩
  | rest =>
    if whole.isEmpty then none
    else (readExponent rest).map fun exponent => ⟨negative, whole, [], exponent⟩

/-- The float nearest to a decimal number; none when it is too large. -/
def Decimal.value (decimal : Decimal) : Option FloatValue :=
  let digits := decimalValue (decimal.whole ++ decimal.fraction)
  let exponent := decimal.exponent - decimal.fraction.length
  let magnitude := ((decimal.whole ++ decimal.fraction).length : Int) + exponent
  let whole : Nat :=
    if digits = 0 || magnitude < -400 then 0
    else if 400 + (decimal.whole ++ decimal.fraction).length < magnitude then 1 <<< 1024
    else roundedWhole (digits * Nat.pow 10 exponent.toNat) (Nat.pow 10 (-exponent).toNat)
  if 1 <<< 1024 ≤ whole then none
  else some (.finite (if decimal.negative then -whole else whole))

/-- The value of an integer: a literal with a sign in 64 bits, or an unsigned one in 64 bits. -/
def readInteger (chars : List Char) : Option Int :=
  match chars with
  | '-' :: rest =>
    (Text.Literal.read rest).bind fun value =>
      if Int64.minValue.toInt ≤ -value then some (-value) else none
  | '+' :: rest =>
    (Text.Literal.read rest).bind fun value =>
      if value ≤ Int64.maxValue.toInt then some value else none
  | _ =>
    (Text.Literal.read chars).bind fun value => if value < UInt64.size then some value else none

/-- The value of digits of a base with a sign in front of them, in 64 bits. -/
def readSigned (base : Nat) (chars : List Char) : Option Int :=
  let (negative, digits) := readSign chars
  if digits.isEmpty then none
  else
    (Text.Literal.readDigits base digits).bind fun value =>
      if negative then if Int64.minValue.toInt ≤ -value then some (-value) else none
      else if value ≤ Int64.maxValue.toInt then some value
      else none

/-- The value of an integer whose sign follows the mark of its base. -/
def readInnerSign : List Char → Option Int
  | '0' :: 'b' :: rest => readSigned 2 rest
  | '0' :: 'o' :: rest => readSigned 8 rest
  | _ => none

/-- Whether every underscore stands between two digits. -/
def underscoresOk : Bool → List Char → Bool
  | _, [] => true
  | afterDigit, '_' :: rest =>
    afterDigit && ((rest.head?.map Char.isDigit).getD false) && underscoresOk false rest
  | _, char :: rest => underscoresOk char.isDigit rest

/-- The words that stand for something other than themselves. -/
def words : List (String × Resolved) :=
  [("", .null), ("~", .null), ("null", .null), ("Null", .null), ("NULL", .null),
    ("true", .boolean true), ("True", .boolean true), ("TRUE", .boolean true),
    ("false", .boolean false), ("False", .boolean false), ("FALSE", .boolean false),
    (".nan", .float .notANumber), (".NaN", .float .notANumber), (".NAN", .float .notANumber),
    (".inf", .float (.infinite false)), (".Inf", .float (.infinite false)),
    (".INF", .float (.infinite false)), ("+.inf", .float (.infinite false)),
    ("+.Inf", .float (.infinite false)), ("+.INF", .float (.infinite false)),
    ("-.inf", .float (.infinite true)), ("-.Inf", .float (.infinite true)),
    ("-.INF", .float (.infinite true))]

/-- What a text that begins like a number stands for. -/
def resolveNumber (chars : List Char) : Resolved :=
  if Timestamp.matches? chars then .timestamp
  else
    let plain := chars.filter fun char => char ≠ '_'
    match readInteger plain with
    | some value => .integer value
    | none =>
      match (readDecimal plain).bind Decimal.value with
      | some value => .float value
      | none =>
        match readInnerSign plain with
        | some value => .integer value
        | none => .text

/-- What a plain scalar stands for. -/
def resolve (text : String) : Resolved :=
  match words.lookup text with
  | some resolved => resolved
  | none =>
    match text.toList with
    | [] => .text
    | first :: rest =>
      if first.isDigit || first = '+' || first = '-' then resolveNumber (first :: rest)
      else if first = '.' then
        if underscoresOk false rest then
          let digits := (first :: rest).filter fun char => char ≠ '_'
          match (readDecimal digits).bind Decimal.value with
          | some value => .float value
          | none => .text
        else .text
      else .text

/-- The words for truth that older files use. -/
def oldTrue : List String := ["y", "Y", "yes", "Yes", "YES", "on", "On", "ON"]

/-- The words for falsehood that older files use. -/
def oldFalse : List String := ["n", "N", "no", "No", "NO", "off", "Off", "OFF"]

end Scalar

end Assembler.Yaml
