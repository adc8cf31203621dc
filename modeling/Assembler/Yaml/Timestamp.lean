/-!
# Timestamps

A timestamp is a date, or a date with a time of day and possibly a zone. Only whether a text is one
matters here.
-/

namespace Assembler.Yaml.Timestamp

/-- Read one or two digits. -/
def readNumber : List Char → Option (Nat × List Char)
  | first :: second :: rest =>
    if !first.isDigit then none
    else if second.isDigit then
      some ((first.toNat - 48) * 10 + (second.toNat - 48), rest)
    else some (first.toNat - 48, second :: rest)
  | [first] => if first.isDigit then some (first.toNat - 48, []) else none
  | [] => none

/-- Read one character. -/
def readMark (mark : Char) : List Char → Option (List Char)
  | first :: rest => if first = mark then some rest else none
  | [] => none

/-- The number of days of a month. -/
def daysIn (year month : Nat) : Nat :=
  if month = 2 then
    if year % 4 = 0 && (year % 100 ≠ 0 || year % 400 = 0) then 29 else 28
  else if month = 4 || month = 6 || month = 9 || month = 11 then 30
  else 31

/-- Read a date, with a year of four digits. -/
def readDate (chars : List Char) : Option (List Char) := do
  let digits := chars.takeWhile Char.isDigit
  if digits.length ≠ 4 then none
  else
    let year := digits.foldl (fun value char => value * 10 + (char.toNat - 48)) 0
    let (month, rest) ← readNumber (← readMark '-' (chars.drop 4))
    let (day, rest) ← readNumber (← readMark '-' rest)
    if 1 ≤ month && month ≤ 12 && 1 ≤ day && day ≤ daysIn year month then some rest else none

/-- Drop a fraction of a second, if there is one. -/
def dropFraction : List Char → List Char
  | mark :: digit :: rest =>
    if (mark = '.' || mark = ',') && digit.isDigit then rest.dropWhile Char.isDigit
    else mark :: digit :: rest
  | chars => chars

/-- Read a time of day. -/
def readTime (chars : List Char) : Option (List Char) := do
  let (hour, rest) ← readNumber chars
  let (minute, rest) ← readNumber (← readMark ':' rest)
  let (second, rest) ← readNumber (← readMark ':' rest)
  if hour < 24 && minute < 60 && second < 60 then some (dropFraction rest) else none

/-- Whether a text is a zone. -/
def isZone : List Char → Bool
  | ['Z'] => true
  | [sign, h, i, ':', m, n] =>
    (sign = '+' || sign = '-') && [h, i, m, n].all Char.isDigit &&
      (h.toNat - 48) * 10 + (i.toNat - 48) ≤ 24 && (m.toNat - 48) * 10 + (n.toNat - 48) ≤ 60
  | _ => false

/-- Whether a text is a timestamp. -/
def matches? (chars : List Char) : Bool :=
  match readDate chars with
  | none => false
  | some [] => true
  | some (mark :: rest) =>
    if mark = 'T' || mark = 't' then ((readTime rest).map isZone).getD false
    else if mark = ' ' then
      ((readTime (rest.dropWhile fun char => char = ' ')).map List.isEmpty).getD false
    else false

end Assembler.Yaml.Timestamp
