import Assembler.Text.Number

/-!
# Fields of bits in a buffer

A field is a run of bits in a little-endian buffer, given by its width and its distance from the
buffer's first bit. `write` sets the field's bits with the low bits of an integer and says whether
the integer was in the range asked for.
-/

namespace Assembler

/-- The range that a written integer is held against. -/
inductive RangeCheck where
  /-- Every integer passes. -/
  | none
  /-- `[-2^(n-1), 2^(n-1))` for a field of `n` bits. -/
  | signed
  /-- `[-2^(n-1), 2^n)` for a field of `n` bits, so that a negative constant still fills an unsigned
  field. -/
  | unsigned
  /-- A check without a name; it takes what `unsigned` takes. -/
  | unnamed (code : Int)
deriving DecidableEq

namespace RangeCheck

/-- The names of the checks, by code. -/
def names : List String := ["none", "signed", "unsigned"]

/-- The check with a code. -/
def ofCode (code : Int) : RangeCheck :=
  if code = 0 then .none else if code = 1 then .signed else if code = 2 then .unsigned
  else .unnamed code

/-- The name of a check. -/
def text : RangeCheck → String
  | .none => "none"
  | .signed => "signed"
  | .unsigned => "unsigned"
  | .unnamed code => Text.memberName "WarnMode" names code

end RangeCheck

namespace BitField

/-- Why an integer could not be written, or was written cut short. -/
inductive Problem where
  /-- The buffer ends before the field does. -/
  | noRoom (room : Nat) (width shift needed : UInt64)
  /-- The integer is outside the range asked for. -/
  | overflow (value : Int) (width : UInt64) (check : RangeCheck)
deriving DecidableEq

/-- Whether an integer is in the range of a check for a field of the given width. -/
def fits (value : Int) (width : Nat) (check : RangeCheck) : Bool :=
  match check with
  | .none => true
  | .signed =>
    width == 0 || (-(1 <<< (width - 1) : Nat) ≤ value && value < (1 <<< (width - 1) : Nat))
  | .unsigned | .unnamed _ =>
    width == 0 || (-(1 <<< (width - 1) : Nat) ≤ value && value < (1 <<< width : Nat))

/-- The number of bytes that hold a field, counted in 64-bit words. -/
def bytesNeeded (width shift : UInt64) : UInt64 :=
  (width + shift + 7) / 8

/-- Set in a buffer the bits that are set in a number, both read low byte first. -/
def setBits : List UInt8 → Nat → List UInt8
  | [], _ => []
  | byte :: rest, bits => (byte ||| UInt8.ofNat (bits % 256)) :: setBits rest (bits / 256)

/-- The number whose set bits a field receives: the low `width` bits of the value, `shift` bits
up. A value without low bits gives zero for every shift. -/
def fieldBits (value : Int) (width shift : Nat) : Nat :=
  match (value % (1 <<< width : Nat)).toNat with
  | 0 => 0
  | low => low <<< shift

/-- Write the low bits of an integer into a field. The problem, if there is one, stands beside the
buffer: a buffer that is too short stays as it was, and a value out of range is still written, cut
to the field's width. -/
def write (buffer : List UInt8) (value : Int) (width shift : UInt64) (check : RangeCheck) :
    List UInt8 × Option Problem :=
  if buffer.length < (bytesNeeded width shift).toNat then
    (buffer, some (.noRoom buffer.length width shift (bytesNeeded width shift)))
  else
    (setBits buffer (fieldBits value width.toNat shift.toNat),
      if fits value width.toNat check then none else some (.overflow value width check))

end BitField

end Assembler
