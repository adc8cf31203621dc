import Assembler.Proofs.BitField.Write

/-!
# What a write leaves in the buffer

A buffer is read as one number, low byte first. A write with room sets in that number the low bits
of the value, shifted to the field, and no other bit (`unsignedValue_write`), so the same write
again changes nothing. The answer is an overflow exactly if the field has bits and the value is
outside the range of the check (`fits_iff`). A value that passed is read back from a field that was
zero (`signedField_write`, `unsignedField_write`).

The room is counted in 64-bit words: where the count wraps around, a buffer that is too short is
taken for one with room. A field without bits takes every value and holds zero.
-/

namespace Assembler

/-- The integers that a check takes for a field of some bits. The lower bounds are doubled, so that
they are there for a field without bits too. -/
def RangeCheck.Takes (check : RangeCheck) (width : Nat) (value : Int) : Prop :=
  match check with
  | .none => True
  | .signed => -2 ^ width ≤ 2 * value ∧ 2 * value < 2 ^ width
  | .unsigned | .unnamed _ => -2 ^ width ≤ 2 * value ∧ value < 2 ^ width

instance (check : RangeCheck) (width : Nat) (value : Int) :
    Decidable (check.Takes width value) := by
  cases check <;> unfold RangeCheck.Takes <;> infer_instance

/-- What a signed field takes, an unsigned one does. -/
theorem RangeCheck.Takes.unsigned_of_signed {width : Nat} {value : Int}
    (taken : RangeCheck.signed.Takes width value) : RangeCheck.unsigned.Takes width value := by
  have positive : (0 : Int) < 2 ^ width := Int.pow_pos (by decide)
  unfold RangeCheck.Takes at taken ⊢
  omega

namespace BitField

/-- The number in a field of a buffer. -/
def unsignedField (buffer : List UInt8) (width shift : Nat) : Nat :=
  (unsignedValue buffer >>> shift) % 2 ^ width

/-- The number in a field of a buffer, in two's complement. -/
def signedField (buffer : List UInt8) (width shift : Nat) : Int :=
  (unsignedField buffer width shift : Int).bmod (2 ^ width)

/-- The least number of bytes that reach over a field, however large it is. -/
def bytesSpanned (width shift : UInt64) : Nat :=
  (width.toNat + shift.toNat + 7) / 8

/-- The range of a field that has bits is the check's; a field without bits takes every value. -/
theorem fits_iff {value : Int} {width : Nat} {check : RangeCheck} :
    fits value width check = true ↔ width = 0 ∨ check.Takes width value := by
  cases width with
  | zero => cases check <;> simp [fits]
  | succ low =>
    have double : (2 : Int) ^ (low + 1) = 2 * 2 ^ low := by ring
    cases check with
    | none => simp [fits, RangeCheck.Takes]
    | signed | unsigned | unnamed =>
      simp only [fits, RangeCheck.Takes, double, Nat.one_shiftLeft]
      simp
      omega

/-- The bytes that a field needs are counted modulo the word. -/
theorem toNat_bytesNeeded (width shift : UInt64) :
    (bytesNeeded width shift).toNat = (width.toNat + shift.toNat + 7) % 2 ^ 64 / 8 := by
  simp [bytesNeeded, UInt64.toNat_div, UInt64.toNat_add]

/-- A buffer that reaches over the field has the room that the write asks for. -/
theorem toNat_bytesNeeded_le (width shift : UInt64) :
    (bytesNeeded width shift).toNat ≤ bytesSpanned width shift := by
  rw [toNat_bytesNeeded]
  exact Nat.div_le_div_right (Nat.mod_le _ _)

theorem toNat_emod_lt (value : Int) (width : Nat) : (value % 2 ^ width).toNat < 2 ^ width := by
  have positive : (0 : Int) < 2 ^ width := Int.pow_pos (by decide)
  rw [Int.toNat_lt (Int.emod_nonneg _ positive.ne')]
  push_cast
  exact Int.emod_lt_of_pos value positive

variable {buffer : List UInt8} {value : Int} {width shift : UInt64} {check : RangeCheck}

/-- A write with room sets the field's bits in the number that the buffer spells. -/
theorem unsignedValue_write (room : bytesSpanned width shift ≤ buffer.length) :
    unsignedValue (write buffer value width shift check).1 =
      unsignedValue buffer ||| (value % 2 ^ width.toNat).toNat <<< shift.toNat := by
  have enough : ¬ buffer.length < (bytesNeeded width shift).toNat :=
    Nat.not_lt.mpr ((toNat_bytesNeeded_le width shift).trans room)
  have inside : (value % 2 ^ width.toNat).toNat <<< shift.toNat < 2 ^ (8 * buffer.length) := by
    have reached : width.toNat + shift.toNat ≤ 8 * buffer.length := by
      unfold bytesSpanned at room
      omega
    calc (value % 2 ^ width.toNat).toNat <<< shift.toNat
        < 2 ^ width.toNat * 2 ^ shift.toNat := by
          rw [Nat.shiftLeft_eq]
          exact Nat.mul_lt_mul_of_pos_right (toNat_emod_lt ..) (Nat.two_pow_pos _)
      _ = 2 ^ (width.toNat + shift.toNat) := (Nat.pow_add ..).symm
      _ ≤ 2 ^ (8 * buffer.length) := Nat.pow_le_pow_right (by decide) reached
  rw [write, if_neg enough, unsignedValue_setBits_eq_or, fieldBits_eq, Nat.mod_eq_of_lt inside]

/-- Bits that are set are not changed by setting them again. -/
theorem setBits_setBits (buffer : List UInt8) (bits : Nat) :
    setBits (setBits buffer bits) bits = setBits buffer bits := by
  induction buffer generalizing bits with
  | nil => rfl
  | cons byte rest ih => rw [setBits, setBits, ih, UInt8.or_assoc, UInt8.or_self]

/-- A write that was made is not changed by making it again, whether it had room or not. -/
theorem write_again :
    write (write buffer value width shift check).1 value width shift check =
      write buffer value width shift check := by
  by_cases short : buffer.length < (bytesNeeded width shift).toNat
  · have same : (write buffer value width shift check).1 = buffer := by rw [write, if_pos short]
    rw [same]
  · have again : ¬ (setBits buffer (fieldBits value width.toNat shift.toNat)).length <
        (bytesNeeded width shift).toNat := by rwa [length_setBits]
    rw [write.eq_def buffer, if_neg short, write, if_neg again, setBits_setBits]

section

variable (room : bytesSpanned width shift ≤ buffer.length)
include room

/-- The bits outside the field stay as they are. -/
theorem testBit_write {place : Nat}
    (outside : place < shift.toNat ∨ shift.toNat + width.toNat ≤ place) :
    (unsignedValue (write buffer value width shift check).1).testBit place =
      (unsignedValue buffer).testBit place := by
  rw [unsignedValue_write room, Nat.testBit_or, Nat.testBit_shiftLeft]
  rcases outside with below | above
  · simp [Nat.not_le.mpr below]
  · have high : (value % 2 ^ width.toNat).toNat.testBit (place - shift.toNat) = false := by
      apply Nat.testBit_lt_two_pow
      calc (value % 2 ^ width.toNat).toNat < 2 ^ width.toNat := toNat_emod_lt ..
        _ ≤ 2 ^ (place - shift.toNat) := Nat.pow_le_pow_right (by decide) (by omega)
    rw [high, Bool.and_false, Bool.or_false]

variable (zero : unsignedField buffer width.toNat shift.toNat = 0)
include zero

/-- A field that was zero holds the low bits of the value. -/
theorem unsignedField_of_zero :
    (unsignedField (write buffer value width shift check).1 width.toNat shift.toNat : Int) =
      value % 2 ^ width.toNat := by
  have low : unsignedField (write buffer value width shift check).1 width.toNat shift.toNat =
      (value % 2 ^ width.toNat).toNat := by
    rw [unsignedField, unsignedValue_write room, Nat.shiftRight_or_distrib,
      Nat.shiftLeft_shiftRight, Nat.or_mod_two_pow, ← unsignedField, zero, Nat.zero_or,
      Nat.mod_eq_of_lt (toNat_emod_lt ..)]
  rw [low, Int.toNat_of_nonneg (Int.emod_nonneg _ (Int.pow_ne_zero (by decide)))]

/-- A value in the signed range is read back, signed, from a field that was zero. -/
theorem signedField_write (taken : RangeCheck.signed.Takes width.toNat value) :
    signedField (write buffer value width shift check).1 width.toNat shift.toNat = value := by
  have modulus : ((2 ^ width.toNat : Nat) : Int) = 2 ^ width.toNat := by push_cast; rfl
  unfold RangeCheck.Takes at taken
  rw [signedField, unsignedField_of_zero room zero, ← modulus, Int.emod_bmod]
  apply Int.bmod_eq_of_le <;> omega

/-- A value in the unsigned range is read back from a field that was zero, a negative one as its
complement. -/
theorem unsignedField_write (taken : RangeCheck.unsigned.Takes width.toNat value) :
    (unsignedField (write buffer value width shift check).1 width.toNat shift.toNat : Int) =
      if 0 ≤ value then value else value + 2 ^ width.toNat := by
  have positive : (0 : Int) < 2 ^ width.toNat := Int.pow_pos (by decide)
  unfold RangeCheck.Takes at taken
  rw [unsignedField_of_zero room zero]
  split
  case isTrue nonnegative => exact Int.emod_eq_of_lt nonnegative taken.2
  case isFalse negative =>
    rw [← Int.add_emod_right]
    exact Int.emod_eq_of_lt (by omega) (by omega)

end

/-- A buffer whose field counts as many bytes as it has, and that has fewer, is left alone. -/
theorem write_of_short (counted : width.toNat + shift.toNat + 7 < 2 ^ 64)
    (short : buffer.length < bytesSpanned width shift) :
    write buffer value width shift check =
      (buffer, some (.noRoom buffer.length width shift (bytesNeeded width shift))) := by
  have refused : buffer.length < (bytesNeeded width shift).toNat := by
    rwa [toNat_bytesNeeded, Nat.mod_eq_of_lt counted]
  rw [write, if_pos refused]

/-- With room, the problem of a write is that the value is outside the range. -/
theorem write_snd (room : bytesSpanned width shift ≤ buffer.length) :
    (write buffer value width shift check).2 =
      if width = 0 ∨ check.Takes width.toNat value then none
      else some (.overflow value width check) := by
  have enough : ¬ buffer.length < (bytesNeeded width shift).toNat :=
    Nat.not_lt.mpr ((toNat_bytesNeeded_le width shift).trans room)
  have empty : width.toNat = 0 ↔ width = 0 := UInt64.toNat_inj (a := width) (b := 0)
  simp only [write, if_neg enough, fits_iff, empty]

/-- A write into a buffer that the field reaches beyond changes nothing and names the room. Any
other write sets the value's low bits in the field, leaves the other bits and the length, is not
changed by repeating it, and answers an overflow exactly if the field has bits and the value is
outside the range. Without that answer, a field that has bits and was zero reads as the value. -/
theorem write_exact {after : List UInt8} {problem : Option Problem}
    (written : write buffer value width shift check = (after, problem)) :
    (width.toNat + shift.toNat + 7 < 2 ^ 64 → buffer.length < bytesSpanned width shift →
      after = buffer ∧
        problem = some (.noRoom buffer.length width shift (bytesNeeded width shift))) ∧
    (bytesSpanned width shift ≤ buffer.length →
      (unsignedValue after =
          unsignedValue buffer ||| (value % 2 ^ width.toNat).toNat <<< shift.toNat ∧
        (∀ place, (place < shift.toNat ∨ shift.toNat + width.toNat ≤ place) →
          (unsignedValue after).testBit place = (unsignedValue buffer).testBit place) ∧
        after.length = buffer.length ∧
        write after value width shift check = (after, problem)) ∧
      (problem = if width = 0 ∨ check.Takes width.toNat value then none
        else some (.overflow value width check)) ∧
      (unsignedField buffer width.toNat shift.toNat = 0 → width ≠ 0 → problem = none →
        (check = .signed → signedField after width.toNat shift.toNat = value) ∧
        (check ≠ .none → (unsignedField after width.toNat shift.toNat : Int) =
          if 0 ≤ value then value else value + 2 ^ width.toNat))) := by
  obtain rfl : (write buffer value width shift check).1 = after := by rw [written]
  obtain rfl : (write buffer value width shift check).2 = problem := by rw [written]
  refine ⟨fun counted short => ?_, fun room => ⟨⟨unsignedValue_write room,
    fun _ => testBit_write room, length_write .., write_again⟩, write_snd room, ?_⟩⟩
  · simp [write_of_short counted short]
  · intro zero hasBits silent
    have taken : check.Takes width.toNat value := by
      by_contra refused
      rw [write_snd room, if_neg (not_or.mpr ⟨hasBits, refused⟩)] at silent
      cases silent
    constructor
    · rintro rfl
      exact signedField_write room zero taken
    · intro checked
      apply unsignedField_write room zero
      cases check with
      | none => exact absurd rfl checked
      | signed => exact taken.unsigned_of_signed
      | unsigned | unnamed => exact taken

/-- Five bits across two bytes take a negative value and keep their neighbours. -/
theorem crossing_write_exact :
    write [0x3f, 0xf8] (-3) 5 6 .signed = ([0x7f, 0xff], none) ∧
      unsignedValue [0x7f, 0xff] = unsignedValue [0x3f, 0xf8] ||| 29 <<< 6 ∧
      signedField [0x7f, 0xff] 5 6 = -3 := by
  have written : write [0x3f, 0xf8] (-3) 5 6 .signed = ([0x7f, 0xff], none) := by decide
  obtain ⟨-, reached⟩ := write_exact written
  obtain ⟨⟨spelled, -⟩, -, readBack⟩ := reached (by decide)
  exact ⟨written, spelled, (readBack (by decide) (by decide) rfl).1 rfl⟩

/-- A field without bits takes a value outside its range, and reads as zero. A field so far away
that the count of its bytes wraps around is written to a buffer that ends before it. -/
theorem write_takes_unfit :
    (write [0] 5 0 3 .signed = ([0], none) ∧ ¬ RangeCheck.signed.Takes 0 5 ∧
      signedField [0] 0 3 ≠ 5) ∧
    (write [0] 0 8 18446744073709551612 .none = ([0], none) ∧
      [(0 : UInt8)].length < bytesSpanned 8 18446744073709551612) := by
  decide

end BitField

end Assembler
