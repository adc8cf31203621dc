import Assembler.BitField
import Mathlib.Data.UInt
import Mathlib.Tactic.Ring

/-!
# Reading back what was written

Writing a field keeps the length of the buffer (`length_write`). A field of whole bytes that was
zero is read back, low byte first and as a signed number, as the integer that was written, if the
integer is in the signed range (`signedValue_write`).
-/

namespace Assembler.BitField

@[simp] theorem length_setBits (buffer : List UInt8) (bits : Nat) :
    (setBits buffer bits).length = buffer.length := by
  induction buffer generalizing bits with
  | nil => rfl
  | cons byte rest ih => simp [setBits, ih]

@[simp] theorem length_write (buffer : List UInt8) (value : Int) (width shift : UInt64)
    (check : RangeCheck) : (write buffer value width shift check).1.length = buffer.length := by
  unfold write
  split
  · rfl
  · exact length_setBits ..

/-- The number that bytes spell, low byte first. -/
def unsignedValue : List UInt8 → Nat
  | [] => 0
  | byte :: rest => byte.toNat + 256 * unsignedValue rest

/-- The number that bytes spell in two's complement, low byte first. -/
def signedValue (bytes : List UInt8) : Int :=
  (unsignedValue bytes : Int).bmod (2 ^ (8 * bytes.length))

/-- Bits set in a buffer are set in the number that it spells, as far as the buffer goes. -/
theorem unsignedValue_setBits_eq_or (buffer : List UInt8) (bits : Nat) :
    unsignedValue (setBits buffer bits) =
      unsignedValue buffer ||| bits % 2 ^ (8 * buffer.length) := by
  induction buffer generalizing bits with
  | nil => simp [setBits, unsignedValue, Nat.mod_one]
  | cons byte rest ih =>
    have low : (UInt8.ofNat (bits % 256)).toNat = bits % 256 := by
      rw [UInt8.toNat_ofNat']
      omega
    have lowBound : bits % 256 < 2 ^ 8 := Nat.mod_lt _ (by decide)
    have byteBound : byte.toNat < 2 ^ 8 := byte.toNat_lt
    have powers : 2 ^ (8 * (rest.length + 1)) = 256 * 2 ^ (8 * rest.length) := by
      rw [Nat.mul_succ, Nat.pow_add]
      ring
    -- A byte below a number is a disjunction too, so bytes and rests can be joined apart.
    have join {small : Nat} (bound : small < 2 ^ 8) (large : Nat) :
        small + 256 * large = large <<< 8 ||| small := by
      rw [← Nat.shiftLeft_add_eq_or_of_lt bound, Nat.shiftLeft_eq]
      omega
    rw [setBits, unsignedValue, unsignedValue, ih, UInt8.toNat_or, low, List.length_cons, powers,
      Nat.mod_mul, join (Nat.or_lt_two_pow byteBound lowBound), join byteBound, join lowBound,
      Nat.shiftLeft_or_distrib]
    ac_rfl

/-- Zeros read as zero. -/
theorem unsignedValue_replicate (count : Nat) :
    unsignedValue (List.replicate count 0) = 0 := by
  induction count with
  | zero => rfl
  | succ count ih => rw [List.replicate_succ, unsignedValue, ih]; rfl

/-- Bits set in zero bytes are the low bits of the number that they come from. -/
theorem unsignedValue_setBits (count bits : Nat) :
    unsignedValue (setBits (List.replicate count 0) bits) = bits % 2 ^ (8 * count) := by
  rw [unsignedValue_setBits_eq_or, unsignedValue_replicate, Nat.zero_or, List.length_replicate]

/-- The bits of a field are the low bits of the value, shifted. -/
theorem fieldBits_eq (value : Int) (width shift : Nat) :
    fieldBits value width shift = (value % 2 ^ width).toNat <<< shift := by
  have power : ((1 <<< width : Nat) : Int) = 2 ^ width := by
    rw [Nat.one_shiftLeft, Nat.cast_pow, Nat.cast_ofNat]
  unfold fieldBits
  rw [power]
  split
  case h_1 none => rw [none, Nat.zero_shiftLeft]
  case h_2 => rfl

/-- The bits of a field that is not shifted are the low bits of the value. -/
theorem fieldBits_zero (value : Int) (width : Nat) :
    fieldBits value width 0 = (value % 2 ^ width).toNat := by
  rw [fieldBits_eq, Nat.shiftLeft_zero]

/-- A field of whole bytes needs as many bytes as it has. -/
theorem bytesNeeded_whole {width : UInt64} (whole : width % 8 = 0) :
    bytesNeeded width 0 = width / 8 := by
  have remainder : width.toNat % 8 = 0 := by
    simpa using congrArg UInt64.toNat whole
  have bound := width.toNat_lt
  apply UInt64.toNat_inj.mp
  simp only [bytesNeeded, UInt64.add_zero, UInt64.toNat_div, UInt64.toNat_add]
  simp
  omega

/-- A field of whole bytes is written into as many bytes. -/
theorem write_whole {width : UInt64} (whole : width % 8 = 0) (value : Int) (check : RangeCheck) :
    write (List.replicate (width / 8).toNat 0) value width 0 check =
      (setBits (List.replicate (width / 8).toNat 0) (value % 2 ^ width.toNat).toNat,
        if fits value width.toNat check then none else some (.overflow value width check)) := by
  have room : ¬ (List.replicate (width / 8).toNat (0 : UInt8)).length <
      (bytesNeeded width 0).toNat := by
    rw [bytesNeeded_whole whole, List.length_replicate]
    exact Nat.lt_irrefl _
  rw [write, if_neg room, UInt64.toNat_zero, fieldBits_zero]

/-- The signed range of a field that is not empty. -/
theorem fits_signed_iff {value : Int} {width : Nat} :
    fits value (width + 1) .signed = true ↔ -2 ^ width ≤ value ∧ value < 2 ^ width := by
  simp [fits, Nat.one_shiftLeft]

/-- An integer in the signed range of a field of whole bytes is read back from it. -/
theorem signedValue_write {value : Int} {width : UInt64} {check : RangeCheck}
    (whole : width % 8 = 0) (positive : width ≠ 0)
    (inRange : fits value width.toNat .signed = true) :
    signedValue (write (List.replicate (width / 8).toNat 0) value width 0 check).1 = value := by
  have bits : 8 * (width / 8).toNat = width.toNat := by
    have remainder : width.toNat % 8 = 0 := by simpa using congrArg UInt64.toNat whole
    simp only [UInt64.toNat_div]
    simp
    omega
  have low : ((value % 2 ^ width.toNat).toNat : Int) = value % 2 ^ width.toNat :=
    Int.toNat_of_nonneg (Int.emod_nonneg _ (Int.pow_ne_zero (by decide)))
  obtain ⟨before, digits⟩ : ∃ before, width.toNat = before + 1 := by
    refine Nat.exists_eq_succ_of_ne_zero fun zero => positive ?_
    exact UInt64.toNat_inj.mp zero
  have bounds := fits_signed_iff.mp (digits ▸ inRange)
  have modulus : ((2 ^ width.toNat : Nat) : Int) = 2 ^ width.toNat := by push_cast; rfl
  rw [write_whole whole, signedValue, length_setBits, List.length_replicate, bits,
    unsignedValue_setBits, bits, Int.natCast_emod, low, ← modulus, Int.emod_emod, Int.emod_bmod,
    digits]
  apply Int.bmod_eq_of_le
  · rw [Nat.pow_succ]
    push_cast
    omega
  · rw [Nat.pow_succ]
    push_cast
    omega

end Assembler.BitField
