import Assembler.Leb128
import Mathlib.Data.UInt

/-!
# Sizes of integers in groups of seven bits

The number of groups is read off the number of bits: `bitLength_le_iff` ties the latter to powers of
two. The size of an integer is the least number of groups whose range holds it (`size_le_iff`), and
a signed word never takes more than ten groups.
-/

namespace Assembler.Leb128

/-- A number has at most as many bits as the power of two that bounds it. -/
theorem bitLength_le_iff {value bits : Nat} : bitLength value ≤ bits ↔ value < 2 ^ bits := by
  unfold bitLength
  split
  case isTrue zero => exact iff_of_true (Nat.zero_le bits) (zero ▸ Nat.two_pow_pos bits)
  case isFalse positive => rw [Nat.succ_le_iff, Nat.log2_lt positive]

/-- The integers that a number of groups spells, in two's complement when they are signed. -/
def InRange (count : Nat) (signed : Bool) (value : Int) : Prop :=
  if signed then -(128 ^ count : Nat) ≤ 2 * value ∧ 2 * value < (128 ^ count : Nat)
  else 0 ≤ value ∧ value < (128 ^ count : Nat)

/-- The bits that a natural number needs. -/
theorem significantBits_unsigned_le_iff {value : Int} {bits : Nat} (natural : 0 ≤ value) :
    significantBits value false ≤ bits ↔ value < (2 ^ bits : Nat) := by
  rw [significantBits, if_pos rfl, bitLength_le_iff]
  omega

/-- The bits that a number needs with a sign. -/
theorem significantBits_signed_le_iff {value : Int} {bits : Nat} :
    significantBits value true ≤ bits + 1 ↔
      -(2 ^ bits : Nat) ≤ value ∧ value < (2 ^ bits : Nat) := by
  have positive := Nat.two_pow_pos bits
  rw [significantBits, if_neg Bool.noConfusion]
  split
  · rw [Nat.add_le_add_iff_right, bitLength_le_iff]
    omega
  · rw [Nat.add_le_add_iff_right, bitLength_le_iff]
    omega

/-- The size of an integer is the least number of groups that has it in its range. -/
theorem size_le_iff {value : Int} {signed : Bool} {count : Nat} (positive : 0 < count) :
    size value signed ≤ count ↔ InRange count (signed || decide (value < 0)) value := by
  obtain ⟨bits, width⟩ : ∃ bits, 7 * count = bits + 1 := ⟨7 * count - 1, by omega⟩
  have power : 128 ^ count = 2 ^ (bits + 1) := by rw [← width, Nat.pow_mul]
  have double : 2 ^ (bits + 1) = 2 * 2 ^ bits := Nat.pow_succ'
  have least := Nat.two_pow_pos bits
  unfold size InRange
  rw [power]
  split
  case isTrue zero =>
    subst zero
    refine iff_of_true positive ?_
    split <;> omega
  case isFalse nonzero =>
    have groups : (significantBits value (signed || decide (value < 0)) + 6) / 7 ≤ count ↔
        significantBits value (signed || decide (value < 0)) ≤ bits + 1 := by omega
    rw [groups]
    cases flag : signed || decide (value < 0) with
    | true =>
      rw [significantBits_signed_le_iff, if_pos rfl]
      omega
    | false =>
      have natural : 0 ≤ value :=
        Int.not_lt.mp (of_decide_eq_false (Bool.or_eq_false_iff.mp flag).2)
      rw [significantBits_unsigned_le_iff natural, if_neg Bool.noConfusion]
      omega

theorem size_pos (value : Int) (signed : Bool) : 0 < size value signed := by
  unfold size significantBits bitLength
  repeat' split
  all_goals omega

/-- A signed word has at most 65 significant bits, its sign included. -/
theorem significantBits_word_le (word : Int64) (signed : Bool) :
    significantBits word.toInt signed ≤ 65 := by
  have low := word.le_toInt
  have high := word.toInt_lt
  unfold significantBits
  split
  · have short : bitLength word.toInt.natAbs ≤ 64 := bitLength_le_iff.mpr (by omega)
    omega
  · split
    · have short : bitLength word.toInt.toNat ≤ 64 := bitLength_le_iff.mpr (by omega)
      omega
    · have short : bitLength (-word.toInt - 1).toNat ≤ 64 := bitLength_le_iff.mpr (by omega)
      omega

/-- A word takes at most ten bytes. -/
theorem size_word_le (word : Int64) (signed : Bool) : size word.toInt signed ≤ 10 := by
  have bits := significantBits_word_le word (signed || decide (word.toInt < 0))
  unfold size
  split <;> omega

/-- The size of a word does not wrap. -/
theorem toNat_size_word (word : Int64) (signed : Bool) :
    (UInt64.ofNat (size word.toInt signed)).toNat = size word.toInt signed := by
  have bounded := size_word_le word signed
  exact UInt64.toNat_ofNat_of_lt' (by simp only [UInt64.size]; omega)

/-- The groups of a number are as many as asked for. -/
@[simp] theorem length_groups (count value : Nat) : (groups count value).length = count := by
  fun_induction groups count value with
  | case1 | case2 => rfl
  | case3 value count ih => simp [ih]

@[simp] theorem length_groupsOf (value : Int) (width : Nat) :
    (groupsOf value width).length = width :=
  length_groups width _

end Assembler.Leb128
