import Assembler.Proofs.Leb128.Size

/-!
# Integers read back from their groups

An integer is read from a buffer exactly if the buffer begins with its groups and the integer is in
the range of that many groups (`decode_eq_ok_iff`). The two directions of this make writing and
reading inverse to each other: what was written, padded or not, is read back
(`decode_undoes_appendPadded`), and what was read is written again byte for byte
(`appendPadded_undoes_decode`).
-/

namespace Assembler.Leb128

variable {count pattern : Nat} {signed : Bool} {value : Int} {bytes : List UInt8}

/-- The integer that a pattern of bits in a number of groups stands for. -/
def interpret (count : Nat) (signed : Bool) (pattern : Nat) : Int :=
  if signed && decide (128 ^ count ≤ 2 * pattern) then pattern - (128 ^ count : Nat) else pattern

/-- A pattern stands for the one integer in range that has it. -/
theorem interpret_eq_iff (small : pattern < 128 ^ count) :
    interpret count signed pattern = value ↔
      InRange count signed value ∧ (value % (128 ^ count : Nat)).toNat = pattern := by
  -- An integer in range is its own pattern, or short of it by the modulus when it is negative.
  have natural : 0 ≤ value → value < (128 ^ count : Nat) → value % (128 ^ count : Nat) = value :=
    Int.emod_eq_of_lt
  have negative : value < 0 → -(128 ^ count : Nat) ≤ value →
      value % (128 ^ count : Nat) = value + (128 ^ count : Nat) := by
    intro below near
    rw [← Int.add_emod_right]
    exact Int.emod_eq_of_lt (by omega) (by omega)
  unfold interpret InRange
  cases signed with
  | false =>
    simp only [Bool.false_and, Bool.false_eq_true, if_false]
    omega
  | true =>
    simp only [Bool.true_and, decide_eq_true_eq, if_true]
    split <;> omega

/-- A byte without the continuation bit is below 128. -/
theorem and_continuation_eq_zero_iff {byte : UInt8} : byte &&& 0x80 = 0 ↔ byte.toNat < 128 := by
  have bytes : ∀ value : Fin 256, value.val &&& 128 = 0 ↔ value.val < 128 := by decide +kernel
  rw [← UInt8.toNat_inj, UInt8.toNat_and]
  exact bytes ⟨byte.toNat, byte.toNat_lt⟩

/-- A byte without the continuation bit ends an integer. -/
theorem readGroups_last {byte : UInt8} (last : byte.toNat < 128) (rest : List UInt8) :
    readGroups (byte :: rest) = some (byte.toNat, 1, decide (64 ≤ byte.toNat)) := by
  have top : decide (64 ≤ byte) = decide (64 ≤ byte.toNat) :=
    decide_eq_decide.mpr UInt8.le_iff_toNat_le
  rw [readGroups, if_pos (UInt8.lt_iff_toNat_lt.mpr last), top]

/-- A byte with the continuation bit is the lowest group of an integer that goes on behind it. -/
theorem readGroups_more {byte : UInt8} (more : 128 ≤ byte.toNat) (rest : List UInt8) :
    readGroups (byte :: rest) =
      (readGroups rest).map fun read =>
        (byte.toNat % 128 + 128 * read.1, read.2.1 + 1, read.2.2) := by
  have continues : ¬ byte < 128 := fun last => Nat.not_le.mpr (UInt8.lt_iff_toNat_lt.mp last) more
  rw [readGroups, if_neg continues]

/-- The groups that are read from a buffer are those at its front. -/
theorem groups_of_readGroups {sign : Bool} (read : readGroups bytes = some (pattern, count, sign)) :
    0 < count ∧ pattern < 128 ^ count ∧ sign = decide (128 ^ count ≤ 2 * pattern) ∧
      groups count pattern <+: bytes := by
  induction bytes generalizing pattern count sign with
  | nil => cases read
  | cons byte rest ih =>
    rcases Nat.lt_or_ge byte.toNat 128 with last | more
    · rw [readGroups_last last] at read
      cases read
      have single : groups 1 byte.toNat = [byte] := by
        rw [groups, Nat.mod_eq_of_lt last, UInt8.ofNat_toNat]
      refine ⟨Nat.one_pos, last, decide_eq_decide.mpr (by omega), ?_⟩
      rw [single]
      exact ⟨rest, rfl⟩
    · rw [readGroups_more more] at read
      obtain ⟨⟨value, others, top⟩, readRest, same⟩ := Option.map_eq_some_iff.mp read
      cases same
      obtain ⟨positive, small, signed, front⟩ := ih readRest
      obtain ⟨further, rfl⟩ := Nat.exists_eq_succ_of_ne_zero (Nat.ne_of_gt positive)
      have power : 128 ^ (further + 1 + 1) = 128 * 128 ^ (further + 1) := Nat.pow_succ'
      have limit := byte.toNat_lt
      have first : (byte.toNat % 128 + 128 * value) % 128 + 128 = byte.toNat := by omega
      have behind : (byte.toNat % 128 + 128 * value) / 128 = value := by omega
      refine ⟨Nat.succ_pos _, by dsimp only; omega, ?_, ?_⟩
      · rw [signed]
        exact decide_eq_decide.mpr (by dsimp only; omega)
      · change groups (further + 2) _ <+: _
        rw [groups, first, behind, UInt8.ofNat_toNat]
        exact (List.prefix_cons_inj byte).mpr front

/-- Groups are read back, whatever follows them. -/
theorem readGroups_groups (positive : 0 < count) (small : pattern < 128 ^ count)
    (rest : List UInt8) :
    readGroups (groups count pattern ++ rest) =
      some (pattern, count, decide (128 ^ count ≤ 2 * pattern)) := by
  fun_induction groups count pattern with
  | case1 => cases positive
  | case2 pattern =>
    have byte : (UInt8.ofNat (pattern % 128)).toNat = pattern := by
      rw [UInt8.toNat_ofNat']
      omega
    have top : 64 ≤ pattern ↔ 128 ^ 1 ≤ 2 * pattern := by omega
    rw [List.cons_append, readGroups_last (by omega), byte, decide_eq_decide.mpr top]
  | case3 count pattern ih =>
    have byte : (UInt8.ofNat (pattern % 128 + 128)).toNat = pattern % 128 + 128 := by
      rw [UInt8.toNat_ofNat']
      omega
    have power : 128 ^ (count + 2) = 128 * 128 ^ (count + 1) := Nat.pow_succ'
    have top : 128 ^ (count + 1) ≤ 2 * (pattern / 128) ↔ 128 ^ (count + 2) ≤ 2 * pattern := by omega
    have whole : (pattern % 128 + 128) % 128 + 128 * (pattern / 128) = pattern := by omega
    rw [List.cons_append, readGroups_more (by omega), byte, ih (Nat.succ_pos count) (by omega),
      Option.map_some, whole, decide_eq_decide.mpr top]

/-- Nothing is read from a buffer that has the continuation bit everywhere. -/
theorem readGroups_eq_none_iff :
    readGroups bytes = none ↔ ∀ byte ∈ bytes, byte &&& 0x80 ≠ 0 := by
  induction bytes with
  | nil => simp [readGroups]
  | cons byte rest ih =>
    rw [List.forall_mem_cons, ne_eq, and_continuation_eq_zero_iff]
    rcases Nat.lt_or_ge byte.toNat 128 with last | more
    · rw [readGroups_last last]
      exact iff_of_false (Option.some_ne_none _) fun continues => continues.1 last
    · rw [readGroups_more more, Option.map_eq_none_iff, ih]
      exact (and_iff_right (Nat.not_lt.mpr more)).symm

theorem shiftLeft_groups (count : Nat) : 1 <<< (7 * count) = 128 ^ count := by
  rw [Nat.one_shiftLeft, Nat.pow_mul]

/-- Decoding interprets the groups that are read. -/
theorem decode_of_readGroups {sign : Bool} (read : readGroups bytes = some (pattern, count, sign))
    (signed : Bool) :
    decode bytes signed = .ok (interpret count signed pattern, count) := by
  obtain ⟨_, _, top, _⟩ := groups_of_readGroups read
  cases bytes with
  | nil => cases read
  | cons byte rest =>
    simp only [decode, read, top, shiftLeft_groups, interpret]
    split <;> rfl

/-- An integer is read from a buffer exactly if it is in the range of the groups that it takes, and
these are at the buffer's front. -/
theorem decode_eq_ok_iff :
    decode bytes signed = .ok (value, count) ↔
      0 < count ∧ InRange count signed value ∧ groupsOf value count <+: bytes := by
  constructor
  · intro decoded
    cases read : readGroups bytes with
    | none => cases bytes <;> simp [decode, read] at decoded
    | some result =>
      obtain ⟨pattern, others, sign⟩ := result
      rw [decode_of_readGroups read, Except.ok.injEq, Prod.mk.injEq] at decoded
      obtain ⟨stands, rfl⟩ := decoded
      obtain ⟨positive, small, _, front⟩ := groups_of_readGroups read
      obtain ⟨range, same⟩ := (interpret_eq_iff small).mp stands
      rw [groupsOf, shiftLeft_groups, same]
      exact ⟨positive, range, front⟩
  · rintro ⟨positive, range, rest, rfl⟩
    have modulus : (0 : Int) < (128 ^ count : Nat) :=
      Int.natCast_pos.mpr (Nat.pow_pos (by decide))
    have small : (value % (128 ^ count : Nat)).toNat < 128 ^ count := by
      have low := Int.emod_nonneg value (Int.ne_of_gt modulus)
      have high := Int.emod_lt_of_pos value modulus
      omega
    have read := readGroups_groups positive small rest
    rw [groupsOf, shiftLeft_groups, decode_of_readGroups read,
      (interpret_eq_iff small).mpr ⟨range, rfl⟩]

/-- The groups of an integer that has room in them are read back, whatever follows. -/
theorem decode_groupsOf {width : Nat} (room : size value signed ≤ width) (rest : List UInt8) :
    decode (groupsOf value width ++ rest) (signed || decide (value < 0)) = .ok (value, width) := by
  have positive : 0 < width := Nat.lt_of_lt_of_le (size_pos value signed) room
  exact decode_eq_ok_iff.mpr ⟨positive, (size_le_iff positive).mp room, List.prefix_append _ _⟩

/-- An integer that is read takes no fewer groups than its size. -/
theorem size_le_of_decode
    (decoded : decode bytes (signed || decide (value < 0)) = .ok (value, count)) :
    size value signed ≤ count := by
  obtain ⟨positive, range, _⟩ := decode_eq_ok_iff.mp decoded
  exact (size_le_iff positive).mpr range

/-- An integer that is read as unsigned is not negative, so that a sign makes no difference. -/
theorem decode_or_negative (decoded : decode bytes signed = .ok (value, count)) :
    decode bytes (signed || decide (value < 0)) = .ok (value, count) := by
  obtain ⟨_, range, _⟩ := decode_eq_ok_iff.mp decoded
  cases signed with
  | true => exact decoded
  | false =>
    have natural : ¬ value < 0 := Int.not_lt.mpr range.1
    rwa [decide_eq_false natural, Bool.or_false]

/-- A number with enough room is written in groups. -/
theorem appendPadded_of_size_le {width : Nat} (room : size value signed ≤ width)
    (buffer : List UInt8) :
    appendPadded buffer value signed width = (buffer ++ groupsOf value width, none) := by
  have wide : ¬ (width : Int) < size value signed := by omega
  rw [appendPadded, encodePadded, if_neg wide, Int.toNat_natCast]

/-- What was written in enough groups is read back, and takes exactly those; the plain encoding is
the one with the fewest. An integer that has no room leaves the buffer as it was. -/
theorem decode_undoes_appendPadded (buffer rest : List UInt8) (value : Int) (signed : Bool) :
    (∀ width : Int, size value signed ≤ width → ∃ written,
      appendPadded buffer value signed width = (buffer ++ written, none) ∧
        (written.length : Int) = width ∧
        decode (written ++ rest) (signed || decide (value < 0)) = .ok (value, written.length)) ∧
      appendPadded buffer value signed (size value signed) = (append buffer value signed, none) ∧
      append [] value signed = encode value signed ∧
      ∀ width : Int, width < size value signed →
        appendPadded buffer value signed width =
          (buffer, some (.tooNarrow (size value signed) width)) := by
  refine ⟨?_, appendPadded_of_size_le (Nat.le_refl _) buffer, List.nil_append _, ?_⟩
  · intro width room
    obtain ⟨groups, rfl⟩ := Int.eq_ofNat_of_zero_le (Int.le_trans (Int.natCast_nonneg _) room)
    have enough := Int.ofNat_le.mp room
    refine ⟨groupsOf value groups, appendPadded_of_size_le enough buffer, ?_, ?_⟩
    · rw [length_groupsOf]
    · rw [length_groupsOf]
      exact decode_groupsOf enough rest
  · intro width narrow
    rw [appendPadded, encodePadded, if_pos narrow]

/-- A negative integer written as unsigned, in twice the groups that it needs. -/
theorem decode_undoes_appendPadded_negative :
    ∃ written, appendPadded [7] (-65) false 4 = ([7] ++ written, none) ∧ written.length = 4 ∧
      decode (written ++ [0xff]) true = .ok (-65, 4) ∧
      appendPadded [7] (-65) false 1 = ([7], some (.tooNarrow 2 1)) := by
  obtain ⟨reads, _, _, refuses⟩ := decode_undoes_appendPadded [7] [0xff] (-65) false
  obtain ⟨written, appended, length, decoded⟩ := reads 4 (by decide)
  have four : written.length = 4 := Int.ofNat_inj.mp length
  exact ⟨written, appended, four, four ▸ decoded, refuses 1 (by decide)⟩

/-- Reading fails on an empty buffer and on one that has the continuation bit everywhere. What it
reads from any other is written again byte for byte, and no buffer spells an integer in fewer bytes
than its encoding has. -/
theorem appendPadded_undoes_decode (buffer : List UInt8) (signed : Bool) :
    (decode buffer signed = .error .empty ↔ buffer = []) ∧
      (∀ count, decode buffer signed = .error (.truncated count) ↔
        buffer ≠ [] ∧ (∀ byte ∈ buffer, byte &&& 0x80 ≠ 0) ∧ count = buffer.length) ∧
      ((∃ byte ∈ buffer, byte &&& 0x80 = 0) →
        ∃ value count, decode buffer signed = .ok (value, count)) ∧
      (∀ value count, decode buffer signed = .ok (value, count) →
        size value signed ≤ count ∧
          appendPadded [] value signed count = (buffer.take count, none)) ∧
      ∀ value count, decode buffer (signed || decide (value < 0)) = .ok (value, count) →
        (encode value signed).length ≤ count := by
  refine ⟨?_, ?_, ?_, ?_, ?_⟩
  · cases buffer with
    | nil => simp [decode]
    | cons byte rest =>
      cases read : readGroups (byte :: rest) with
      | none => simp [decode, read]
      | some result => simp [decode_of_readGroups read]
  · intro count
    rw [← readGroups_eq_none_iff]
    cases buffer with
    | nil => simp [decode]
    | cons byte rest =>
      cases read : readGroups (byte :: rest) with
      | none => simp [decode, read, eq_comm]
      | some result => simp [decode_of_readGroups read]
  · rintro ⟨byte, member, last⟩
    cases read : readGroups buffer with
    | none => exact absurd last (readGroups_eq_none_iff.mp read byte member)
    | some result => exact ⟨_, _, decode_of_readGroups read signed⟩
  · intro value count decoded
    have room := size_le_of_decode (decode_or_negative decoded)
    obtain ⟨_, _, front⟩ := decode_eq_ok_iff.mp decoded
    have taken := List.prefix_iff_eq_take.mp front
    rw [length_groupsOf] at taken
    refine ⟨room, ?_⟩
    rw [appendPadded_of_size_le room, List.nil_append, taken]
  · intro value count decoded
    rw [encode, length_groupsOf]
    exact size_le_of_decode decoded

/-- A padded negative integer with a byte behind it is written again in its three groups, of which
its encoding needs two; two bytes with the continuation bit are no integer. -/
theorem appendPadded_undoes_decode_padded :
    decode [0xbf, 0xff, 0x7f, 0x01] true = .ok (-65, 3) ∧ size (-65) true ≤ 3 ∧
      appendPadded [] (-65) true 3 = ([0xbf, 0xff, 0x7f], none) ∧
      (encode (-65) true).length ≤ 3 ∧ decode [0x80, 0xff] true = .error (.truncated 2) := by
  have decoded : decode [0xbf, 0xff, 0x7f, 0x01] true = .ok (-65, 3) := by decide
  obtain ⟨_, _, _, writes, least⟩ := appendPadded_undoes_decode [0xbf, 0xff, 0x7f, 0x01] true
  obtain ⟨_, truncated, _⟩ := appendPadded_undoes_decode [0x80, 0xff] true
  obtain ⟨room, written⟩ := writes (-65) 3 decoded
  have continues : ∀ byte ∈ ([0x80, 0xff] : List UInt8), byte &&& 0x80 ≠ 0 :=
    List.forall_mem_cons.mpr ⟨by decide, List.forall_mem_singleton.mpr (by decide)⟩
  exact ⟨decoded, room, written, least (-65) 3 decoded,
    (truncated 2).mpr ⟨List.cons_ne_nil _ _, continues, rfl⟩⟩

end Assembler.Leb128
