import Assembler.Proofs.Linking.Emission

/-!
# Operands in their encoding

The check of an instruction counts the end of an operand in words, so that an operand near the last
word passes it with an end that has wrapped. The others lie inside the encoding
(`Operand.stop_le_iff`). What is emitted has the bytes of the encoding in every copy, outside the
operands; an operand whose end has wrapped stops the first copy (`emitChunk_operands`).
-/

namespace Assembler

namespace Operand

variable {operand : Operand} {bytes content : List UInt8}

/-- An operand has a byte at a position of its encoding. -/
def Covers (operand : Operand) (position : Nat) : Prop :=
  operand.offset.toNat ≤ position ∧ position < operand.stop

/-- Filling the bytes of an operand leaves the others of the encoding alone. -/
theorem getElem?_fill (inside : operand.stop ≤ bytes.length)
    (size : content.length = (operand.field.width / 8).toNat) {position : Nat}
    (outside : ¬ operand.Covers position) :
    (operand.fill bytes content)[position]? = bytes[position]? := by
  have bare : overlay [⟨0 + operand.offset.toNat, content⟩] (0 + position) = none := by
    rw [overlay_singleton, Patch.byteAt_eq_none_iff, Patch.stop, size]
    unfold Covers stop at outside
    dsimp only
    omega
  rw [fill_eq_paint inside size 0, getElem?_paint, bare]
  cases bytes[position]? <;> rfl

/-- An operand that passed its check lies inside the encoding unless its end has wrapped. -/
theorem stop_le_iff {size : Nat} (short : size < 2 ^ 64)
    (passed : (operand.offset + operand.field.width / 8).toNat ≤ size) :
    operand.stop ≤ size ↔ operand.stop < 2 ^ 64 := by
  rw [UInt64.toNat_add, ← stop] at passed
  constructor
  · omega
  · intro plain
    rwa [Nat.mod_eq_of_lt plain] at passed

/-- The offset of an operand whose end has wrapped is a negative number. -/
theorem offset_neg (wrapped : 2 ^ 64 ≤ operand.stop) : operand.offset.toInt64 < 0 := by
  have signed : operand.offset.toInt64.toInt = (operand.offset.toNat : Int).bmod (2 ^ 64) :=
    BitVec.toInt_eq_toNat_bmod _
  have word := operand.offset.toNat_lt
  have width := operand.field.width.toNat_lt
  have size : (operand.field.width / 8).toNat = operand.field.width.toNat / 8 :=
    UInt64.toNat_div ..
  unfold stop at wrapped
  rw [Int64.lt_iff_toInt_lt, signed, Int.bmod_def, Int64.toInt_zero]
  split <;> omega

end Operand

/-- An emission is copies of an encoding, one behind the other, that differ from it in the operands
only. -/
structure Emission.Copies (emission : Emission) (code : Instruction) (count : Nat) : Prop where
  length : emission.bytes.length = count * code.bytes.length
  kept : ∀ position < count * code.bytes.length,
    (∀ operand ∈ code.operands, ¬ operand.Covers (position % code.bytes.length)) →
      emission.bytes[position]? = code.bytes[position % code.bytes.length]?

/-- One more copy in front of others. -/
theorem Emission.Copies.cons {first others : Emission} {code : Instruction} {count : Nat}
    (length : first.bytes.length = code.bytes.length)
    (kept : ∀ position, (∀ operand ∈ code.operands, ¬ operand.Covers position) →
      first.bytes[position]? = code.bytes[position]?) (later : others.Copies code count) :
    (first.append others).Copies code (count + 1) := by
  refine ⟨?_, fun position inRange outside => ?_⟩
  · rw [Emission.append, List.length_append, length, later.length, Nat.succ_mul, Nat.add_comm]
  · rw [Emission.append]
    by_cases early : position < code.bytes.length
    · rw [Nat.mod_eq_of_lt early] at outside ⊢
      rw [List.getElem?_append_left (length ▸ early)]
      exact kept position outside
    · rw [Nat.mod_eq_sub_mod (Nat.not_lt.mp early)] at outside ⊢
      rw [List.getElem?_append_right (by omega), length]
      rw [Nat.succ_mul] at inRange
      exact later.kept _ (by omega) outside

namespace Object

/-- Why an operand is not written into an encoding of some length: it refers to something that does
not exist, or it reaches beyond the encoding, so that its bytes would start before the first one. -/
def Refuses (object : Object) (length : Nat) (reference : Dangling) (operand : Operand) : Prop :=
  reference.Missing ∧ ¬ object.Resolves operand.field ∨
    length < operand.stop ∧ reference = .bytesBefore operand.offset.toInt64

variable {object : Object} {output : Output} {copy : CopySite}

/-- Operands are written into their encoding, which stays as it is elsewhere. -/
theorem emitOperands_yields (fitting : output.Fitting)
    (here : ∃ sect, object.getSection copy.sectionId = .ok sect) (operands : List Operand)
    (bytes : List UInt8) :
    Yields (fun emission => (∀ operand ∈ operands, operand.stop ≤ bytes.length) ∧
        emission.bytes.length = bytes.length ∧
        ∀ position, (∀ operand ∈ operands, ¬ operand.Covers position) →
          emission.bytes[position]? = bytes[position]?)
      (fun reference => ∃ operand ∈ operands, object.Refuses bytes.length reference operand)
      (object.emitOperands output copy bytes operands) := by
  induction operands generalizing bytes with
  | nil => exact ⟨by simp, rfl, fun _ _ => rfl⟩
  | cons operand rest ih =>
    simp only [emitOperands]
    split
    · next beyond => exact ⟨operand, List.mem_cons_self, .inr ⟨beyond, rfl⟩⟩
    · next reaches =>
      have inside : operand.stop ≤ bytes.length := Nat.not_lt.mp reaches
      refine ((emitField_dangling output here ..).mono fun _ dangling =>
        ⟨operand, List.mem_cons_self, .inl dangling⟩).bind fun first ofField => ?_
      have size : first.bytes.length = (operand.field.width / 8).toNat := by
        rw [ofField.length_eq fitting]
        exact Operand.length_room inside
      -- The others find an encoding of the same length, so what they reach beyond is the same.
      have length := Operand.length_fill inside size
      have later := ih (operand.fill bytes first.bytes)
      rw [length] at later
      refine (later.mono ?_).bind ?_
      · rintro _ ⟨other, member, refuses⟩
        exact ⟨other, List.mem_cons_of_mem _ member, refuses⟩
      · rintro emission ⟨insideRest, same, kept⟩
        refine ⟨List.forall_mem_cons.mpr ⟨inside, insideRest⟩, same, fun position outside => ?_⟩
        obtain ⟨outsideFirst, outsideRest⟩ := List.forall_mem_cons.mp outside
        exact (kept position outsideRest).trans (Operand.getElem?_fill inside size outsideFirst)

/-- Operands leave the bytes of an operand alone that they have none in common with. -/
theorem emitOperands_room (fitting : output.Fitting)
    (here : ∃ sect, object.getSection copy.sectionId = .ok sect) {operands : List Operand}
    {bytes : List UInt8} {emission : Emission}
    (emitted : object.emitOperands output copy bytes operands = .ok emission) {other : Operand}
    (apart : ∀ operand ∈ operands, operand.Apart other) :
    other.room emission.bytes = other.room bytes := by
  have yields := emitOperands_yields fitting here operands bytes
  rw [emitted] at yields
  refine List.ext_getElem? fun position => ?_
  rw [Operand.room, Operand.room, List.getElem?_take, List.getElem?_take]
  split
  · rw [List.getElem?_drop, List.getElem?_drop]
    refine yields.2.2 _ fun operand member => ?_
    have separate := apart operand member
    unfold Operand.Apart Operand.stop at separate
    unfold Operand.Covers Operand.stop
    omega
  · rfl

/-- A copy of an instruction is what its operands leave, if that has the length of its slot. -/
theorem emitCopy_yields {code : Instruction} (isCode : copy.chunk.body = .instruction code)
    (sized : copy.chunk.slot.length.toNat = code.bytes.length) {good : Emission → Prop}
    {bad : Dangling → Prop}
    (yields : Yields good bad (object.emitOperands output copy code.bytes code.operands))
    (lengths : ∀ emission, good emission → emission.bytes.length = code.bytes.length) :
    Yields (fun result => result.2 = none ∧ good result.1) bad (object.emitCopy output copy) := by
  rw [emitCopy_eq, emitContent]
  simp only [isCode]
  cases emitted : object.emitOperands output copy code.bytes code.operands with
  | error reference => rwa [emitted] at yields
  | ok emission =>
    rw [emitted] at yields
    have length := (lengths emission yields).trans sized.symm
    simp only [bind, Except.bind, pure, Except.pure, if_pos length]
    exact ⟨rfl, yields⟩

section

variable {sect : Section} {id index : Nat} {chunk : Chunk} {code : Instruction}
  (found : object.sections[id]? = some sect) (isCode : chunk.body = .instruction code)
  (fitting : output.Fitting)
include found isCode fitting

/-- The copies of an instruction are emitted, unless one of its operands is refused. -/
theorem emitCopies_yields (sized : chunk.slot.length.toNat = code.bytes.length)
    (count number : Nat) :
    Yields (fun emission => emission.Copies code count ∧
        (count ≠ 0 → ∀ operand ∈ code.operands, operand.stop ≤ code.bytes.length))
      (fun reference => count ≠ 0 ∧
        ∃ operand ∈ code.operands, object.Refuses code.bytes.length reference operand)
      (object.emitCopies output sect id index chunk count number) := by
  induction count generalizing number with
  | zero => exact ⟨⟨(Nat.zero_mul _).symm, by simp⟩, absurd rfl⟩
  | succ count ih =>
    have here : ∃ sect, object.getSection id = .ok sect := ⟨sect, by simp [found]⟩
    have written : Yields _ _ (object.emitCopy output (sect.copySite id index chunk number)) :=
      emitCopy_yields isCode sized (emitOperands_yields fitting here code.operands code.bytes)
        fun _ holds => holds.2.1
    refine (written.mono fun _ refused => ⟨Nat.succ_ne_zero _, refused⟩).bind ?_
    -- The copy has the length of its slot, so that no error ends the copies early.
    rintro ⟨first, error⟩ ⟨none, inside, length, kept⟩
    cases none
    exact ((ih (number + 1)).mono fun _ refused => ⟨Nat.succ_ne_zero _, refused.2⟩).bind
      fun others later => ⟨.cons length kept later.1, fun _ => inside⟩

/-- An instruction that passed its check. An operand lies inside the encoding unless its end has
wrapped. What is emitted is copies of the encoding, and no copy if the end of an operand has
wrapped. If it cannot be emitted, there are copies, and an operand refers to something that does not
exist, or its end has wrapped and its bytes would start before those of the first copy. -/
theorem emitChunk_operands (laidOut : sect.laidOut = true)
    (chunkAt : sect.chunks[index]? = some chunk) (sound : chunk.slot.error = none)
    (short : code.bytes.length < 2 ^ 64) (table : SymbolTable) (counted : Bool) (copies : Int64)
    {measure : Measure} (accepted : chunk.body.measure table index counted copies = .ok measure)
    (sized : chunk.slot.length = measure.length) :
    (∀ operand ∈ code.operands, operand.stop ≤ code.bytes.length ↔ operand.stop < 2 ^ 64) ∧
    Yields (fun result => ∃ emission, result = .ok emission ∧ emission.Copies code chunk.count ∧
        (chunk.count = 0 ∨ ∀ operand ∈ code.operands, operand.stop < 2 ^ 64))
      (fun reference => chunk.count ≠ 0 ∧ ∃ operand ∈ code.operands,
        reference.Missing ∧ ¬ object.Resolves operand.field ∨
        2 ^ 64 ≤ operand.stop ∧ operand.offset.toInt64 < 0 ∧
          reference = .bytesBefore operand.offset.toInt64)
      (object.emitChunk output id index) := by
  have measured := Body.measured_of_ok accepted
  rw [isCode] at measured
  cases measured with
  | instruction checked =>
    have ends : ∀ operand ∈ code.operands,
        (operand.stop ≤ code.bytes.length ↔ operand.stop < 2 ^ 64) := fun operand member =>
      Operand.stop_le_iff short (checkOperands_eq_none_iff.mp checked operand member).2.2
    have length : chunk.slot.length.toNat = code.bytes.length := by
      rw [sized, UInt64.toNat_ofNat_of_lt' short]
    have yields : Yields _ _ (object.emitCopies output sect id index chunk chunk.count 0) :=
      emitCopies_yields found isCode fitting length chunk.count 0
    refine ⟨ends, ?_⟩
    rw [emitChunk_eq found laidOut chunkAt sound]
    cases emitted : object.emitCopies output sect id index chunk chunk.count 0 with
    | ok emission =>
      rw [emitted] at yields
      refine ⟨emission, rfl, yields.1, or_iff_not_imp_left.mpr fun some operand member => ?_⟩
      exact (ends operand member).mp (yields.2 some operand member)
    | error reference =>
      rw [emitted] at yields
      obtain ⟨some, operand, member, refused⟩ := yields
      refine ⟨some, operand, member, refused.imp_right fun outside => ?_⟩
      have wrapped := Nat.not_lt.mp ((ends operand member).not.mp (Nat.not_le.mpr outside.1))
      exact ⟨wrapped, Operand.offset_neg wrapped, outside.2⟩

end

end Object

/-- A move of a constant, with its operand at an offset. -/
def move (offset : UInt64) : Instruction where
  name := "mov"
  bytes := [0xb8, 0, 0, 0, 0]
  operands := [⟨offset, { expr := .ofInt 7, width := 32 }⟩]

/-- Two copies of a move that were laid out. -/
def moves (offset : UInt64) : Object where
  sections :=
    [{ name := ".text"
       laidOut := true
       chunks := [{ body := .instruction (move offset), slot := { length := 5, copies := 2 } }] }]

/-- An operand behind the opcode is written in both copies. One whose offset is the last word but
one passes the check as well; it does not lie inside the encoding, and nothing is emitted. -/
theorem moves_operands :
    (∃ emission, (moves 1).emitChunk (.standard {} true) 0 0 = .ok (.ok emission) ∧
      emission.bytes = [0xb8, 7, 0, 0, 0, 0xb8, 7, 0, 0, 0] ∧ emission.Copies (move 1) 2) ∧
    (∃ operand ∈ (move (-2)).operands, ¬ operand.stop ≤ (move (-2)).bytes.length) ∧
    (moves (-2)).emitChunk (.standard {} true) 0 0 = .error (.bytesBefore (-2)) := by
  have plain : _ ∧ Yields _ _ ((moves 1).emitChunk (.standard {} true) 0 0) :=
    Object.emitChunk_operands rfl rfl .standard rfl rfl rfl (by decide) {} true 2 rfl rfl
  have wrapped : (∀ operand ∈ (move (-2)).operands, _) ∧
      Yields _ _ ((moves (-2)).emitChunk (.standard {} true) 0 0) :=
    Object.emitChunk_operands rfl rfl .standard rfl rfl rfl (by decide) {} true 2 rfl rfl
  obtain ⟨emission, same, copies, _⟩ := plain.2
  cases same
  have own := List.mem_singleton_self (Operand.mk (-2) { expr := .ofInt 7, width := 32 })
  exact ⟨⟨_, rfl, rfl, copies⟩, ⟨_, own, (wrapped.1 _ own).not.mpr (by decide)⟩, rfl⟩

end Assembler
