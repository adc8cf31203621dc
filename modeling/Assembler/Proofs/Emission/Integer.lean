import Assembler.Proofs.Emission.Agreement
import Assembler.Proofs.Leb128.RoundTrip

/-!
# Emitted integers spell their values

A copy of an integer in groups of seven bits has the length that the layout committed to, however
the distance that it spells came about, and reading the copy gives the value that the integer has
at the final offsets. A slot is padded where the distance became shorter again after the slot had
grown for it. There is one exception, the same as for the layout itself: an integer that left the
signed words unnoticed may have outgrown its slot. `integer_spelled_iff` says that nothing else can
go wrong, and `absorbed_spelled` that this can.
-/

namespace Assembler

/-- Bytes spell an integer if reading them gives it and takes them all. A negative integer is read
as signed. -/
def Leb128.Spells (bytes : List UInt8) (signed : Bool) (value : Int) : Prop :=
  decode bytes (signed || decide (value < 0)) = .ok (value, bytes.length)

/-- The groups of an integer that has room in them spell it. -/
theorem Leb128.spells_groupsOf {value : Int} {signed : Bool} {width : Nat}
    (room : size value signed ≤ width) : Spells (groupsOf value width) signed value := by
  have decoded := decode_groupsOf room []
  rw [List.append_nil] at decoded
  rwa [Spells, length_groupsOf]

/-- A copy among the bytes of a chunk. -/
def Chunk.copyBytes (chunk : Chunk) (bytes : List UInt8) (number : Nat) : List UInt8 :=
  bytes.extract (number * chunk.slot.length.toNat) ((number + 1) * chunk.slot.length.toNat)

/-- The value of a field at the offsets of its section. -/
def Section.valueOf (sect : Section) (id : Nat) (field : Field) : Int :=
  (sect.relaxed id).exactValue field

/-- A constant has the same value at all offsets. -/
theorem Section.valueOf_constant {field : Field} (known : field.isConstant = true) (sect : Section)
    (id : Nat) : sect.valueOf id field = field.expr.constant := by
  simp only [Field.isConstant, Expr.isConstant, Bool.and_eq_true, List.isEmpty_iff,
    Option.isNone_iff_eq_none] at known
  obtain ⟨⟨terms, symbol⟩, origin⟩ := known
  simp [Section.valueOf, Relaxation.exactValue, Field.positions, terms, symbol, origin]

section

variable {object : Object} {sect : Section} {symbols : SymbolTable} {id index : Nat} {chunk : Chunk}
  {integer : VariableInteger} {value : Int}

/-- The value that emission finds for an integer is the one at the final offsets. -/
theorem address_settled (clean : sect.Clean symbols id) (found : object.sections[id]? = some sect)
    (chunkAt : sect.chunks[index]? = some chunk) (isInteger : chunk.body = .leb128 integer)
    (word : isWord integer.value.expr.coefficientSum = true)
    (unwrapped : ∀ location ∈ integer.value.expr.places,
      sect.base.toNat + (sect.offsetOf location).toNat < 2 ^ 64) :
    object.address integer.value.expr = .ok (sect.valueOf id integer.value) := by
  cases known : integer.value.isConstant with
  | true =>
    rw [Section.valueOf_constant known]
    exact Object.address_constant known
  | false => exact Object.address_measured clean found chunkAt isInteger known word unwrapped

/-- A copy of an integer that has room is its groups. -/
theorem emitCopy_integer (output : Output) (site : CopySite)
    (isInteger : site.chunk.body = .leb128 integer)
    (found : object.address integer.value.expr = .ok value)
    (small : site.chunk.slot.length.toNat < 2 ^ 63)
    (room : Leb128.size value integer.signed ≤ site.chunk.slot.length.toNat) :
    ∃ copy, object.emitCopy output site = .ok (copy, none) ∧
      copy.bytes = Leb128.groupsOf value site.chunk.slot.length.toNat ∧ copy.Silent := by
  obtain ⟨copy, emitted, bytes, warnings⟩ := Object.emitInteger_groups found small room
  have length : copy.bytes.length = site.chunk.slot.length.toNat := by
    rw [bytes, Leb128.length_groupsOf]
  refine ⟨copy, ?_, bytes, ?_⟩
  · rw [Object.emitCopy_eq, Object.emitContent, isInteger]
    dsimp only
    rw [emitted]
    exact if_pos length
  · intro diagnostic member
    rw [(warnings diagnostic member).1]
    rfl

/-- A copy of an integer that breaks no promise has room for it, and is its groups. -/
theorem groups_of_emitCopy {output : Output} (site : CopySite)
    (isInteger : site.chunk.body = .leb128 integer)
    (found : object.address integer.value.expr = .ok value)
    (small : site.chunk.slot.length.toNat < 2 ^ 63) {copy : Emission}
    (emitted : object.emitCopy output site = .ok (copy, none)) :
    Leb128.size value integer.signed ≤ site.chunk.slot.length.toNat ∧
      copy.bytes = Leb128.groupsOf value site.chunk.slot.length.toNat := by
  rcases Nat.lt_or_ge site.chunk.slot.length.toNat (Leb128.size value integer.signed) with
    narrow | room
  · obtain ⟨content, problem, refused⟩ := Object.emitInteger_narrow found small narrow
    rw [Object.emitCopy_eq, Object.emitContent, isInteger] at emitted
    dsimp only at emitted
    rw [refused] at emitted
    cases emitted
  · obtain ⟨other, otherEmitted, bytes, _⟩ :=
      emitCopy_integer output site isInteger found small room
    rw [emitted] at otherEmitted
    cases otherEmitted
    exact ⟨room, bytes⟩

section

variable {output : Output} (found : object.sections[id]? = some sect)
  (laidOut : sect.laidOut = true) (chunkAt : sect.chunks[index]? = some chunk)
  (sound : chunk.slot.error = none) (isInteger : chunk.body = .leb128 integer)
  (settled : object.address integer.value.expr = .ok value)
  (small : chunk.slot.length.toNat < 2 ^ 63)

include found laidOut chunkAt sound isInteger settled small

/-- Every copy of an integer is its groups, unless emission stops. -/
theorem copyBytes_of_emitChunk {emission : Emission}
    (emitted : object.emitChunk output id index = .ok (.ok emission)) (quiet : emission.Silent)
    {number : Nat} (inRange : number < chunk.count) :
    Leb128.size value integer.signed ≤ chunk.slot.length.toNat ∧
      chunk.copyBytes emission.bytes number =
        Leb128.groupsOf value chunk.slot.length.toNat := by
  obtain ⟨copy, _, emittedCopy, slice⟩ := Object.emitCopies_slice
    ((Object.emitChunk_ok_iff found laidOut chunkAt sound).mp emitted) quiet inRange
  obtain ⟨room, bytes⟩ := groups_of_emitCopy (sect.copySite id index chunk number) isInteger
    settled small emittedCopy
  exact ⟨room, slice.trans bytes⟩

/-- An integer that has room is emitted as often as it is repeated. -/
theorem exists_emitChunk_integer
    (room : 0 < chunk.count → Leb128.size value integer.signed ≤ chunk.slot.length.toNat) :
    ∃ emission, object.emitChunk output id index = .ok (.ok emission) ∧ emission.Silent := by
  have copies : ∀ place < chunk.count, ∃ copy,
      object.emitCopy output (sect.copySite id index chunk (0 + place)) = .ok (copy, none) ∧
        copy.Silent := by
    intro place inRange
    obtain ⟨copy, emitted, _, quiet⟩ := emitCopy_integer output
      (sect.copySite id index chunk (0 + place)) isInteger settled small
      (room (Nat.zero_lt_of_lt inRange))
    exact ⟨copy, emitted, quiet⟩
  obtain ⟨emission, emitted, quiet⟩ := Object.emitCopies_ok Emission.Silent
    (fun _ emission => emission.Silent) (fun _ member => by cases member)
    (fun one several => Emission.silent_append.mpr ⟨one, several⟩) copies
  exact ⟨emission, (Object.emitChunk_ok_iff found laidOut chunkAt sound).mpr emitted, quiet⟩

end

/-- An integer has room for its value if it is a constant or the value a signed word. -/
theorem Section.Clean.room (clean : sect.Clean symbols id)
    (chunkAt : sect.chunks[index]? = some chunk) (isInteger : chunk.body = .leb128 integer)
    (short : chunk.exactLength < 2 ^ 63)
    (plain : integer.value.isConstant = true ∨ isWord (sect.valueOf id integer.value) = true) :
    Leb128.size (sect.valueOf id integer.value) integer.signed ≤ chunk.slot.length.toNat := by
  cases known : integer.value.isConstant with
  | true =>
    have length : chunk.slot.length.toNat = chunk.exactLength := by
      rw [clean.length_eq chunkAt, UInt64.toNat_ofNat_of_lt' (by simp only [UInt64.size]; omega)]
    rw [Section.valueOf_constant known, length, Chunk.exactLength, isInteger]
    dsimp only
    rw [if_pos known]
  | false =>
    -- The span of the integer has seen its distance, and the slot has room for what it has seen.
    have word := plain.resolve_left (by simp [known])
    obtain ⟨origin⟩ := clean.origin chunkAt
    have registered := origin.leb128_span isInteger known
    have member := List.mem_append_right origin.countSpan.toList (Option.mem_toList.mpr registered)
    obtain ⟨final, finalMember, holds, purpose, field, _⟩ := clean.watcher chunkAt origin member rfl
    change final.field = integer.value at field
    have anyChange : final.purpose.policy = .anyChange := by rw [purpose]; rfl
    have active := clean.active finalMember anyChange
    have seen := clean.distance_eq_seen finalMember anyChange (by rw [field]; exact word)
    simp only [Span.Holds, active, purpose] at holds
    rw [Section.valueOf, ← field, (Relaxation.distance_eq_some_iff.mp seen).2]
    exact holds.2

/-- Every copy of an integer that is emitted has the length of its slot and spells the value of the
integer at the final offsets. All copies are emitted exactly if the slot has room for the value,
which it has if the integer is a constant or the value a signed word. -/
theorem integer_spelled_iff {source laid : Object} {layout : Layout} (output : Output)
    (success : source.layoutSection id = .ok (laid, layout)) (silent : layout.error = none)
    (carries : object.Carries id layout.sect sect) (chunkAt : sect.chunks[index]? = some chunk)
    (isInteger : chunk.body = .leb128 integer) (short : chunk.exactLength < 2 ^ 63)
    (word : isWord integer.value.expr.coefficientSum = true)
    (unwrapped : ∀ location ∈ integer.value.expr.places,
      sect.base.toNat + (sect.offsetOf location).toNat < 2 ^ 64) :
    (∀ emission, object.emitChunk output id index = .ok (.ok emission) → emission.Silent →
      ∀ number < chunk.count,
        (chunk.copyBytes emission.bytes number).length = chunk.slot.length.toNat ∧
          Leb128.Spells (chunk.copyBytes emission.bytes number) integer.signed
            (sect.valueOf id integer.value)) ∧
      ((∃ emission, object.emitChunk output id index = .ok (.ok emission) ∧ emission.Silent) ↔
        (0 < chunk.count → Leb128.size (sect.valueOf id integer.value) integer.signed ≤
          chunk.slot.length.toNat)) ∧
      (integer.value.isConstant = true ∨ isWord (sect.valueOf id integer.value) = true →
        Leb128.size (sect.valueOf id integer.value) integer.signed ≤
          chunk.slot.length.toNat) := by
  obtain ⟨clean, laidOut⟩ := carries.clean success silent
  have sound := clean.error_none chunk (List.mem_of_getElem? chunkAt)
  have settled := address_settled clean carries.found chunkAt isInteger word unwrapped
  have small : chunk.slot.length.toNat < 2 ^ 63 := by
    rw [clean.length_eq chunkAt, UInt64.toNat_ofNat']
    exact Nat.lt_of_le_of_lt (Nat.mod_le _ _) short
  refine ⟨?_, ⟨?_, ?_⟩, clean.room chunkAt isInteger short⟩
  · intro emission emitted quiet number inRange
    obtain ⟨room, bytes⟩ := copyBytes_of_emitChunk carries.found laidOut chunkAt sound isInteger
      settled small emitted quiet inRange
    rw [bytes, Leb128.length_groupsOf]
    exact ⟨rfl, Leb128.spells_groupsOf room⟩
  · rintro ⟨emission, emitted, quiet⟩ repeated
    exact (copyBytes_of_emitChunk carries.found laidOut chunkAt sound isInteger settled small
      emitted quiet repeated).1
  · exact exists_emitChunk_integer carries.found laidOut chunkAt sound isInteger settled small

end

/-- Two copies of an integer that spells the bytes from behind it up to a multiple of 128. With one
byte each they would have to spell 128; with two bytes each the padding is shorter, and the distance
would fit into one byte again. -/
def absorbed : Object where
  sections :=
    [{ name := ".text"
       chunks :=
        [{ body := .reserve (.ofInt 126) 1 },
          { body := .leb128
              { number := { terms := [⟨-1, .place ⟨0, 2, 0⟩⟩, ⟨1, .place ⟨0, 4, 0⟩⟩] }
                signed := false }
            repeats := some (.ofInt 2) },
          { body := .data [.bytes [1]] },
          { body := .align { boundary := .ofInt 128 } }] }]

/-- The integer of the object, as layout settles it. -/
def absorbedInteger : VariableInteger where
  number := { terms := [⟨-1, .place ⟨0, 2, 0⟩⟩, ⟨1, .place ⟨0, 4, 0⟩⟩] }
  signed := false
  value :=
    { expr := { terms := [⟨-1, .place ⟨0, 2, 0⟩⟩, ⟨1, .place ⟨0, 4, 0⟩⟩] }
      settled := true }

/-- The stray integer, as layout settles it. -/
def outgrownInteger : VariableInteger where
  number :=
    { constant := 9223372036854775805
      terms := [⟨-1, .place ⟨0, 1, 0⟩⟩, ⟨1, .place ⟨0, 2, 0⟩⟩] }
  signed := false
  value :=
    { expr :=
        { constant := 9223372036854775805
          terms := [⟨-1, .place ⟨0, 1, 0⟩⟩, ⟨1, .place ⟨0, 2, 0⟩⟩] }
      settled := true }

/-- Both copies of the one integer spell its value in two bytes, at another base, where one byte
would do. The other integer is not emitted, though its layout reports no error. -/
theorem absorbed_spelled :
    (∃ laid layout emission, ∃ object : Object, ∃ sect : Section, ∃ chunk : Chunk,
      absorbed.layoutSection 0 = .ok (laid, layout) ∧ layout.error = none ∧
        object.Carries 0 layout.sect sect ∧ sect.base = 0x400000 ∧ sect.chunks[1]? = some chunk ∧
        chunk.body = .leb128 absorbedInteger ∧ sect.valueOf 0 absorbedInteger.value = 126 ∧
        chunk.slot.length = 2 ∧ chunk.count = 2 ∧
        object.emitChunk (.standard {} false) 0 1 = .ok (.ok emission) ∧
        ∀ number < 2, (chunk.copyBytes emission.bytes number).length = 2 ∧
          Leb128.Spells (chunk.copyBytes emission.bytes number) false 126) ∧
    ∃ laid layout, ∃ sect : Section, ∃ chunk : Chunk,
      strayInteger.layoutSection 0 = .ok (laid, layout) ∧ layout.error = none ∧
        laid.Carries 0 layout.sect sect ∧ sect.chunks[0]? = some chunk ∧
        chunk.body = .leb128 outgrownInteger ∧ chunk.count = 1 ∧
        ¬ ∃ emission, laid.emitChunk (.standard {} false) 0 0 = .ok (.ok emission) ∧
          emission.Silent := by
  constructor
  · obtain ⟨⟨laid, layout⟩, success, silent, ⟨chunk, chunkAt, isInteger, two, twice⟩, value,
        unwrapped⟩ :=
      exists_ok_of_any (absorbed.layoutSection 0)
        (p := fun result => result.2.error = none ∧
          (∃ chunk : Chunk, chunk ∈ result.2.sect.chunks[1]? ∧
            chunk.body = .leb128 absorbedInteger ∧ chunk.slot.length = 2 ∧ chunk.count = 2) ∧
          (result.2.sect.rebase 0x400000).valueOf 0 absorbedInteger.value = 126 ∧
          ∀ location ∈ absorbedInteger.value.expr.places,
            0x400000 + ((result.2.sect.rebase 0x400000).offsetOf location).toNat < 2 ^ 64)
        (by decide +kernel)
    obtain ⟨_, _, _, found, _⟩ := layoutSection_ok success
    have carries := Object.carries_rebase found 0x400000
    have short : chunk.exactLength < 2 ^ 63 := by
      simp [Chunk.exactLength, isInteger, two]
      decide
    obtain ⟨spells, emits, room⟩ := integer_spelled_iff (.standard {} false) success silent carries
      chunkAt isInteger short (by decide +kernel) unwrapped
    obtain ⟨emission, emitted, quiet⟩ := emits.mpr fun _ => room (.inr (by rw [value]; decide))
    have each := spells emission emitted quiet
    rw [twice, two, value] at each
    exact ⟨laid, layout, emission, _, _, chunk, success, silent, carries, rfl, chunkAt, isInteger,
      value, two, twice, emitted, each⟩
  · obtain ⟨⟨laid, layout⟩, success, silent, ⟨chunk, chunkAt, isInteger, once, short, narrow⟩,
        unwrapped⟩ :=
      exists_ok_of_any (strayInteger.layoutSection 0)
        (p := fun result => result.2.error = none ∧
          (∃ chunk : Chunk, chunk ∈ result.2.sect.chunks[0]? ∧
            chunk.body = .leb128 outgrownInteger ∧ chunk.count = 1 ∧
            chunk.exactLength < 2 ^ 63 ∧ chunk.slot.length.toNat <
              Leb128.size (result.2.sect.valueOf 0 outgrownInteger.value) false) ∧
          ∀ location ∈ outgrownInteger.value.expr.places,
            result.2.sect.base.toNat + (result.2.sect.offsetOf location).toNat < 2 ^ 64)
        (by decide +kernel)
    obtain ⟨_, _, _, found, _⟩ := layoutSection_ok success
    have carries : laid.Carries 0 layout.sect layout.sect := ⟨found, rfl, rfl, rfl, rfl⟩
    obtain ⟨_, emits, _⟩ := integer_spelled_iff (.standard {} false) success silent carries chunkAt
      isInteger short (by decide +kernel) unwrapped
    refine ⟨laid, layout, layout.sect, chunk, success, silent, carries, chunkAt, isInteger, once,
      ?_⟩
    intro emission
    exact Nat.not_le.mpr narrow (emits.mp emission (by omega))

end Assembler
