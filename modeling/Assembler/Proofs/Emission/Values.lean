import Assembler.Proofs.BitField.Exact
import Assembler.Proofs.Emission.Operands
import Assembler.Proofs.Linking.Programs

/-!
# The values of a chunk

The fields of data stand at the sums of the sizes before them, and the operands of an instruction at
offsets of its encoding. Both are found again there in every copy of the chunk
(`emitCopy_embeds`, `emitCopies_embeds`), whatever is emitted around them. A field that counts from
its own position holds the distance from its own bytes in each copy, and a report if the distance is
outside the range (`emitChunk_relative`).
-/

namespace Assembler

/-- The fields of data and of the operands of an instruction, with their offsets in a copy. -/
def Body.valuesAt : Body → List (UInt64 × Field)
  | .data items => DataItem.fieldsAt 0 items
  | .instruction code => code.operands.map fun operand => (operand.offset, operand.field)
  | .leb128 _ | .reserve .. | .binary _ | .align _ | .org _ | .branch _ => []

/-- The values of a body are among its fields. -/
theorem Body.mem_fields_of_mem_valuesAt {body : Body} {entry : UInt64 × Field}
    (member : entry ∈ body.valuesAt) : entry.2 ∈ body.fields := by
  cases body with
  | data items => exact DataItem.mem_fields_of_mem_fieldsAt member
  | instruction code =>
    obtain ⟨operand, isOperand, rfl⟩ := List.mem_map.mp member
    exact List.mem_map_of_mem isOperand
  | leb128 | reserve | binary | align | org | branch => cases member

/-- The bytes of a field at an offset of a copy, among those of the chunk. -/
def Chunk.valueBytes (chunk : Chunk) (bytes : List UInt8) (number : Nat) (offset : UInt64)
    (field : Field) : List UInt8 :=
  (bytes.drop (number * chunk.slot.length.toNat + offset.toNat)).take (field.width / 8).toNat

/-- The address of an offset in a copy of a chunk. -/
def Section.valueAddress (sect : Section) (chunk : Chunk) (number : Nat) (offset : UInt64) :
    UInt64 :=
  sect.base + chunk.slot.offset + UInt64.ofNat number * chunk.slot.length + offset

/-- An emission has the bytes of another behind some of its own, and the reports of the other. -/
structure Emission.Embeds (emission : Emission) (start : Nat) (part : Emission) : Prop where
  bytes : (emission.bytes.drop start).take part.bytes.length = part.bytes
  reports : part.diagnostics ⊆ emission.diagnostics

namespace Emission.Embeds

variable {emission first others middle part : Emission} {start within : Nat}

/-- The first of several emissions stands at the start. -/
theorem head (first others : Emission) : (first.append others).Embeds 0 first where
  bytes := by rw [Emission.append, List.drop_zero, List.take_left]
  reports := List.subset_append_left ..

/-- What stands in an emission is moved by one in front of it. -/
theorem behind (embeds : others.Embeds start part) (first : Emission) :
    (first.append others).Embeds (first.bytes.length + start) part where
  bytes := by
    rw [Emission.append, List.drop_append, List.drop_eq_nil_of_le (Nat.le_add_right ..),
      List.nil_append, Nat.add_sub_cancel_left]
    exact embeds.bytes
  reports := List.Subset.trans embeds.reports (List.subset_append_right ..)

/-- A part of a part is a part. -/
theorem trans (outer : emission.Embeds start middle) (inner : middle.Embeds within part) :
    emission.Embeds (start + within) part where
  bytes := by
    have room : part.bytes.length ≤ middle.bytes.length - within := by
      have length := congrArg List.length inner.bytes
      rw [List.length_take, List.length_drop] at length
      omega
    have whole := inner.bytes
    rw [← outer.bytes, List.drop_take, List.take_take, List.drop_drop,
      Nat.min_eq_left room] at whole
    exact whole
  reports := List.Subset.trans inner.reports outer.reports

end Emission.Embeds

namespace Object

section

variable {object : Object} {symbols : SymbolTable} {allowed : Bool} {copy : CopySite}

/-- The fields of data stand behind the items before them. -/
theorem emitItems_embeds {items : List DataItem} {offset : UInt64} {emission : Emission}
    (bounded : offset.toNat + (items.map DataItem.exactSize).sum < 2 ^ 64)
    (emitted : object.emitItems (.standard symbols allowed) copy offset items = .ok emission) :
    ∀ entry ∈ DataItem.fieldsAt offset items, ∃ written start,
      object.emitField (.standard symbols allowed) copy entry.1 entry.2
        (List.replicate (entry.2.width / 8).toNat 0) = .ok written ∧
      entry.1.toNat = offset.toNat + start ∧ emission.Embeds start written := by
  induction items generalizing offset emission with
  | nil =>
    intro entry member
    cases member
  | cons item rest ih =>
    rw [List.map_cons, List.sum_cons] at bounded
    have next : (offset + item.size).toNat = offset.toNat + item.exactSize :=
      DataItem.toNat_add_size (by omega)
    -- What stands in the rest stands behind this item.
    have later : ∀ {first others : Emission}, first.bytes.length = item.exactSize →
        object.emitItems (.standard symbols allowed) copy (offset + item.size) rest = .ok others →
        ∀ entry ∈ DataItem.fieldsAt (offset + item.size) rest, ∃ written start,
          object.emitField (.standard symbols allowed) copy entry.1 entry.2
            (List.replicate (entry.2.width / 8).toNat 0) = .ok written ∧
          entry.1.toNat = offset.toNat + start ∧ (first.append others).Embeds start written := by
      intro first others size emitted entry member
      obtain ⟨written, start, wrote, place, embeds⟩ := ih (by omega) emitted entry member
      refine ⟨written, first.bytes.length + start, wrote, ?_, embeds.behind first⟩
      omega
    cases item with
    | bytes content =>
      obtain ⟨others, emitsRest, same⟩ := exists_of_bind_ok emitted
      cases same
      exact later rfl emitsRest
    | field inner =>
      obtain ⟨first, wrote, emitted⟩ := exists_of_bind_ok emitted
      obtain ⟨others, emitsRest, same⟩ := exists_of_bind_ok emitted
      cases same
      have size : first.bytes.length = DataItem.exactSize (.field inner) := by
        rw [length_of_emitField .standard wrote, List.length_replicate]
        rfl
      intro entry member
      rcases List.mem_cons.mp member with rfl | inRest
      · exact ⟨first, 0, wrote, rfl, .head first others⟩
      · exact later size emitsRest entry inRest

/-- Every operand is found in its bytes of the encoding. -/
theorem emitOperands_embeds (here : ∃ sect, object.getSection copy.sectionId = .ok sect)
    {operands : List Operand} {bytes : List UInt8} {emission : Emission}
    (apart : operands.Pairwise Operand.Apart) (zero : ∀ operand ∈ operands, operand.Zero bytes)
    (emitted : object.emitOperands (.standard symbols allowed) copy bytes operands =
      .ok emission) :
    ∀ operand ∈ operands, ∃ written,
      object.emitField (.standard symbols allowed) copy operand.offset operand.field
        (List.replicate (operand.field.width / 8).toNat 0) = .ok written ∧
      emission.Embeds operand.offset.toNat written := by
  induction operands generalizing bytes emission with
  | nil =>
    intro operand member
    cases member
  | cons operand rest ih =>
    obtain ⟨fits, first, others, wrote, emitsRest, rfl⟩ := exists_of_emitOperands_cons emitted
    obtain ⟨apartFirst, apartRest⟩ := List.pairwise_cons.mp apart
    rw [zero operand List.mem_cons_self] at wrote
    have size : first.bytes.length = (operand.field.width / 8).toNat := by
      rw [length_of_emitField .standard wrote, List.length_replicate]
    intro other member
    rcases List.mem_cons.mp member with rfl | inRest
    · refine ⟨first, wrote, ?_, List.subset_append_left ..⟩
      have kept := emitOperands_room .standard here emitsRest fun other inRest =>
        (apartFirst other inRest).symm
      rw [Operand.room_fill fits size] at kept
      rw [Emission.append, List.nil_append, size]
      exact kept
    · obtain ⟨written, wroteOther, embeds⟩ := ih apartRest (fun other inRest =>
        (zero other (List.mem_cons_of_mem _ inRest)).fill (apartFirst other inRest) fits size)
        emitsRest other inRest
      have behind := embeds.behind { first with bytes := [] }
      rw [List.length_nil, Nat.zero_add] at behind
      exact ⟨written, wroteOther, behind⟩

/-- A copy of data or of an instruction is emitted with the length of its slot, and every value is
found in it. -/
theorem emitCopy_embeds (symbols : SymbolTable) (allowed : Bool)
    (here : ∃ sect, object.getSection copy.sectionId = .ok sect)
    (resolves : ∀ field ∈ copy.chunk.body.fields, object.Resolves field)
    (vacant : copy.chunk.body.Vacant)
    (whole : ∀ entry ∈ copy.chunk.body.valuesAt, entry.2.Whole)
    (short : copy.chunk.exactLength < 2 ^ 64)
    (sized : copy.chunk.slot.length.toNat = copy.chunk.exactLength) {entry : UInt64 × Field}
    (member : entry ∈ copy.chunk.body.valuesAt) :
    ∃ emission written, object.emitCopy (.standard symbols allowed) copy = .ok (emission, none) ∧
      object.emitField (.standard symbols allowed) copy entry.1 entry.2
        (List.replicate (entry.2.width / 8).toNat 0) = .ok written ∧
      emission.Embeds entry.1.toNat written := by
  have complete : ∀ {emission : Emission},
      object.emitContent (.standard symbols allowed) copy = .ok (emission, none) →
      emission.Fills copy.chunk.exactLength →
      object.emitCopy (.standard symbols allowed) copy = .ok (emission, none) := by
    intro emission emitted fills
    rw [emitCopy_eq, emitted]
    exact if_pos (fills.length_eq.trans sized.symm)
  unfold Chunk.exactLength at short complete
  unfold emitContent at complete
  cases isBody : copy.chunk.body with
  | data items =>
    rw [isBody] at resolves member
    simp only [isBody] at short complete
    obtain ⟨emission, emitted, fills⟩ := emitItems_ok symbols allowed
      (fun item itemMember field fieldMember =>
        resolves field (List.mem_flatMap.mpr ⟨item, itemMember, fieldMember⟩)) here 0
    obtain ⟨written, start, wrote, place, embeds⟩ :=
      emitItems_embeds (by simpa using short) emitted entry member
    rw [UInt64.toNat_zero, Nat.zero_add] at place
    refine ⟨emission, written, complete ?_ fills, wrote, place ▸ embeds⟩
    simp only [emitted, bind, Except.bind, pure, Except.pure]
  | instruction code =>
    rw [isBody] at resolves vacant whole
    simp only [isBody] at complete
    have inside : ∀ operand ∈ code.operands, operand.stop ≤ code.bytes.length :=
      fun operand isOperand =>
        (vacant.zero operand isOperand).stop_le (whole _ (List.mem_map_of_mem isOperand))
    obtain ⟨emission, emitted, fills⟩ := emitOperands_ok symbols allowed
      (fun operand isOperand => resolves _ (List.mem_map_of_mem isOperand)) here inside
    rw [isBody] at member
    obtain ⟨operand, isOperand, rfl⟩ := List.mem_map.mp member
    obtain ⟨written, wrote, embeds⟩ :=
      emitOperands_embeds here vacant.apart vacant.zero emitted operand isOperand
    refine ⟨emission, written, complete ?_ fills, wrote, embeds⟩
    simp only [emitted, bind, Except.bind, pure, Except.pure]
  | leb128 | reserve | binary | align | org | branch =>
    rw [isBody] at member
    cases member

end

section

variable {object : Object} {output : Output} {sect : Section} {id index : Nat} {chunk : Chunk}

/-- The copies of a chunk that break no promise stand one behind the other. -/
theorem emitCopies_embeds {remaining number : Nat}
    (copies : ∀ place < remaining, ∃ copy,
      object.emitCopy output (sect.copySite id index chunk (number + place)) = .ok (copy, none)) :
    ∃ emission, object.emitCopies output sect id index chunk remaining number = .ok emission ∧
      ∀ place < remaining, ∀ copy,
        object.emitCopy output (sect.copySite id index chunk (number + place)) =
          .ok (copy, none) →
        emission.Embeds (place * chunk.slot.length.toNat) copy := by
  induction remaining generalizing number with
  | zero =>
    refine ⟨{}, rfl, fun place impossible => ?_⟩
    cases impossible
  | succ remaining ih =>
    obtain ⟨first, emitted⟩ := copies 0 (Nat.succ_pos _)
    obtain ⟨others, later, embeds⟩ := @ih (number + 1) fun place inRange => by
      have next := copies (place + 1) (Nat.succ_lt_succ inRange)
      rwa [← Nat.add_assoc, Nat.add_right_comm] at next
    refine ⟨_, emitCopies_cons emitted later, fun place inRange copy emittedCopy => ?_⟩
    cases place with
    | zero =>
      rw [emitted] at emittedCopy
      cases emittedCopy
      rw [Nat.zero_mul]
      exact .head first others
    | succ place =>
      rw [← Nat.add_assoc, Nat.add_right_comm] at emittedCopy
      have behind := (embeds place (Nat.lt_of_succ_lt_succ inRange) copy emittedCopy).behind first
      have size : first.bytes.length = chunk.slot.length.toNat := length_of_emitCopy emitted
      rwa [size, Nat.add_comm, ← Nat.succ_mul] at behind

end

section

variable {object : Object} {symbols : SymbolTable} {allowed : Bool} {copy : CopySite}
  {sect : Section} {id index : Nat} {chunk : Chunk} {offset : UInt64} {field : Field}
  {address : Int}

/-- A field of zero bytes that is written in place holds the low bits of its value, and a value
outside its range is reported. -/
theorem emitField_value (whole : field.Whole) (absent : field.symbol = none)
    (addressed : object.address field.expr = .ok address) {origin : UInt64}
    (counted : object.originAddress copy field = .ok origin) {written : Emission}
    (wrote : object.emitField (.standard symbols allowed) copy offset field
      (List.replicate (field.width / 8).toNat 0) = .ok written) :
    (BitField.unsignedValue written.bytes : Int) =
        (address - origin.toNat) % 2 ^ field.width.toNat ∧
      (¬ field.check.Takes field.width.toNat (address - origin.toNat) →
        copy.report field (.bitField (.overflow (address - origin.toNat) field.width field.check)) ∈
          written.diagnostics) := by
  obtain ⟨same, emitted, bytes, diagnostics⟩ := emitField_written symbols allowed absent addressed
    counted offset (List.replicate (field.width / 8).toNat 0)
  obtain rfl := Except.ok.inj (wrote.symm.trans emitted)
  have room : BitField.bytesSpanned field.width 0 ≤
      (List.replicate (field.width / 8).toNat (0 : UInt8)).length := by
    have remainder : field.width.toNat % 8 = 0 := by
      simpa using congrArg UInt64.toNat whole.bytes
    rw [List.length_replicate, BitField.bytesSpanned, UInt64.toNat_zero, UInt64.toNat_div]
    change (field.width.toNat + 0 + 7) / 8 ≤ field.width.toNat / 8
    omega
  constructor
  · rw [bytes, BitField.unsignedValue_write room, BitField.unsignedValue_replicate, Nat.zero_or,
      UInt64.toNat_zero, Nat.shiftLeft_zero]
    exact Int.toNat_of_nonneg (Int.emod_nonneg _ (Int.pow_ne_zero (by decide)))
  · intro refused
    rw [diagnostics, BitField.write_snd room, if_neg (not_or.mpr ⟨whole.filled, refused⟩)]
    exact List.mem_singleton.mpr rfl

/-- What a field counts from, if that is its own position, is its own address in each copy. -/
theorem originAddress_of_own (found : object.sections[id]? = some sect)
    (chunkAt : sect.chunks[index]? = some chunk) (own : field.origin = some ⟨id, index, offset⟩)
    (number : Nat) :
    object.originAddress (sect.copySite id index chunk number) field =
      .ok (sect.valueAddress chunk number offset) := by
  have moved : (sect.copySite id index chunk number).moveOrigin ⟨id, index, offset⟩ =
      ⟨id, index, offset + UInt64.ofNat number * chunk.slot.length⟩ := by
    simp [CopySite.moveOrigin, Section.copySite]
  have slotAt : sect.slots[index]? = some chunk.slot := by
    rw [Section.slots, List.getElem?_map, chunkAt, Option.map_some]
  rw [originAddress, own]
  dsimp only
  rw [moved, locationAddress_of_section found rfl]
  simp only [Section.offsetOf, offsetAmong, slotAt, Section.valueAddress]
  rw [UInt64.add_comm offset, ← UInt64.add_assoc, ← UInt64.add_assoc]

/-- A chunk of a section that counts as laid out has no error, all that it refers to exists, and
there is room of zeros for its values. -/
structure Emittable (object : Object) (id index : Nat) (sect : Section) (chunk : Chunk) : Prop where
  found : object.sections[id]? = some sect
  laidOut : sect.laidOut = true
  chunkAt : sect.chunks[index]? = some chunk
  sound : chunk.slot.error = none
  resolves : ∀ field ∈ chunk.body.fields, object.Resolves field
  vacant : chunk.body.Vacant
  short : chunk.exactLength < 2 ^ 64

/-- A value that counts from its own position holds, in each copy of its chunk, the distance from
its own bytes. -/
theorem emitChunk_relative (symbols : SymbolTable) (allowed : Bool)
    (ready : object.Emittable id index sect chunk)
    (whole : ∀ entry ∈ chunk.body.valuesAt, entry.2.Whole)
    (sized : chunk.slot.length.toNat = chunk.exactLength)
    (member : (offset, field) ∈ chunk.body.valuesAt)
    (absent : field.symbol = none) (own : field.origin = some ⟨id, index, offset⟩)
    (addressed : object.address field.expr = .ok address) :
    ∃ emission, object.emitChunk (.standard symbols allowed) id index = .ok (.ok emission) ∧
      ∀ number < chunk.count,
        let value := address - (sect.valueAddress chunk number offset).toNat
        (BitField.unsignedValue (chunk.valueBytes emission.bytes number offset field) : Int) =
            value % 2 ^ field.width.toNat ∧
          (¬ field.check.Takes field.width.toNat value →
            (sect.copySite id index chunk number).report field
              (.bitField (.overflow value field.width field.check)) ∈ emission.diagnostics) := by
  have here : ∃ sect, object.getSection (id : SectionId) = .ok sect :=
    ⟨sect, by rw [getSection_natCast, ready.found]⟩
  have each := fun number => @emitCopy_embeds object (sect.copySite id index chunk number) symbols
    allowed here ready.resolves ready.vacant whole ready.short sized (offset, field) member
  obtain ⟨emission, emitted, embeds⟩ := @emitCopies_embeds object (.standard symbols allowed) sect
    id index chunk chunk.count 0 fun place _ => by
      obtain ⟨copy, _, emitted, _⟩ := each (0 + place)
      exact ⟨copy, emitted⟩
  refine ⟨emission, (emitChunk_ok_iff ready.found ready.laidOut ready.chunkAt ready.sound).mpr
    emitted, ?_⟩
  intro number inRange
  obtain ⟨copy, written, emittedCopy, wrote, inCopy⟩ := each number
  have inChunk := embeds number inRange copy (by rwa [Nat.zero_add])
  obtain ⟨value, reported⟩ := emitField_value (whole _ member) absent addressed
    (originAddress_of_own ready.found ready.chunkAt own number) wrote
  have size : written.bytes.length = (field.width / 8).toNat := by
    rw [length_of_emitField .standard wrote, List.length_replicate]
  have embedded := inChunk.trans inCopy
  have valueBytes : chunk.valueBytes emission.bytes number offset field = written.bytes := by
    rw [Chunk.valueBytes, ← size]
    exact embedded.bytes
  exact ⟨by rw [valueBytes, value], fun refused => embedded.reports (reported refused)⟩

end

end Object

end Assembler
