import Assembler.Proofs.Emission.Parts

/-!
# Emission agrees with layout

Every chunk of a section that was laid out without an error is emitted with exactly the bytes that
the layout counted, at any bases, as long as no address wraps; and a program has the size of its
section and each chunk at its offset. There is one exception, the same as for the layout itself. An
integer whose distance left the signed words unnoticed may have outgrown its slot, and the emission
then reports a length that does not match. `emission_agrees_iff` says that nothing else can go
wrong, and `strayInteger_outgrown` that this can.
-/

namespace Assembler

/-- An object holds a section as a layout left it. Its base may be another by now, and so may all
other sections and the symbols. -/
structure Object.Carries (object : Object) (id : Nat) (laid sect : Section) : Prop where
  found : object.sections[id]? = some sect
  chunks : sect.chunks = laid.chunks
  spans : sect.spans = laid.spans
  size : sect.size = laid.size
  laidOut : sect.laidOut = laid.laidOut

/-- Every integer that is emitted has room for its value. -/
def Section.Roomy (sect : Section) (id : Nat) : Prop :=
  ∀ chunk ∈ sect.chunks, 0 < chunk.count → chunk.Roomy sect id
deriving Decidable

/-- A program has the bytes of a section where the layout has its chunks. A section that takes up no
bytes of a file has no code, and its size is reserved. -/
structure Object.Renders (object : Object) (output : Output) (id : Nat) (sect : Section)
    (program : Program) : Prop where
  length : sect.noBits = false → program.code.length = sect.size.toNat
  code : sect.noBits = false → ∀ (index : Nat) (chunk : Chunk), sect.chunks[index]? = some chunk →
    ∃ emission, object.emitChunk output id index = .ok (.ok emission) ∧
      program.code.extract chunk.slot.offset.toNat chunk.slot.next.toNat = emission.bytes
  reserved : sect.noBits = true → program.code = [] ∧ program.reserved = sect.size

/-- Where a chunk comes from depends on the spans of its section only. -/
def Origin.transfer {table : SymbolTable} {id index : Nat} {laid sect : Section} {chunk : Chunk}
    (origin : Origin table id index laid chunk) (spans : sect.spans = laid.spans) :
    Origin table id index sect chunk where
  source := origin.source
  body := origin.body
  copies := origin.copies
  countSpan := origin.countSpan
  measure := origin.measure
  settled := origin.settled
  counted := origin.counted
  measured := origin.measured
  recorded := origin.recorded
  evolves := origin.evolves
  watched := by
    rw [spans]
    exact origin.watched

/-- What a layout without an error guarantees outlasts a change of the base. -/
theorem Section.Clean.transfer {laid sect : Section} {table : SymbolTable} {id : Nat}
    (clean : laid.Clean table id) (chunks : sect.chunks = laid.chunks)
    (spans : sect.spans = laid.spans) (size : sect.size = laid.size) : sect.Clean table id := by
  have same : sect.relaxed id = laid.relaxed id := by
    simp only [Section.relaxed, Section.slots, chunks, spans, size]
  refine ⟨same ▸ clean.orderly, ?_, ?_, ?_⟩
  · rw [same, spans]
    exact clean.quiet
  · intro index chunk chunkAt
    rw [chunks] at chunkAt
    obtain ⟨origin⟩ := clean.origin chunkAt
    exact ⟨origin.transfer spans⟩
  · intro span member
    rw [spans] at member
    obtain ⟨chunk, chunkAt, origin, original, originalMember, registered⟩ :=
      clean.registered span member
    exact ⟨chunk, chunks ▸ chunkAt, origin.transfer spans, original, originalMember, registered⟩

/-- A section that an object carries is as clean as its layout was. -/
theorem Object.Carries.clean {source laid object : Object} {layout : Layout} {id : Nat}
    {sect : Section} (carries : object.Carries id layout.sect sect)
    (success : source.layoutSection id = .ok (laid, layout)) (silent : layout.error = none) :
    sect.Clean source.table id ∧ sect.laidOut = true := by
  obtain ⟨original, _, lays, _, _⟩ := layoutSection_ok success
  refine ⟨(clean_layout lays silent).transfer carries.chunks carries.spans carries.size, ?_⟩
  obtain ⟨prepared, _, recorded⟩ := layout_eq_ok_iff.mp lays
  rw [carries.laidOut, ← recorded]
  rfl

namespace Section.Clean

variable {sect : Section} {table : SymbolTable} {id : Nat}

/-- No chunk of a section that was laid out without an error has failed. -/
theorem error_none (clean : sect.Clean table id) :
    ∀ chunk ∈ sect.chunks, chunk.slot.error = none :=
  fun _ member => clean.orderly.sound rfl _ (List.mem_map_of_mem member)

/-- Where distances can be measured, integers have room for their values. -/
theorem roomy (clean : sect.Clean table id) (measurable : sect.Measurable id) : sect.Roomy id := by
  intro chunk member _ integer isSome unknown
  have isInteger := Body.integer?_eq_some.mp isSome
  obtain ⟨value, distance, room⟩ :=
    (clean.consistent measurable).leb128 chunk member integer isInteger unknown
  rwa [(Relaxation.distance_eq_some_iff.mp distance).2]

end Section.Clean

section

variable {object : Object} {sect : Section} {symbols : SymbolTable} {id index : Nat} {chunk : Chunk}
  (table : SymbolTable) (allowRelocs : Bool)

section

variable (clean : sect.Clean symbols id) (found : object.sections[id]? = some sect)
  (laidOut : sect.laidOut = true) (addressable : object.Addressable sect)
  (chunkAt : sect.chunks[index]? = some chunk)
include clean found laidOut addressable chunkAt

/-- A chunk whose integer has room is emitted with the length of the layout. -/
theorem emitChunk_fills (roomy : 0 < chunk.count → chunk.Roomy sect id) :
    ∃ emission, object.emitChunk (.standard table allowRelocs) id index = .ok (.ok emission) ∧
      emission.Fills chunk.extent := by
  have sound := clean.error_none chunk (List.mem_of_getElem? chunkAt)
  have append : ∀ {count : Nat} {first others : Emission},
      first.Fills chunk.slot.length.toNat → others.Fills (chunk.slot.length.toNat * count) →
        (first.append others).Fills (chunk.slot.length.toNat * (count + 1)) := by
    intro count first others one several
    rw [Nat.mul_succ, Nat.add_comm]
    exact one.append several
  obtain ⟨emission, emitted, fills⟩ := Object.emitCopies_ok
    (fun copy => copy.Fills chunk.slot.length.toNat)
    (fun count emission => emission.Fills (chunk.slot.length.toNat * count))
    (Emission.fills_ofBytes []) append fun place inRange =>
      have repeated : 0 < chunk.count := Nat.zero_lt_of_lt inRange
      Object.emitCopy_fills table allowRelocs clean found addressable chunkAt repeated
        (roomy repeated) rfl
  exact ⟨emission, (Object.emitChunk_ok_iff found laidOut chunkAt sound).mpr emitted, fills⟩

/-- A chunk whose integer has no room is reported. -/
theorem not_emitChunk_fills (repeated : 0 < chunk.count) (narrow : ¬ chunk.Roomy sect id)
    (output : Output) :
    ∃ emission, object.emitChunk output id index = .ok (.ok emission) ∧
      ¬ emission.Fills chunk.extent := by
  have sound := clean.error_none chunk (List.mem_of_getElem? chunkAt)
  obtain ⟨first, error, emitted, mismatch⟩ := Object.emitCopy_narrow output
    (sect.copySite id index chunk 0) clean found addressable chunkAt repeated narrow
  obtain ⟨others, count⟩ := Nat.exists_eq_succ_of_ne_zero (Nat.ne_of_gt repeated)
  obtain ⟨emission, stopped, diagnostic, member, same⟩ := Object.emitCopies_stop others emitted
  rw [← Nat.succ_eq_add_one, ← count] at stopped
  refine ⟨emission, (Object.emitChunk_ok_iff found laidOut chunkAt sound).mpr stopped, ?_⟩
  intro fills
  exact fills.matching diagnostic member (same ▸ mismatch)

end

/-- A program renders the section that it was emitted from. -/
theorem renders_of_emitSection (clean : sect.Clean symbols id)
    (found : object.sections[id]? = some sect) (bounded : sect.exactSize < 2 ^ 63)
    {output : Output} {emitted : Object.Emitted} {program : Program}
    (success : object.emitSection output id = .ok emitted)
    (accepted : emitted.program = .ok program) : object.Renders output id sect program := by
  obtain ⟨parts, sizes, code, reserved, emits⟩ :=
    Object.emitSection_parts found clean.error_none success accepted
  have total : (parts.map Emission.bytes).flatten.length = sect.size.toNat := by
    rw [List.length_flatten, sizes, clean.toNat_size bounded]
  refine ⟨?_, ?_, ?_⟩
  · intro bits
    rw [code, bits]
    exact total
  · intro bits index chunk chunkAt
    obtain ⟨part, partAt, _, emitsPart⟩ := emits index chunk chunkAt
    refine ⟨part, emitsPart, ?_⟩
    have bytesAt : (parts.map Emission.bytes)[index]? = some part.bytes := by
      rw [List.getElem?_map, partAt, Option.map_some]
    have slice := extract_flatten sizes bytesAt
    have length : part.bytes.length = chunk.extent := by
      have each := congrArg (fun lengths => lengths[index]?) sizes
      simpa [partAt, chunkAt] using each
    rw [code, bits, clean.toNat_next bounded chunkAt, clean.toNat_offset bounded chunkAt]
    rwa [← List.map_take, length] at slice
  · intro noBits
    rw [code, reserved noBits, noBits, total]
    exact ⟨rfl, UInt64.ofNat_toNat⟩

/-- Chunks are emitted as they were laid out exactly if every integer has room, which is so where
distances can be measured; and every program renders its section. -/
theorem emission_agrees_iff {source laid : Object} {layout : Layout}
    (success : source.layoutSection id = .ok (laid, layout)) (silent : layout.error = none)
    (carries : object.Carries id layout.sect sect) (addressable : object.Addressable sect) :
    ((∀ (index : Nat) (chunk : Chunk), sect.chunks[index]? = some chunk →
        ∃ emission, object.emitChunk (.standard table allowRelocs) id index = .ok (.ok emission) ∧
          emission.Fills chunk.extent) ↔ sect.Roomy id) ∧
      (sect.Measurable id → sect.Roomy id) ∧
      ∀ emitted program, object.emitSection (.standard table allowRelocs) id = .ok emitted →
        emitted.program = .ok program →
          object.Renders (.standard table allowRelocs) id sect program := by
  obtain ⟨clean, laidOut⟩ := carries.clean success silent
  refine ⟨⟨?_, ?_⟩, clean.roomy, fun emitted program =>
    renders_of_emitSection clean carries.found addressable.size⟩
  · -- One integer without room is enough for a report.
    intro fills chunk member repeated
    obtain ⟨index, chunkAt⟩ := List.mem_iff_getElem?.mp member
    by_contra narrow
    obtain ⟨emission, emitted, mismatched⟩ := not_emitChunk_fills clean carries.found laidOut
      addressable chunkAt repeated narrow (.standard table allowRelocs)
    obtain ⟨other, otherEmitted, filled⟩ := fills index chunk chunkAt
    rw [emitted] at otherEmitted
    cases otherEmitted
    exact mismatched filled
  · intro roomy index chunk chunkAt
    exact emitChunk_fills table allowRelocs clean carries.found laidOut addressable chunkAt
      (roomy chunk (List.mem_of_getElem? chunkAt))

end

/-- A section at another base. -/
def Section.rebase (sect : Section) (base : UInt64) : Section := { sect with base }

/-- Another base leaves a section as its layout left it. -/
theorem Object.carries_rebase {laid : Object} {id : Nat} {sect : Section}
    (found : laid.sections[id]? = some sect) (base : UInt64) :
    (laid.modifySection id (·.rebase base)).Carries id sect (sect.rebase base) where
  found := by simp [Object.modifySection, found]
  chunks := rfl
  spans := rfl
  size := rfl
  laidOut := rfl

/-- Whether a section is emitted as a program. -/
def Object.emits (object : Object) (output : Output) (id : Nat) : Bool :=
  (object.emitSection output id).toOption.any fun emitted => emitted.program.isOk

/-- A section that emits gives a program. -/
theorem Object.exists_program {object : Object} {output : Output} {id : Nat}
    (emits : object.emits output id = true) :
    ∃ emitted program, object.emitSection output id = .ok emitted ∧
      emitted.program = .ok program := by
  unfold Object.emits at emits
  cases emission : object.emitSection output id with
  | error dangling => simp [emission, Except.toOption] at emits
  | ok emitted =>
    cases accepted : emitted.program with
    | error error =>
      simp [emission, accepted, Except.toOption, Except.isOk, Except.toBool] at emits
    | ok program => exact ⟨emitted, program, rfl, accepted⟩

/-- An integer that spells the length of a field and a jump, the field and the jump, two copies of
an instruction with an operand, and code filling up to a multiple of sixteen. -/
def mixedBodies : Object where
  sections :=
    [{ name := ".text"
       chunks :=
        [{ body := .leb128
            { number := { terms := [⟨-1, .place ⟨0, 1, 0⟩⟩, ⟨1, .place ⟨0, 3, 0⟩⟩] }
              signed := true } },
          { body := .data [.bytes [1, 2], .field { expr := .ofLocation ⟨0, 0, 0⟩, width := 32 }] },
          { body := .branch (Machine.jmp (.ofLocation ⟨0, 0, 0⟩)) },
          { body := .instruction
              { name := "mov"
                bytes := [0xb8, 0, 0, 0, 0]
                operands := [{ offset := 1, field := { expr := .ofInt 7, width := 32 } }] }
            repeats := some (.ofInt 2) },
          { body := .align { boundary := .ofInt 16, codeFill := [[], [0x90], [0x66, 0x90]] } }] }]

/-- An integer that is the largest signed word as long as a jump has two bytes, and more once the
jump has grown to five. -/
def strayInteger : Object where
  sections :=
    [{ name := ".text"
       chunks :=
        [{ body := .leb128
            { number :=
                { constant := 9223372036854775805
                  terms := [⟨-1, .place ⟨0, 1, 0⟩⟩, ⟨1, .place ⟨0, 2, 0⟩⟩] }
              signed := false } },
          { body := .branch
              (Machine.jmp { constant := 1000, terms := [⟨1, .place ⟨0, 1, 0⟩⟩] }) }] }]

/-- The chunks of the one are emitted as they were laid out, at another base, and those of the other
are not, though neither layout reports an error. -/
theorem strayInteger_outgrown :
    (∃ laid layout emitted program, ∃ object : Object, ∃ sect : Section,
      mixedBodies.layoutSection 0 = .ok (laid, layout) ∧ layout.error = none ∧
        object.Carries 0 layout.sect sect ∧ object.Addressable sect ∧ sect.base = 0x400000 ∧
        (∀ (index : Nat) (chunk : Chunk), sect.chunks[index]? = some chunk → ∃ emission,
          object.emitChunk (.standard {} false) 0 index = .ok (.ok emission) ∧
            emission.Fills chunk.extent) ∧
        object.emitSection (.standard {} false) 0 = .ok emitted ∧ emitted.program = .ok program ∧
        object.Renders (.standard {} false) 0 sect program) ∧
    ∃ laid layout, ∃ sect : Section,
      strayInteger.layoutSection 0 = .ok (laid, layout) ∧ layout.error = none ∧
        laid.Carries 0 layout.sect sect ∧ laid.Addressable sect ∧
        ¬ ∀ (index : Nat) (chunk : Chunk), sect.chunks[index]? = some chunk → ∃ emission,
          laid.emitChunk (.standard {} false) 0 index = .ok (.ok emission) ∧
            emission.Fills chunk.extent := by
  constructor
  · obtain ⟨⟨laid, layout⟩, success, silent, addressable, roomy, emits⟩ :=
      exists_ok_of_any (mixedBodies.layoutSection 0)
        (p := fun result => result.2.error = none ∧
          (result.1.modifySection 0 (·.rebase 0x400000)).Addressable
            (result.2.sect.rebase 0x400000) ∧
          (result.2.sect.rebase 0x400000).Roomy 0 ∧
          (result.1.modifySection 0 (·.rebase 0x400000)).emits (.standard {} false) 0 = true)
        (by decide +kernel)
    obtain ⟨_, _, _, found, _⟩ := layoutSection_ok success
    have carries := Object.carries_rebase found 0x400000
    obtain ⟨emitted, program, emission, accepted⟩ := Object.exists_program emits
    obtain ⟨fills, _, renders⟩ := emission_agrees_iff {} false success silent carries addressable
    exact ⟨laid, layout, emitted, program, _, _, success, silent, carries, addressable, rfl,
      fills.mpr roomy, emission, accepted, renders emitted program emission accepted⟩
  · obtain ⟨⟨laid, layout⟩, success, silent, addressable, narrow⟩ :=
      exists_ok_of_any (strayInteger.layoutSection 0)
        (p := fun result => result.2.error = none ∧ result.1.Addressable result.2.sect ∧
          ¬ result.2.sect.Roomy 0)
        (by decide +kernel)
    obtain ⟨_, _, _, found, _⟩ := layoutSection_ok success
    have carries : laid.Carries 0 layout.sect layout.sect := ⟨found, rfl, rfl, rfl, rfl⟩
    obtain ⟨fills, _⟩ := emission_agrees_iff {} false success silent carries addressable
    exact ⟨laid, layout, layout.sect, success, silent, carries, addressable,
      fun agrees => narrow (fills.mp agrees)⟩

end Assembler
