import Assembler.Proofs.Linking.Emission

/-!
# Programs over imports

The copies of a chunk stand one behind the other, and so do the chunks of a section. Filling in the
relocations of a program therefore gives the code of the section with its imports linked
(`exists_program_link`), if that holds of every copy.
-/

namespace Assembler

variable {emission : Emission}

/-- The fields of data that was measured have whole bytes. -/
theorem measureItems_whole {items : List DataItem} {length : UInt64}
    (measured : measureItems items = .ok length) (offset : UInt64) :
    ∀ entry ∈ DataItem.fieldsAt offset items, entry.2.Whole := by
  induction items generalizing offset length with
  | nil =>
    intro entry member
    cases member
  | cons item rest ih =>
    cases item with
    | bytes content =>
      obtain ⟨others, measures, _⟩ := exists_of_bind_ok measured
      exact ih measures _
    | field inner =>
      simp only [measureItems] at measured
      split at measured
      · cases measured
      · next proper =>
        obtain ⟨others, measures, _⟩ := exists_of_bind_ok measured
        simp only [Bool.or_eq_true, decide_eq_true_eq, not_or, not_not] at proper
        intro entry member
        rcases List.mem_cons.mp member with rfl | inRest
        · exact ⟨proper.2, proper.1⟩
        · exact ih measures _ entry inRest

/-- The fields of a chunk of a layout without an error have whole bytes. -/
theorem Origin.whole {table : SymbolTable} {id index : Nat} {sect : Section} {chunk : Chunk}
    (origin : Origin table id index sect chunk) : chunk.Whole := by
  intro plain
  unfold Chunk.fieldsAt
  cases isBody : chunk.body with
  | data items =>
    have measured := origin.measured
    rw [origin.body_eq (by simp [isBody, Body.kind]), isBody] at measured
    generalize origin.measure = measure at measured
    cases measured with
    | data sized => exact measureItems_whole sized 0
  | leb128 integer => simp [isBody, Body.integer?] at plain
  | instruction code =>
    intro entry member
    obtain ⟨operand, isOperand, rfl⟩ := List.mem_map.mp member
    obtain ⟨filled, bytes, _⟩ :=
      checkOperands_eq_none_iff.mp (origin.instruction_operands isBody) operand isOperand
    exact ⟨bytes, filled⟩
  | branch jump =>
    intro entry member
    rw [List.mem_singleton.mp member]
    exact ⟨(origin.branch_width isBody _).2, (origin.branch_width isBody _).1⟩
  | reserve | binary | align | org =>
    intro entry member
    cases member

/-- A field of items at an offset is one of the fields of the items. -/
theorem DataItem.mem_fields_of_mem_fieldsAt {items : List DataItem} {offset : UInt64}
    {entry : UInt64 × Field} (member : entry ∈ DataItem.fieldsAt offset items) :
    entry.2 ∈ items.flatMap DataItem.fields := by
  induction items generalizing offset with
  | nil => cases member
  | cons item rest ih =>
    cases item with
    | bytes content => exact ih member
    | field inner =>
      rcases List.mem_cons.mp member with rfl | inRest
      · exact List.mem_append_left _ (List.mem_singleton.mpr rfl)
      · exact List.mem_append_right _ (ih inRest)

/-- A field at an offset is one of the fields of the body, up to its width and constant. -/
theorem Chunk.exists_field {chunk : Chunk} {entry : UInt64 × Field}
    (member : entry ∈ chunk.fieldsAt) :
    ∃ field ∈ chunk.body.fields, entry.2.symbol = field.symbol ∧ entry.2.origin = field.origin ∧
      entry.2.ipRelative = field.ipRelative := by
  unfold Chunk.fieldsAt at member
  unfold Body.fields
  cases isBody : chunk.body with
  | data items =>
    rw [isBody] at member
    exact ⟨entry.2, DataItem.mem_fields_of_mem_fieldsAt member, rfl, rfl, rfl⟩
  | leb128 integer =>
    rw [isBody] at member
    exact ⟨entry.2, by rw [List.mem_singleton.mp member]; exact List.mem_singleton.mpr rfl,
      rfl, rfl, rfl⟩
  | instruction code =>
    rw [isBody] at member
    obtain ⟨operand, isOperand, rfl⟩ := List.mem_map.mp member
    exact ⟨operand.field, List.mem_map_of_mem isOperand, rfl, rfl, rfl⟩
  | branch jump =>
    rw [isBody] at member
    rw [List.mem_singleton.mp member]
    exact ⟨jump.target, List.mem_singleton.mpr rfl, rfl, rfl, rfl⟩
  | reserve | binary | align | org =>
    rw [isBody] at member
    cases member

/-- The fields of a chunk of a layout without an error say where they count from. -/
theorem Origin.anchored {table : SymbolTable} {id index : Nat} {sect : Section} {chunk : Chunk}
    (origin : Origin table id index sect chunk)
    (fresh : ∀ field ∈ origin.source.body.fields, field.Fresh table) :
    ∀ entry ∈ chunk.fieldsAt, entry.2.Anchored table := by
  intro entry member
  obtain ⟨field, isField, symbol, counted, relative⟩ := Chunk.exists_field member
  have settled : chunk.body.kind ≠ .binary := by
    intro binary
    cases isBody : chunk.body with
    | binary part => simp [isBody, Body.fields] at isField
    | data | leb128 | reserve | align | org | instruction | branch =>
      simp [isBody, Body.kind] at binary
  rw [← origin.body_eq settled] at isField
  have anchored := Body.settle_anchored origin.settled fresh field isField
  unfold Field.Anchored at anchored ⊢
  rwa [symbol, counted, relative]

/-- The bytes of a copy stand where its chunk and the copies before it say. -/
theorem Section.Clean.liesAt {sect : Section} {table : SymbolTable} {id index : Nat} {chunk : Chunk}
    (clean : sect.Clean table id) (bounded : sect.exactSize < 2 ^ 63)
    (chunkAt : sect.chunks[index]? = some chunk) {number : Nat} (inRange : number < chunk.count) :
    (sect.copySite id index chunk number).LiesAt sect
        (chunk.slot.offset.toNat + number * chunk.slot.length.toNat) chunk.exactLength ∧
      chunk.slot.offset.toNat + number * chunk.slot.length.toNat + chunk.exactLength ≤
        sect.exactSize := by
  have length := (clean.toNat_length bounded chunkAt (by omega)).1
  have product := clean.toNat_copyOffset bounded chunkAt inRange
  have inside := clean.offset_add_extent_le bounded chunkAt
  have upTo := Chunk.copy_le_extent inRange
  rw [Nat.succ_mul] at upTo
  refine ⟨fun offset within => ?_, by omega⟩
  have slotAt : sect.slots[index]? = some chunk.slot := by
    rw [Section.slots, List.getElem?_map, chunkAt, Option.map_some]
  simp only [Section.offsetOf, offsetAmong, Section.copySite, slotAt]
  rw [UInt64.toNat_add, UInt64.toNat_add, product, Nat.mod_eq_of_lt (by omega),
    Nat.mod_eq_of_lt (by omega)]
  omega

namespace Object

variable {early late : Object} {table symbols : SymbolTable} {sect : Section}
  (address : String → UInt64) (lateSymbols : SymbolTable) (allowed : Bool)

/-- Filling in the relocations of a copy gives the copy with its imports linked. -/
theorem emitCopy_links {copy : CopySite} {start : Nat}
    (found : early.sections[copy.sectionId]? = some sect)
    (lies : copy.LiesAt sect start copy.chunk.exactLength)
    (bounded : sect.base.toNat + start + copy.chunk.exactLength < 2 ^ 64)
    (whole : copy.chunk.Whole)
    (linkable : ∀ site ∈ copy.sites, site.Linkable early late sect table)
    (vacant : copy.chunk.body.Vacant)
    (emitted : early.emitCopy (.standard symbols true) copy = .ok (emission, none))
    (silent : emission.Silent) :
    emission.Links sect.base (table.resolve address) start fun linked =>
      late.emitCopy (.standard lateSymbols allowed) (copy.link table address) =
        .ok (linked, none) := by
  rw [emitCopy_eq] at emitted
  obtain ⟨⟨content, error⟩, emitted, checked⟩ := exists_of_bind_ok emitted
  cases error with
  | some error => cases checked
  | none =>
    dsimp only at checked
    split at checked
    · next size =>
      cases checked
      refine (emitContent_links address lateSymbols allowed found rfl lies bounded whole linkable
        vacant emitted silent).mono fun linked same emits => ?_
      have fits : linked.bytes.length = (copy.link table address).chunk.slot.length.toNat :=
        same.trans size
      simp only [emitCopy_eq, emits, bind, Except.bind, fits, if_true, pure, Except.pure]
    · cases checked

section

variable {id index : Nat} {chunk : Chunk} {base : UInt64} {resolve : SymbolId → Option UInt64}
  {start : Nat}

/-- Copies link if each of them does. -/
theorem emitCopies_links {count remaining number : Nat} (inRange : number + remaining ≤ count)
    (copies : ∀ place < count, ∀ copy : Emission, copy.Silent →
      early.emitCopy (.standard symbols true) (sect.copySite id index chunk place) =
        .ok (copy, none) →
      copy.Links base resolve (start + place * chunk.slot.length.toNat) fun linked =>
        late.emitCopy (.standard lateSymbols allowed)
          ((sect.copySite id index chunk place).link table address) = .ok (linked, none))
    {emission : Emission}
    (emitted : early.emitCopies (.standard symbols true) sect id index chunk remaining number =
      .ok emission) (silent : emission.Silent) :
    emission.Links base resolve (start + number * chunk.slot.length.toNat) fun linked =>
      late.emitCopies (.standard lateSymbols allowed) (sect.link table address) id index
        (chunk.link table address) remaining number = .ok linked := by
  induction remaining generalizing number emission with
  | zero =>
    cases emitted
    exact .of_same rfl silent rfl
  | succ remaining ih =>
    obtain ⟨first, others, written, later, rfl, silentFirst, silentOthers⟩ :=
      exists_of_emitCopies_succ emitted silent
    have size : first.bytes.length = chunk.slot.length.toNat := length_of_emitCopy written
    have links := copies number (by omega) first silentFirst written
    have linksOthers := ih (by omega) later silentOthers
    have next : start + (number + 1) * chunk.slot.length.toNat =
        start + number * chunk.slot.length.toNat + first.bytes.length := by
      rw [size, Nat.succ_mul, Nat.add_assoc]
    rw [next] at linksOthers
    refine links.append linksOthers ?_
    intro one other emitsOne emitsOther
    have emitsCopy : late.emitCopy (.standard lateSymbols allowed) ⟨id,
        (sect.link table address).name, index, chunk.link table address,
        UInt64.ofNat number * (chunk.link table address).slot.length⟩ = .ok (one, none) :=
      emitsOne
    simp only [emitCopies, emitsCopy, emitsOther, bind, Except.bind, pure, Except.pure]

/-- The chunks of a section with bytes of a file, the first of which is emitted. -/
theorem emitChunks_cons {object : Object} {output : Output} {rest : List Nat} {part : Emission}
    (filed : sect.noBits = false) (emits : object.emitChunk output id index = .ok (.ok part)) :
    object.emitChunks output sect id (index :: rest) =
      (object.emitChunks output sect id rest).map part.append := by
  have unreported : ({ part with diagnostics := part.diagnostics ++ [] } : Emission) = part := by
    rw [List.append_nil]
  simp only [emitChunks, emits, filed, bind, Except.bind, pure, Except.pure, Bool.false_and,
    Bool.false_eq_true, if_false]
  cases object.emitChunks output sect id rest with
  | error reference => rfl
  | ok others => cases sect.chunks[index]? <;> simp only [Except.map, unreported]

/-- Chunks link if each of them does. -/
theorem emitChunks_links (found : early.sections[id]? = some sect)
    (foundLate : late.sections[id]? = some (sect.link table address))
    (laidOut : sect.laidOut = true) (sound : ∀ chunk ∈ sect.chunks, chunk.slot.error = none)
    (filed : sect.noBits = false)
    (chunks : ∀ index chunk, sect.chunks[index]? = some chunk → ∀ part : Emission, part.Silent →
      early.emitCopies (.standard symbols true) sect id index chunk chunk.count 0 = .ok part →
      part.Links base resolve ((sect.chunks.take index).map Chunk.extent).sum fun linked =>
        late.emitCopies (.standard lateSymbols allowed) (sect.link table address) id index
          (chunk.link table address) chunk.count 0 = .ok linked)
    {first count : Nat} (inRange : first + count ≤ sect.chunks.length) {emission : Emission}
    (emitted : early.emitChunks (.standard symbols true) sect id (List.range' first count) =
      .ok emission) (silent : emission.Silent) :
    emission.Links base resolve ((sect.chunks.take first).map Chunk.extent).sum fun linked =>
      late.emitChunks (.standard lateSymbols allowed) (sect.link table address) id
        (List.range' first count) = .ok linked := by
  induction count generalizing first emission with
  | zero =>
    cases emitted
    exact .of_same rfl silent rfl
  | succ count ih =>
    have chunkAt : sect.chunks[first]? = some sect.chunks[first] :=
      List.getElem?_eq_getElem (by omega)
    generalize sect.chunks[first] = chunk at chunkAt
    have member := List.mem_of_getElem? chunkAt
    have chunkAtLate : (sect.link table address).chunks[first]? =
        some (chunk.link table address) := by
      simp [Section.link, chunkAt]
    have eachEmits := @emitChunk_ok_iff early (.standard symbols true) sect id first chunk found
      laidOut chunkAt (sound chunk member)
    have eachEmitsLate := @emitChunk_ok_iff late (.standard lateSymbols allowed)
      (sect.link table address) id first (chunk.link table address) foundLate laidOut chunkAtLate
      (sound chunk member)
    have filedLate : (sect.link table address).noBits = false := filed
    rw [List.range'_succ] at emitted ⊢
    obtain ⟨outcome, emits, _⟩ := exists_of_bind_ok emitted
    cases outcome with
    | error error => exact absurd emits (emitChunk_ne_error found laidOut sound error)
    | ok part =>
      rw [emitChunks_cons filed emits] at emitted
      cases later : early.emitChunks (.standard symbols true) sect id
          (List.range' (first + 1) count) with
      | error reference =>
        rw [later] at emitted
        cases emitted
      | ok others =>
        rw [later] at emitted
        cases emitted
        obtain ⟨silentPart, silentOthers⟩ := Emission.silent_append.mp silent
        have size : part.bytes.length = chunk.extent :=
          length_of_emitCopies (eachEmits.mp emits) silentPart
        have next : ((sect.chunks.take (first + 1)).map Chunk.extent).sum =
            ((sect.chunks.take first).map Chunk.extent).sum + part.bytes.length := by
          rw [size, List.take_add_one, chunkAt]
          simp
        have linksOthers := ih (by omega) later silentOthers
        rw [next] at linksOthers
        refine (chunks first chunk chunkAt part silentPart (eachEmits.mp emits)).append
          linksOthers ?_
        intro one other emitsOne emitsOther
        rw [emitChunks_cons filedLate (eachEmitsLate.mpr emitsOne), emitsOther]
        rfl

/-- A section with bytes of a file whose chunks are emitted without a report that stops it. -/
theorem exists_emitSection {object : Object} {output : Output}
    (found : object.sections[id]? = some sect) (laidOut : sect.laidOut = true)
    (passed : sect.failed = false) (filed : sect.noBits = false)
    (emits : object.emitChunks output sect id (List.range sect.chunks.length) = .ok emission)
    (silent : emission.Silent) :
    ∃ emitted, object.emitSection output id = .ok emitted ∧
      emitted.program = .ok
        { name := sect.name
          code := emission.bytes
          relocs := Reloc.insertAll emission.relocs sect.relocs } := by
  simp only [emitSection, getSection_natCast, found, laidOut, passed, emits, bind, Except.bind,
    pure, Except.pure, Bool.not_true, Bool.false_eq_true, if_false, Except.ok.injEq]
  refine ⟨_, rfl, ?_⟩
  simp only [Emission.silent_iff.mp silent, filed, Bool.false_eq_true, if_false]

end

/-- The relocations of patches that lie apart are at distinct offsets. -/
theorem nodup_offsets {base : UInt64} {resolve : SymbolId → Option UInt64} {start : Nat}
    {emits : Emission → Prop} (links : emission.Links base resolve start emits) :
    (emission.relocs.map Reloc.offset).Nodup := by
  have apart := List.pairwise_map.mp links.apart
  rw [List.Nodup, List.pairwise_map]
  refine apart.imp_of_mem fun leftMember rightMember separate same => ?_
  have left := links.inside _ (List.mem_map_of_mem leftMember)
  have right := links.inside _ (List.mem_map_of_mem rightMember)
  have starts := congrArg UInt64.toNat same
  unfold Patch.Apart at separate
  simp only [Reloc.patch] at *
  omega

/-- Filling in the relocations of a chunk gives the chunk with its imports linked. -/
theorem emitChunk_links {id index : Nat} {chunk : Chunk} (clean : sect.Clean table id)
    (found : early.sections[id]? = some sect) (bounded : sect.exactSize < 2 ^ 63)
    (reach : sect.base.toNat + sect.exactSize < 2 ^ 64)
    (linkable : ∀ site ∈ sect.sites id, site.Linkable early late sect table)
    (vacant : ∀ chunk ∈ sect.chunks, chunk.body.Vacant)
    (chunkAt : sect.chunks[index]? = some chunk)
    (emitted : early.emitCopies (.standard symbols true) sect id index chunk chunk.count 0 =
      .ok emission) (silent : emission.Silent) :
    emission.Links sect.base (table.resolve address)
      ((sect.chunks.take index).map Chunk.extent).sum fun linked =>
        late.emitCopies (.standard lateSymbols allowed) (sect.link table address) id index
          (chunk.link table address) chunk.count 0 = .ok linked := by
  obtain ⟨origin⟩ := clean.origin chunkAt
  rw [← clean.toNat_offset bounded chunkAt]
  have links := @emitCopies_links early late table symbols sect address lateSymbols allowed id index
    chunk sect.base (table.resolve address) chunk.slot.offset.toNat chunk.count chunk.count 0
    (by omega) (by
      intro place inRange copy silentCopy emitsCopy
      obtain ⟨lies, within⟩ := clean.liesAt bounded chunkAt inRange
      exact emitCopy_links address lateSymbols allowed found lies (by
          simp only [Section.copySite]
          omega) origin.whole
        (fun site member => linkable site
          (Section.mem_sites.mpr ⟨index, chunk, chunkAt, place, inRange, member⟩))
        (vacant chunk (List.mem_of_getElem? chunkAt)) emitsCopy silentCopy) emission emitted silent
  rwa [Nat.zero_mul, Nat.add_zero] at links

/-- Filling in the relocations of a program gives the code of the section with its imports linked.
-/
theorem exists_program_link {id : Nat} (clean : sect.Clean table id)
    (found : early.sections[id]? = some sect)
    (foundLate : late.sections[id]? = some (sect.link table address))
    (filed : sect.noBits = false) (unrecorded : sect.relocs = [])
    (bounded : sect.exactSize < 2 ^ 63) (reach : sect.base.toNat + sect.exactSize < 2 ^ 64)
    (linkable : ∀ site ∈ sect.sites id, site.Linkable early late sect table)
    (vacant : ∀ chunk ∈ sect.chunks, chunk.body.Vacant) {emitted : Emitted} {program : Program}
    {code : List UInt8} (emits : early.emitSection (.standard symbols true) id = .ok emitted)
    (accepted : emitted.program = .ok program)
    (relocated : program.relocated sect.base (table.resolve address) = .ok code) :
    ∃ linked linkedProgram,
      late.emitSection (.standard lateSymbols allowed) id = .ok linked ∧
      linked.program = .ok linkedProgram ∧ linkedProgram.code = code ∧
      linkedProgram.relocs = [] := by
  obtain ⟨laidOut, passed, emission, emitsChunks, silent, relocs, bytes, _⟩ :=
    emitSection_ok found emits accepted
  rw [filed, if_neg (by simp)] at bytes
  rw [List.range_eq_range'] at emitsChunks
  have links := @emitChunks_links early late table symbols sect address lateSymbols allowed id
    sect.base (table.resolve address) found foundLate laidOut clean.error_none filed
    (fun index chunk chunkAt part silentPart emitsPart =>
      emitChunk_links address lateSymbols allowed clean found bounded reach linkable vacant chunkAt
        emitsPart silentPart)
    0 sect.chunks.length (by omega) emission emitsChunks silent
  rw [List.take_zero, List.map_nil, List.sum_nil] at links
  have recorded : ∀ reloc, reloc ∈ program.relocs ↔ reloc ∈ emission.relocs := by
    intro reloc
    rw [relocs, unrecorded, Reloc.mem_insertAll .nil (nodup_offsets links)]
    simp
  obtain ⟨fillable, filled⟩ := Program.relocated_eq_paint links.apart
    (fun patch => by simp only [Emission.patches, List.mem_map, recorded]) relocated
  obtain ⟨linked, emitsLinked, silentLinked, relocsLinked, bytesLinked⟩ :=
    links.linked fun reloc member => fillable reloc ((recorded reloc).mpr member)
  rw [← List.range_eq_range'] at emitsLinked
  have chunksLinked : (sect.link table address).chunks.length = sect.chunks.length :=
    List.length_map _
  obtain ⟨result, emitsResult, program⟩ := exists_emitSection foundLate laidOut passed filed
    (chunksLinked ▸ emitsLinked) silentLinked
  have unrecordedLinked : (sect.link table address).relocs = [] := unrecorded
  refine ⟨result, _, emitsResult, program, ?_, ?_⟩
  · rw [filled, bytes]
    exact bytesLinked
  · simp only [relocsLinked, unrecordedLinked]
    rfl

end Object

end Assembler
